import AdaptiveLL.Network.Basic

/-!
# Reachability between states

A search over the states of a network under construction, by a successor
function that says which transitions count. On it rest two questions about a
part of a network that is entered at one state and left at another
(`Fragment`): whether it can be crossed without consuming a token
(`Fragment.canBeEmpty`), and whether it contains a wildcard
(`Fragment.hasWildcard`).
-/

namespace AdaptiveLL

/-- A part of a network that is entered at one state and left at another. -/
structure Fragment where
  start : StateId
  stop : StateId
deriving DecidableEq, Repr

/-- The states found from a frontier, given those already found, within some
    steps. -/
def explore (next : StateId → List StateId) : Nat → List StateId → List StateId → List StateId
  | 0, _, found => found
  | _, [], found => found
  | fuel + 1, id :: frontier, found =>
    let new := (next id).foldl (fun new t => if t ∈ found ∨ t ∈ new then new else t :: new) []
    explore next fuel (new ++ frontier) (new ++ found)

/-- The transitions that leave a state; a state that does not exist has none. -/
def transitionsOf (states : Array State) (id : StateId) : List Transition :=
  ((numbered? states id).map State.transitions).getD []

/-- The states reached from a state by a successor function. As each state is
    looked at once, as many steps suffice as there are states, where the first one
    need not exist. -/
def reachable (states : Array State) (next : StateId → List StateId) (start : StateId) :
    List StateId :=
  explore next (states.size + 1) [start] [start]

namespace Fragment

variable (states : Array State) (f : Fragment)

/-- Where a transition leads without consuming a token, if it does so: a call is
    crossed only if the rule called is among those that can match nothing. -/
def emptyStep (nullable : List RuleId) (t : Transition) : Option StateId :=
  match t.label with
  | .epsilon | .predicate _ | .action _ => some t.target
  | .call rule follow => if rule ∈ nullable then some follow else none
  | _ => none

/-- Whether the fragment can be crossed without consuming a token. -/
def canBeEmpty (nullable : List RuleId) : Bool :=
  let next id :=
    if id = f.stop then [] else (transitionsOf states id).filterMap (emptyStep nullable)
  (reachable states next f.start).contains f.stop

/-- Where a transition leads within its own rule. -/
def innerStep (t : Transition) : StateId :=
  match t.label with
  | .call _ follow => follow
  | _ => t.target

/-- Whether a wildcard can be reached in the fragment without leaving its rule
    and its end. -/
def hasWildcard : Bool :=
  let ways id := if id = f.stop then [] else transitionsOf states id
  let next id := (ways id).map innerStep
  (reachable states next f.start).any fun id => (ways id).any fun t => t.label == .wildcard

end Fragment

end AdaptiveLL
