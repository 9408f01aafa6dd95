import AdaptiveLL.Fault
import AdaptiveLL.Network.Label

/-!
# Networks

A `Network` is a recursive transition network: states with labelled
transitions, grouped into rules that call each other. States, rules and
decisions are known by their numbers, so that cycles are only numbers too; a
number that belongs to nothing is a fault of the look-up (`Network.state`,
`Network.rule`, `Network.decisionState`).

A state with several transitions is a *decision*; its transitions are its
alternatives, counted from one.
-/

namespace AdaptiveLL

/-- What a state is for. -/
inductive StateKind
  | basic
  | blockStart
  | blockEnd
  | starLoopEntry
  | starLoopBack
  | plusLoopBack
  | loopEnd
  | ruleStart
  | ruleStop
deriving DecidableEq, Repr

/-- The written form of a kind of states. -/
def StateKind.name : StateKind → String
  | basic => "BASIC"
  | blockStart => "BLOCK_START"
  | blockEnd => "BLOCK_END"
  | starLoopEntry => "STAR_LOOP_ENTRY"
  | starLoopBack => "STAR_LOOP_BACK"
  | plusLoopBack => "PLUS_LOOP_BACK"
  | loopEnd => "LOOP_END"
  | ruleStart => "RULE_START"
  | ruleStop => "RULE_STOP"

/-- A state of a network. -/
structure State where
  /-- The rule it belongs to. -/
  rule : RuleId
  kind : StateKind
  /-- The ways on, in the order of the alternatives. -/
  transitions : List Transition := []
  /-- Its number as a decision. -/
  decision : Option Nat := none
  /-- Whether it decides on a loop that is left as early as possible. -/
  nonGreedy : Bool := false
  /-- The alternative that leaves the loop it decides on; `0` if it is no loop. -/
  exitAlt : Int := 0
deriving DecidableEq, Repr

/-- A state with one more way on. -/
def State.connect (s : State) (t : Transition) : State :=
  { s with transitions := s.transitions ++ [t] }

/-- A rule of a network: the part of it between two states. -/
structure Rule where
  name : String
  start : StateId
  stop : StateId
deriving DecidableEq, Repr

/-- The element of a given number; a negative one belongs to nothing. -/
def numbered? {α : Type} (items : Array α) (id : Int) : Option α :=
  if id < 0 then none else items[id.toNat]?

/-- States and transitions, grouped into rules. -/
structure Network where
  states : Array State := #[]
  rules : Array Rule := #[]
  /-- The states with several ways on. -/
  decisions : Array StateId := #[]

namespace Network

variable (net : Network)

/-- The state of a given number. -/
def state (id : StateId) : Except Fault State :=
  match numbered? net.states id with
  | some s => .ok s
  | none => .error (.invalidState id)

/-- The rule of a given number. -/
def rule (id : RuleId) : Except Fault Rule :=
  match numbered? net.rules id with
  | some r => .ok r
  | none => .error (.invalidRule id)

/-- The number of the rule of a given name. -/
def findRule? (name : String) : Option RuleId :=
  (net.rules.toList.findIdx? fun r => r.name == name).map Int.ofNat

/-- The state of a decision. -/
def decisionState (decision : Int) : Except Fault StateId :=
  match numbered? net.decisions decision with
  | some id => .ok id
  | none => .error (.invalidDecision decision)

end Network

end AdaptiveLL
