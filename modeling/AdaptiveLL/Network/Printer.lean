import AdaptiveLL.Network.Basic

/-!
# The written form of a network

`Network.text` lists the rules, the decisions and the transitions of a network.
-/

namespace AdaptiveLL.Network

variable (net : Network)

/-- The line of a rule. -/
def ruleLine (r : Rule) : String :=
  "  " ++ r.name ++ ": start " ++ toString r.start ++ ", stop " ++ toString r.stop ++ "\n"

/-- The entry of a decision at a state. -/
def decisionEntry (decision : Nat) (id : StateId) : String :=
  let nonGreedy := (numbered? net.states id).any State.nonGreedy
  toString decision ++ "@" ++ toString id ++ (if nonGreedy then "(non-greedy) " else " ")

/-- The line of a transition from a state. -/
def transitionLine (id : Nat) (kind : StateKind) (t : Transition) : String :=
  "  State " ++ toString id ++ " [" ++ kind.name ++ "] --" ++ t.label.text ++ "--> State " ++
    toString t.target ++ "\n"

/-- The written form of a network under a title. -/
def text (title : String) : String :=
  "=== " ++ title ++ " Structure ===\n" ++
  "Rules:\n" ++ String.join (net.rules.toList.map ruleLine) ++
  "Decisions: " ++ String.join (net.decisions.toList.mapIdx net.decisionEntry) ++
  "\nTransitions:\n" ++
  String.join (net.states.toList.mapIdx fun id s =>
    String.join (s.transitions.map (transitionLine id s.kind))) ++
  "===========================\n\n"

end AdaptiveLL.Network
