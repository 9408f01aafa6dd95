import AdaptiveLL.Attribute.Scope
import AdaptiveLL.Network.Label

/-!
# Frames

A `Frame` is one invocation of a rule: where it returns to, its own locals and
returns, and what the rules it has called have returned so far.
-/

namespace AdaptiveLL

/-- One invocation of a rule. -/
structure Frame where
  rule : RuleId
  name : String
  /-- The state the caller goes on at; a rule that a parse starts with has none. -/
  follow : Option StateId
  /-- The place in the input at which the rule was entered. -/
  start : Nat
  locals : Scope
  returns : Scope
  /-- The returns of the last call of each rule called, by the rules' names. -/
  children : List (String × Scope) := []
  /-- The states that this invocation and its callers return to, innermost first. -/
  context : List StateId

end AdaptiveLL
