import AdaptiveLL.Invocation.Stack
import AdaptiveLL.Network.Basic

/-!
# Grammars

A `Grammar` is a network together with what its labels refer to: the signatures
of its rules, its predicates and its actions. They act on a state `σ` of the
host.
-/

namespace AdaptiveLL

/-- A network with attributes, predicates and actions. -/
structure Grammar (σ : Type) extends Network where
  /-- The attributes of the rules, in the order of the rules. -/
  signatures : Array (Signature σ) := #[]
  predicates : Array (Predicate σ) := #[]
  actions : Array (Action σ) := #[]

namespace Grammar

variable {σ : Type} (g : Grammar σ)

instance : Inhabited (Grammar σ) := ⟨{}⟩

/-- The predicate of a given number. -/
def predicate (index : Int) : Except Fault (Predicate σ) :=
  match numbered? g.predicates index with
  | some p => .ok p
  | none => .error (.invalidPredicate index)

/-- The action of a given number. -/
def action (index : Int) : Except Fault (Action σ) :=
  match numbered? g.actions index with
  | some a => .ok a
  | none => .error (.invalidAction index)

/-- The attributes of a rule. -/
def signature (id : RuleId) : Signature σ :=
  (numbered? g.signatures id).getD {}

/-- Enters a rule of the grammar. -/
def enter (stack : Stack) (id : RuleId) (follow : Option StateId) (start : Nat) :
    Effect σ Stack := do
  let rule ← Effect.ofExcept (g.rule id)
  stack.enter id rule.name (g.signature id) follow start

end Grammar

end AdaptiveLL
