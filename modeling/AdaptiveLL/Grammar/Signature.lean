import AdaptiveLL.Attribute.Scope

/-!
# Signatures

The attributes of a rule, with the computations of their defaults. Each
invocation of the rule computes the defaults anew (`Scope.ofDeclarations`), so no
two invocations share a value. The computations act on the state `σ` of whoever
uses the grammar, its *host*.
-/

namespace AdaptiveLL

/-- An attribute, and the computation of its default if it has one. -/
structure Declaration (σ : Type) where
  name : String
  default : Option (Effect σ Value) := none

/-- The attributes of a rule. -/
structure Signature (σ : Type) where
  locals : List (Declaration σ) := []
  returns : List (Declaration σ) := []

variable {σ : Type}

instance : Inhabited (Signature σ) := ⟨{}⟩

/-- The default of an attribute; without a computation it is nil. -/
def Declaration.value (d : Declaration σ) : Effect σ Value :=
  d.default.getD (pure .nil)

/-- Adds the declared attributes to a scope, one after the other. -/
def Scope.declare : List (Declaration σ) → Scope → Effect σ Scope
  | [], s => pure s
  | d :: rest, s => do
    let v ← d.value
    Scope.declare rest (s.set d.name v)

/-- A fresh scope of the declared attributes. -/
def Scope.ofDeclarations (declarations : List (Declaration σ)) : Effect σ Scope :=
  Scope.declare declarations {}

end AdaptiveLL
