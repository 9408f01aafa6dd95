import AdaptiveLL.Grammar.Builder

/-!
# Rule bodies

The body of a rule as an expression (`Body`), and the grammar of some rules
given by such expressions (`Grammar.ofRules`).
-/

namespace AdaptiveLL

/-- The body of a rule. -/
inductive Body (σ : Type)
  | token (type : Int)
  | range (low high : Int)
  | oneOf (types : List Int)
  | noneOf (types : List Int)
  | wildcard
  | epsilon
  | call (rule : String)
  | predicate (p : Predicate σ)
  | action (a : Action σ)
  | sequence (parts : List (Body σ))
  | block (alternatives : List (Body σ))
  | optional (alternatives : List (Body σ))
  | star (alternatives : List (Body σ)) (greediness : Greediness)
  | plus (alternatives : List (Body σ)) (greediness : Greediness)

/-- A rule with its attributes. -/
structure RuleDefinition (σ : Type) where
  name : String
  signature : Signature σ := {}
  body : Body σ

variable {σ : Type}

namespace Body

mutual

/-- The fragment of a body, in the open rule. -/
def build : Body σ → Build σ Fragment
  | .token type => Build.token type
  | .range low high => Build.range low high
  | .oneOf types => Build.oneOf types
  | .noneOf types => Build.noneOf types
  | .wildcard => Build.wildcard
  | .epsilon => Build.epsilon
  | .call rule => Build.call rule
  | .predicate p => Build.predicate p
  | .action a => Build.action a
  | .sequence parts => do Build.sequence (← buildAll parts)
  | .block alternatives => do Build.block (← buildAll alternatives)
  | .optional alternatives => do Build.optional (← buildAll alternatives)
  | .star alternatives greediness => do Build.star (← buildAll alternatives) greediness
  | .plus alternatives greediness => do Build.plus (← buildAll alternatives) greediness

/-- The fragments of some bodies, one after the other. -/
def buildAll : List (Body σ) → Build σ (List Fragment)
  | [] => pure []
  | body :: rest => do
    let fragment ← build body
    let fragments ← buildAll rest
    return fragment :: fragments

end

end Body

namespace Grammar

/-- Defines some rules, one after the other. -/
def define : List (RuleDefinition σ) → Build σ Unit
  | [] => pure ()
  | r :: rest => do
    let _ ← Build.rule r.name r.signature r.body.build
    define rest

/-- The grammar of some rules. -/
def ofRules (rules : List (RuleDefinition σ)) : Except BuildError (Grammar σ) :=
  let build : Build σ (Grammar σ) := do
    define rules
    Build.finish
  (build.run.run {}).1

end Grammar

end AdaptiveLL
