import AdaptiveLL.Attribute.Scope
import AdaptiveLL.Token.Basic

/-!
# Actions

An action is executed when a parse crosses it. It reads and changes the
attributes of the current invocation, and may write to the output of the parse.
-/

namespace AdaptiveLL

/-- What an action can see but not change. -/
structure ActionScene where
  /-- The returns of the rules called so far, by the rules' names. -/
  children : List (String × Scope)
  /-- The token matched last. -/
  last : Option Token

/-- What an action acts on: the attributes of the invocation, the output of the
    parse and the host's state. -/
structure ActionState (σ : Type) where
  locals : Scope
  returns : Scope
  out : String
  host : σ

/-- A computation that is executed by a parse. -/
structure Action (σ : Type) where
  /-- How the action is written in the grammar. -/
  text : String
  /-- What it does; without this it does nothing. -/
  run : Option (ActionScene → Effect (ActionState σ) Unit) := none

namespace ActionScene

/-- The returns of the last call of a rule. -/
def child (scene : ActionScene) (rule : String) : Except Fault Scope :=
  match scene.children.lookup rule with
  | some returns => .ok returns
  | none => .error (.notReturned rule)

/-- The token matched last. -/
def lastToken (scene : ActionScene) : Except Fault Token :=
  match scene.last with
  | some token => .ok token
  | none => .error .noToken

end ActionScene

/-- Executes an action. -/
def Action.execute {σ : Type} (a : Action σ) (scene : ActionScene) : Effect (ActionState σ) Unit :=
  match a.run with
  | none => pure ()
  | some run => run scene

end AdaptiveLL
