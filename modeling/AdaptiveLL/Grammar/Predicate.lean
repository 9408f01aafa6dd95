import AdaptiveLL.Invocation.Frame
import AdaptiveLL.Token.Input

/-!
# Predicates

A predicate is a condition on the current invocation and on the input. It is
evaluated either *speculatively*, while a prediction is made, or in earnest when
a parse crosses it; only then can it change the locals of the invocation. A
predicate that asks for something that does not exist yet is neither true nor
false (`Truth.unknown`).
-/

namespace AdaptiveLL

/-- What the evaluation of a predicate comes to. -/
inductive Truth
  | holds
  | fails
  /-- The predicate needs something that does not exist yet. -/
  | unknown
deriving DecidableEq, Repr

/-- Where a predicate is evaluated. -/
structure Scene where
  /-- The current invocation, if there is one. -/
  frame : Option Frame
  input : Input
  position : Nat
  /-- Whether the locals must not be changed. -/
  speculative : Bool

/-- What a predicate acts on: the locals of the invocation and the host's state. -/
structure PredicateState (σ : Type) where
  locals : Scope
  host : σ

/-- A condition on the current invocation and the input. -/
structure Predicate (σ : Type) where
  /-- How the condition is written in the grammar. -/
  text : String
  /-- The condition; without one the predicate always holds. -/
  test : Option (Scene → Effect (PredicateState σ) Bool) := none
  /-- The message that is given instead of the usual one when it fails. -/
  onFailure : Option String := none

variable {σ : Type}

namespace Scene

/-- The value of a local, given the locals as they are now. -/
def local? (locals : Scope) (name : String) : Except Fault Value :=
  match locals.get? name with
  | some v => .ok v
  | none => .error (.unavailable ("local '" ++ name ++ "' is not available"))

/-- The value of a return of the current invocation. -/
def return? (scene : Scene) (name : String) : Except Fault Value :=
  match scene.frame.bind (·.returns.get? name) with
  | some v => .ok v
  | none => .error (.unavailable ("return value '" ++ name ++ "' is not available"))

/-- The returns of the last call of a rule. -/
def child? (scene : Scene) (rule : String) : Except Fault Scope :=
  match scene.frame with
  | none => .error (.unavailable ("no rule context for '" ++ rule ++ "'"))
  | some frame =>
    match frame.children.lookup rule with
    | none => .error (.unavailable ("rule '" ++ rule ++ "' has not returned yet"))
    | some returns => .ok returns

/-- The token at a distance: `1` is the one at the position of the scene, `-1`
    the one before. -/
def look (scene : Scene) (k : Int) : Except Fault Token :=
  if k = 0 then .error .zeroLookahead
  else if 0 < k then .ok (scene.input.lookFrom scene.position k.toNat)
  else if scene.position < (-k).toNat then
    .error (.unavailable "no token before the start of input")
  else .ok (scene.input.get (scene.position - (-k).toNat))

end Scene

namespace Predicate

/-- What a predicate comes to at a scene. -/
def evaluate (p : Predicate σ) (scene : Scene) : Effect (PredicateState σ) Truth :=
  match p.test with
  | none => pure .holds
  | some test => fun s =>
    match test scene s with
    | (.ok true, s) => (.ok .holds, s)
    | (.ok false, s) => (.ok .fails, s)
    | (.error (.unavailable _), s) => (.ok .unknown, s)
    | (.error fault, s) => (.error fault, s)

/-- What a predicate comes to speculatively: it changes nothing but the host. -/
def speculate (p : Predicate σ) (frame : Option Frame) (input : Input) (position : Nat) :
    Effect σ Truth :=
  let scene : Scene := { frame, input, position, speculative := true }
  let locals := (frame.map Frame.locals).getD {}
  Effect.zoom (fun host => { locals, host }) (fun s _ => s.host) (p.evaluate scene)

/-- The message for a predicate that does not hold where it has to. -/
def failure (p : Predicate σ) : String :=
  p.onFailure.getD ("failed predicate: \x7b" ++ p.text ++ "\x7d?")

end Predicate

end AdaptiveLL
