import AdaptiveLL.Grammar.Action
import AdaptiveLL.Grammar.Predicate
import AdaptiveLL.Grammar.Signature

/-!
# Invocation stacks

The invocations a parse is in, the current one first. Entering a rule
(`Stack.enter`) gives it attributes of its own; leaving it (`Stack.exit`) keeps
nothing of it but its returns, which its caller finds under the name of the
rule. The states the invocations return to are the `Stack.context`, which is all
that a prediction knows of the callers.
-/

namespace AdaptiveLL

/-- The active invocations, the current one first. -/
structure Stack where
  frames : List Frame := []

namespace Stack

instance : Inhabited Stack := ⟨{}⟩

variable {σ : Type} (stack : Stack)

/-- The states that the active invocations return to, innermost first. -/
def context : List StateId :=
  match stack.frames with
  | [] => []
  | frame :: _ => frame.context

/-- The current invocation. -/
def top : Except Fault Frame :=
  match stack.frames with
  | [] => .error .noInvocation
  | frame :: _ => .ok frame

/-- Enters a rule. The defaults of its attributes are computed first, the locals
    before the returns. -/
def enter (rule : RuleId) (name : String) (signature : Signature σ) (follow : Option StateId)
    (start : Nat) : Effect σ Stack := do
  let locals ← Scope.ofDeclarations signature.locals
  let returns ← Scope.ofDeclarations signature.returns
  let context := follow.toList ++ stack.context
  return { frames := { rule, name, follow, start, locals, returns, context } :: stack.frames }

/-- Leaves the current invocation: its returns, and the callers. -/
def exit : Except Fault (Scope × Stack) :=
  match stack.frames with
  | [] => .error .emptyStack
  | [frame] => .ok (frame.returns, { frames := [] })
  | frame :: caller :: rest =>
    let children := Ascending.insertKey frame.name frame.returns caller.children
    .ok (frame.returns, { frames := { caller with children } :: rest })

/-- Changes the current invocation. -/
def modifyTop (f : Frame → Except Fault Frame) : Except Fault Stack :=
  match stack.frames with
  | [] => .error .noInvocation
  | frame :: rest => (f frame).map fun frame => { frames := frame :: rest }

/-- What a predicate comes to in the current invocation, whose locals it may
    change. Outside every invocation it can change nothing. -/
def commit (p : Predicate σ) (input : Input) (position : Nat) : Effect (Stack × σ) Truth :=
  fun (stack, host) =>
    match stack.frames with
    | [] =>
      let (truth, host) := p.speculate none input position host
      (truth, stack, host)
    | frame :: rest =>
      let scene : Scene := { frame := some frame, input, position, speculative := false }
      let (truth, s) := p.evaluate scene { locals := frame.locals, host }
      (truth, { frames := { frame with locals := s.locals } :: rest }, s.host)

/-- Executes an action in the current invocation, given the token matched last;
    it may write to the output. -/
def perform (a : Action σ) (last : Option Token) : Effect (Stack × String × σ) Unit :=
  fun (stack, out, host) =>
    match stack.frames with
    | [] => (.error .noInvocation, stack, out, host)
    | frame :: rest =>
      let (done, s) := a.execute { children := frame.children, last }
        { locals := frame.locals, returns := frame.returns, out, host }
      (done, { frames := { frame with locals := s.locals, returns := s.returns } :: rest },
        s.out, s.host)

end Stack

end AdaptiveLL
