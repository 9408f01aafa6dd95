import AdaptiveLL.Grammar.Basic
import AdaptiveLL.Proofs.Effect

/-!
# Stacks and contexts

The invocations of a parse are *linked* to a context if each of them but the
outermost one returns to a state of it, in order (`Linked`). Entering a rule puts
the state it returns to on top (`Grammar.enter_linked`), leaving it takes the state
away (`Linked.exit`), and an action leaves all of them alone (`Linked.perform`).
-/

namespace AdaptiveLL

variable {σ : Type}

/-- Invocations that return to the states of a context, the outermost one to none. -/
inductive Linked : List Frame → List StateId → Prop
  | outermost {frame : Frame} : frame.context = [] → Linked [frame] []
  | call {frame : Frame} {frames : List Frame} {follow : StateId} {context : List StateId} :
    frame.follow = some follow → frame.context = follow :: context → Linked frames context →
      Linked (frame :: frames) (follow :: context)

namespace Linked

variable {stack : Stack} {frame frame' : Frame} {frames : List Frame} {context : List StateId}
  {follow : StateId}

/-- The context of linked invocations is what predictions know of them. -/
theorem context_eq (h : Linked stack.frames context) : stack.context = context := by
  obtain ⟨frames⟩ := stack
  cases h with
  | outermost hc => exact hc
  | call _ hc _ => exact hc

/-- A change of the attributes of the current invocation leaves the links alone. -/
theorem of_eq (h : Linked (frame :: frames) context) (hf : frame'.follow = frame.follow)
    (hc : frame'.context = frame.context) : Linked (frame' :: frames) context := by
  cases h with
  | outermost h => exact .outermost (hc.trans h)
  | call hfollow hcontext hrest => exact .call (hf.trans hfollow) (hc.trans hcontext) hrest

/-- Leaving the outermost invocation leaves none. -/
theorem exit_outermost (h : Linked stack.frames []) :
    ∃ frame, stack.top = .ok frame ∧ stack.exit = .ok (frame.returns, { frames := [] }) := by
  obtain ⟨frames⟩ := stack
  cases h with
  | @outermost frame _ => exact ⟨frame, rfl, rfl⟩

/-- Leaving an invocation leads to the state on top of the context. -/
theorem exit (h : Linked stack.frames (follow :: context)) :
    ∃ frame stack', stack.top = .ok frame ∧ frame.follow = some follow ∧
      stack.exit = .ok (frame.returns, stack') ∧ Linked stack'.frames context ∧
        stack'.frames ≠ [] := by
  obtain ⟨frames⟩ := stack
  cases h with
  | @call frame frames _ _ hf _ hrest =>
    cases frames with
    | nil => cases hrest
    | cons caller rest =>
      exact ⟨frame, _, rfl, hf, rfl, hrest.of_eq rfl rfl, List.cons_ne_nil _ _⟩

/-- An action that comes to a result leaves the links alone. -/
theorem perform (h : Linked stack.frames context) {a : Action σ}
    (ha : ∀ scene, (a.execute scene).Succeeds) (last : Option Token) (out : String) (host : σ) :
    ∃ stack' out' host', Stack.perform a last (stack, out, host) = (.ok (), stack', out', host') ∧
      Linked stack'.frames context := by
  obtain ⟨frames⟩ := stack
  cases frames with
  | nil => cases h
  | cons frame rest =>
    obtain ⟨_, s, hs⟩ := ha { children := frame.children, last }
      { locals := frame.locals, returns := frame.returns, out, host }
    refine ⟨{ frames := { frame with locals := s.locals, returns := s.returns } :: rest }, s.out,
      s.host, ?_, h.of_eq rfl rfl⟩
    rw [Stack.perform]
    dsimp only
    rw [hs]

/-- Whatever an action has done, it has left the links alone. -/
theorem of_perform (h : Linked stack.frames context) {a : Action σ} {last : Option Token}
    {out out' : String} {host host' : σ} {stack' : Stack}
    (hp : Stack.perform a last (stack, out, host) = (.ok ⟨⟩, stack', out', host')) :
    Linked stack'.frames context := by
  obtain ⟨frames⟩ := stack
  cases frames with
  | nil => cases h
  | cons frame rest =>
    rw [Stack.perform] at hp
    dsimp only at hp
    rcases he : a.execute { children := frame.children, last }
      { locals := frame.locals, returns := frame.returns, out, host } with ⟨r, s⟩
    rw [he] at hp
    cases hp
    exact h.of_eq rfl rfl

end Linked

namespace Grammar

variable (g : Grammar σ)

/-- No action gives up. -/
def ActionsSucceed : Prop :=
  ∀ index a, g.action index = .ok a → ∀ scene, (a.execute scene).Succeeds

/-- No default of an attribute gives up. -/
def DefaultsSucceed : Prop :=
  ∀ id, ∀ d ∈ (g.signature id).locals ++ (g.signature id).returns, d.value.Succeeds

variable {g}

theorem defaultsSucceed_of_all {g : Grammar σ} (h : g.signatures.toList.all (fun s =>
    s.locals.isEmpty && s.returns.isEmpty) = true) : g.DefaultsSucceed := by
  intro id d hd
  have hempty : (g.signature id).locals = [] ∧ (g.signature id).returns = [] := by
    rw [signature]
    cases hs : numbered? g.signatures id with
    | none => exact ⟨rfl, rfl⟩
    | some s =>
      have hmem : s ∈ g.signatures.toList := by
        rw [numbered?] at hs
        split at hs
        · cases hs
        · exact Array.mem_toList_iff.2 (Array.mem_of_getElem? hs)
      simpa using List.all_eq_true.1 h s hmem
  rw [hempty.1, hempty.2] at hd
  cases hd

theorem declare_succeeds {declarations : List (Declaration σ)}
    (h : ∀ d ∈ declarations, d.value.Succeeds) (s : Scope) :
    (Scope.declare declarations s).Succeeds := by
  induction declarations generalizing s with
  | nil => exact .pure s
  | cons d rest ih =>
    obtain ⟨hd, hrest⟩ := List.forall_mem_cons.1 h
    exact hd.bind fun v => ih hrest _

/-- Entering a rule puts an invocation on the stack. -/
theorem enter_eq (hdefaults : g.DefaultsSucceed) (stack : Stack) {id : RuleId} {rule : Rule}
    (hrule : g.rule id = .ok rule) (follow : Option StateId) (start : Nat) (host : σ) :
    ∃ frame host', g.enter stack id follow start host =
        (.ok { frames := frame :: stack.frames }, host') ∧
      frame.follow = follow ∧ frame.context = follow.toList ++ stack.context := by
  have hlocals : (Scope.ofDeclarations (g.signature id).locals).Succeeds :=
    declare_succeeds (fun d hd => hdefaults id d (List.mem_append_left _ hd)) {}
  have hreturns : (Scope.ofDeclarations (g.signature id).returns).Succeeds :=
    declare_succeeds (fun d hd => hdefaults id d (List.mem_append_right _ hd)) {}
  obtain ⟨locals, host₁, h₁⟩ := hlocals host
  obtain ⟨returns, host₂, h₂⟩ := hreturns host₁
  refine ⟨{ rule := id, name := rule.name, follow, start, locals, returns,
            context := follow.toList ++ stack.context }, host₂, ?_, rfl, rfl⟩
  rw [enter, show g.rule id = .ok rule from hrule, Effect.ofExcept_ok_bind, Stack.enter, bind_apply,
    h₁]
  dsimp only
  rw [bind_apply, h₂]
  rfl

/-- The invocation that a parse starts with returns to no state. -/
theorem enter_start (hdefaults : g.DefaultsSucceed) {id : RuleId} {rule : Rule}
    (hrule : g.rule id = .ok rule) (start : Nat) (host : σ) :
    ∃ stack' host', g.enter {} id none start host = (.ok stack', host') ∧
      Linked stack'.frames [] := by
  obtain ⟨frame, host', h, _, hcontext⟩ := enter_eq hdefaults {} hrule none start host
  exact ⟨_, host', h, .outermost hcontext⟩

/-- Entering a rule puts the state it returns to on top of the context. -/
theorem enter_linked (hdefaults : g.DefaultsSucceed) {stack : Stack} {context : List StateId}
    (hstack : Linked stack.frames context) {id : RuleId} {rule : Rule}
    (hrule : g.rule id = .ok rule) (follow : StateId) (start : Nat) (host : σ) :
    ∃ stack' host', g.enter stack id (some follow) start host = (.ok stack', host') ∧
      Linked stack'.frames (follow :: context) := by
  obtain ⟨frame, host', h, hfollow, hcontext⟩ :=
    enter_eq hdefaults stack hrule (some follow) start host
  rw [hstack.context_eq] at hcontext
  exact ⟨_, host', h, .call hfollow hcontext hstack⟩

variable {stack stack' : Stack} {id : RuleId} {follow : Option StateId} {start : Nat}
  {host host' : σ}

/-- What entering a rule has done: an invocation is on the stack. -/
theorem enter_eq_ok (h : g.enter stack id follow start host = (.ok stack', host')) :
    ∃ rule locals host₁ returns, g.rule id = .ok rule ∧
      Scope.ofDeclarations (g.signature id).locals host = (.ok locals, host₁) ∧
      Scope.ofDeclarations (g.signature id).returns host₁ = (.ok returns, host') ∧
      stack' = { frames := { rule := id, name := rule.name, follow, start, locals, returns,
                             context := follow.toList ++ stack.context } :: stack.frames } := by
  obtain ⟨rule, hrule, h⟩ := Effect.exists_of_ofExcept_bind h
  obtain ⟨locals, host₁, hlocals, h⟩ := exists_of_bind_apply h
  obtain ⟨returns, host₂, hreturns, h⟩ := exists_of_bind_apply h
  cases h
  exact ⟨rule, locals, host₁, returns, hrule, hlocals, hreturns, rfl⟩

end Grammar

end AdaptiveLL
