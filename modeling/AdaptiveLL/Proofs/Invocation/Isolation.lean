import AdaptiveLL.Proofs.Invocation.Stack

/-!
# Invocations are isolated

The frames of a stack are changed by calls (`Stack.Call`): rules are entered and left, and the
attributes of the current invocation are written, at will or by a predicate or an action. Any call
may end by a fault, and others may follow (`Stack.after`). What a call can do to the frames is said
once (`Stack.Changes`, `Call.make_changes`). So the frames below an invocation stay as they are
until it is left (`isAbove_after`), and then its caller learns its returns and nothing else
(`Stack.isIsolated`).
-/

namespace AdaptiveLL.Stack

variable {σ : Type}

/-! ## Calls -/

/-- The calls that change a stack. -/
inductive Call (σ : Type)
  | enter (rule : RuleId) (name : String) (signature : Signature σ) (follow : Option StateId)
    (start : Nat)
  | exit
  /-- The locals and the returns of the current invocation are changed. -/
  | write (f : Scope × Scope → Except Fault (Scope × Scope))
  | commit (p : Predicate σ) (input : Input) (position : Nat)
  | perform (a : Action σ) (last : Option Token)

/-- Makes a call, which acts on the stack, the output and the host. -/
def Call.make : Call σ → Effect (Stack × String × σ) Unit
  | enter rule name signature follow start => do
    let stack ← Effect.zoom (fun s => s.2.2) (fun host s => (s.1, s.2.1, host))
      ((← get).1.enter rule name signature follow start)
    modify fun s => (stack, s.2)
  | exit => do
    let (_, stack) ← Effect.ofExcept (← get).1.exit
    modify fun s => (stack, s.2)
  | write f => do
    let stack ← Effect.ofExcept ((← get).1.modifyTop fun frame =>
      (f (frame.locals, frame.returns)).map fun scopes =>
        { frame with locals := scopes.1, returns := scopes.2 })
    modify fun s => (stack, s.2)
  | commit p input position => do
    let _ ← Effect.zoom (fun s => (s.1, s.2.2)) (fun t s => (t.1, s.2.1, t.2))
      (Stack.commit p input position)
  | perform a last => Stack.perform a last

/-- What some calls come to, each made whatever the ones before it have ended by. -/
def after (calls : List (Call σ)) (s : Stack × String × σ) : Stack × String × σ :=
  calls.foldl (fun s call => (call.make s).2) s

/-- What a call can do to the frames. -/
inductive Changes : List Frame → List Frame → Prop
  | stays (frames : List Frame) : Changes frames frames
  | enters {frame : Frame} {frames : List Frame} :
    frame.context = frame.follow.toList ++ context { frames } → Changes frames (frame :: frames)
  | leaves (frame : Frame) : Changes [frame] []
  | returns (frame caller : Frame) (rest : List Frame) :
    Changes (frame :: caller :: rest) ({ caller with
      children := Ascending.insertKey frame.name frame.returns caller.children } :: rest)
  | writes (frame : Frame) (locals returns : Scope) (rest : List Frame) :
    Changes (frame :: rest) ({ frame with locals, returns } :: rest)

theorem enter_cases (stack : Stack) (rule : RuleId) (name : String) (signature : Signature σ)
    (follow : Option StateId) (start : Nat) (host : σ) :
    (∃ fault host', stack.enter rule name signature follow start host = (.error fault, host')) ∨
      ∃ locals host₁ returns host₂,
        Scope.ofDeclarations signature.locals host = (.ok locals, host₁) ∧
        Scope.ofDeclarations signature.returns host₁ = (.ok returns, host₂) ∧
        stack.enter rule name signature follow start host =
          (.ok { frames := { rule, name, follow, start, locals, returns,
                             context := follow.toList ++ stack.context } :: stack.frames },
            host₂) := by
  rw [enter, bind_apply]
  rcases hlocals : Scope.ofDeclarations signature.locals host with ⟨fault | locals, host₁⟩
  · exact .inl ⟨fault, host₁, rfl⟩
  dsimp only
  rw [bind_apply]
  rcases hreturns : Scope.ofDeclarations signature.returns host₁ with ⟨fault | returns, host₂⟩
  · exact .inl ⟨fault, host₂, rfl⟩
  · exact .inr ⟨locals, host₁, returns, host₂, rfl, hreturns, rfl⟩

theorem Call.make_changes (call : Call σ) (s : Stack × String × σ) :
    Changes s.1.frames (call.make s).2.1.frames := by
  obtain ⟨stack, out, host⟩ := s
  cases call with
  | enter rule name signature follow start =>
    rw [make, bind_apply, get_apply]
    dsimp only
    rw [bind_apply, Effect.zoom_apply]
    dsimp only
    obtain ⟨fault, host', h⟩ | ⟨_, _, _, _, _, _, h⟩ :=
      stack.enter_cases rule name signature follow start host
    · rw [h]
      exact .stays _
    · rw [h]
      exact .enters rfl
  | exit =>
    rw [make, bind_apply, get_apply]
    dsimp only
    rw [bind_apply, Effect.ofExcept_apply]
    obtain ⟨_ | ⟨frame, _ | ⟨caller, rest⟩⟩⟩ := stack
    · exact .stays _
    · exact .leaves frame
    · exact .returns frame caller rest
  | write f =>
    rw [make, bind_apply, get_apply]
    dsimp only
    rw [bind_apply, Effect.ofExcept_apply]
    obtain ⟨_ | ⟨frame, rest⟩⟩ := stack
    · exact .stays _
    · rw [modifyTop]
      dsimp only
      cases f (frame.locals, frame.returns) with
      | error fault => exact .stays _
      | ok scopes => exact .writes frame _ _ rest
  | commit p input position =>
    refine of_bind (P := fun s : Stack × String × σ => Changes stack.frames s.1.frames) ?_
      fun _ _ _ hchanges => hchanges
    obtain ⟨_ | ⟨frame, rest⟩⟩ := stack
    · exact .stays _
    · exact .writes frame _ _ rest
  | perform a last =>
    obtain ⟨_ | ⟨frame, rest⟩⟩ := stack
    · exact .stays _
    · exact .writes frame _ _ rest

/-! ## What calls keep -/

/-- The context of an invocation is made of the states that it and its callers return to. -/
def IsTraced (frames : List Frame) : Prop :=
  ∀ frame rest, frame :: rest <:+ frames → frame.context = (frame :: rest).filterMap Frame.follow

theorem IsTraced.context_eq {frames : List Frame} (h : IsTraced frames) :
    context { frames } = frames.filterMap Frame.follow := by
  cases frames with
  | nil => rfl
  | cons frame rest => exact h frame rest List.suffix_rfl

theorem isTraced_cons {frame : Frame} {frames : List Frame} : IsTraced (frame :: frames) ↔
    frame.context = (frame :: frames).filterMap Frame.follow ∧ IsTraced frames := by
  constructor
  · intro h
    exact ⟨h frame frames List.suffix_rfl, fun frame' rest hsuffix =>
      h frame' rest (hsuffix.trans (List.suffix_cons _ _))⟩
  · rintro ⟨hframe, h⟩ frame' rest hsuffix
    rcases List.suffix_cons_iff.1 hsuffix with heq | hsuffix
    · cases heq
      exact hframe
    · exact h frame' rest hsuffix

theorem IsTraced.of_eq {frame frame' : Frame} {rest : List Frame} (h : IsTraced (frame :: rest))
    (hfollow : frame'.follow = frame.follow) (hcontext : frame'.context = frame.context) :
    IsTraced (frame' :: rest) := by
  refine isTraced_cons.2 ((isTraced_cons.1 h).imp_left fun h => ?_)
  rw [hcontext, h, List.filterMap_cons, List.filterMap_cons, hfollow]

theorem Changes.isTraced {frames frames' : List Frame} (hc : Changes frames frames')
    (h : IsTraced frames) : IsTraced frames' := by
  cases hc with
  | stays => exact h
  | @enters frame _ hcontext =>
    refine isTraced_cons.2 ⟨?_, h⟩
    rw [hcontext, h.context_eq]
    cases hfollow : frame.follow with
    | none => rw [List.filterMap_cons_none hfollow]; rfl
    | some follow => rw [List.filterMap_cons_some hfollow]; rfl
  | leaves frame => exact (isTraced_cons.1 h).2
  | returns frame caller rest => exact (isTraced_cons.1 h).2.of_eq rfl rfl
  | writes frame locals returns rest => exact h.of_eq rfl rfl

theorem isTraced_after (calls : List (Call σ)) {s : Stack × String × σ} (h : IsTraced s.1.frames) :
    IsTraced (after calls s).1.frames := by
  induction calls generalizing s with
  | nil => exact h
  | cons call rest ih => exact ih ((call.make_changes s).isTraced h)

/-- An invocation of a rule is under way above some frames. -/
def IsAbove (name : String) (below frames : List Frame) : Prop :=
  ∃ above callee, frames = above ++ callee :: below ∧ callee.name = name

/-- Until an invocation is left, what is below it stays as it is. -/
theorem Changes.isAbove {name : String} {below frames frames' : List Frame}
    (hc : Changes frames frames') (h : IsAbove name below frames)
    (hlength : below.length < frames'.length) : IsAbove name below frames' := by
  obtain ⟨above, callee, hframes, hname⟩ := h
  cases hc with
  | stays => exact ⟨above, callee, hframes, hname⟩
  | @enters frame _ _ => exact ⟨frame :: above, callee, congrArg (frame :: ·) hframes, hname⟩
  | leaves frame => exact absurd hlength (Nat.not_lt_zero _)
  | returns frame caller rest =>
    rcases above with _ | ⟨top, _ | ⟨top', above⟩⟩
    · obtain ⟨rfl, rfl⟩ := List.cons.inj hframes
      exact absurd hlength (Nat.lt_irrefl _)
    · obtain ⟨rfl, hrest⟩ := List.cons.inj hframes
      obtain ⟨rfl, rfl⟩ := List.cons.inj hrest
      exact ⟨[], _, rfl, hname⟩
    · obtain ⟨rfl, hrest⟩ := List.cons.inj hframes
      obtain ⟨rfl, rfl⟩ := List.cons.inj hrest
      exact ⟨_ :: above, callee, rfl, hname⟩
  | writes frame locals returns rest =>
    rcases above with _ | ⟨top, above⟩
    · obtain ⟨rfl, rfl⟩ := List.cons.inj hframes
      exact ⟨[], _, rfl, hname⟩
    · obtain ⟨rfl, rfl⟩ := List.cons.inj hframes
      exact ⟨_ :: above, callee, rfl, hname⟩

theorem isAbove_after {name : String} {below : List Frame} (calls : List (Call σ))
    {s : Stack × String × σ} (h : IsAbove name below s.1.frames)
    (hlength : ∀ part, part <+: calls → below.length < (after part s).1.frames.length) :
    IsAbove name below (after calls s).1.frames := by
  induction calls generalizing s with
  | nil => exact h
  | cons call rest ih =>
    refine ih ((call.make_changes s).isAbove h (hlength [call] ?_)) fun part hpart => ?_
    · exact List.cons_prefix_cons.2 ⟨rfl, List.nil_prefix⟩
    · exact hlength (call :: part) (List.cons_prefix_cons.2 ⟨rfl, hpart⟩)

/-! ## Isolation -/

/-- What a rule that has returned leaves behind: its caller, if there is one, has its returns
    under its name. -/
inductive Receives (name : String) (returns : Scope) : List Frame → List Frame → Prop
  | nobody : Receives name returns [] []
  | caller {caller caller' : Frame} {rest : List Frame} :
    { caller' with children := caller.children } = caller →
      caller'.children.lookup name = some returns →
      (∀ other, other ≠ name → caller'.children.lookup other = caller.children.lookup other) →
      Receives name returns (caller :: rest) (caller' :: rest)

/-- To leave an invocation is possible, and its caller learns its returns. -/
theorem make_exit {s : Stack × String × σ} {callee : Frame} {below : List Frame}
    (h : s.1.frames = callee :: below) :
    ∃ stack, Call.exit.make s = (.ok (), stack, s.2) ∧
      Receives callee.name callee.returns below stack.frames := by
  obtain ⟨⟨frames⟩, out, host⟩ := s
  obtain rfl := h
  rcases below with _ | ⟨caller, rest⟩
  · exact ⟨_, rfl, .nobody⟩
  · exact ⟨_, rfl, .caller rfl (Ascending.lookup_insertKey_self _ _ _)
      fun other hne => Ascending.lookup_insertKey_of_ne hne _ _⟩

/-- What a rule that is entered starts with. -/
structure IsFresh (signature : Signature σ) (s s' : Stack × String × σ) (frame : Frame) : Prop where
  frames : s'.1.frames = frame :: s.1.frames
  attributes : ∃ host, Scope.ofDeclarations signature.locals s.2.2 = (.ok frame.locals, host) ∧
    Scope.ofDeclarations signature.returns host = (.ok frame.returns, s'.2.2)
  children : frame.children = []

theorem make_enter_cases (rule : RuleId) (name : String) (signature : Signature σ)
    (follow : Option StateId) (start : Nat) (s : Stack × String × σ) :
    (∃ fault host, (Call.enter rule name signature follow start).make s =
        (.error fault, s.1, s.2.1, host)) ∨
      ∃ s' frame, (Call.enter rule name signature follow start).make s = (.ok (), s') ∧
        IsFresh signature s s' frame ∧ frame.rule = rule ∧ frame.name = name ∧
          frame.follow = follow ∧ frame.start = start := by
  obtain ⟨stack, out, host⟩ := s
  rw [Call.make, bind_apply, get_apply]
  dsimp only
  rw [bind_apply, Effect.zoom_apply]
  dsimp only
  obtain ⟨fault, host', h⟩ | ⟨locals, host₁, returns, host₂, hlocals, hreturns, h⟩ :=
    stack.enter_cases rule name signature follow start host
  · rw [h]
    exact .inl ⟨fault, host', rfl⟩
  · rw [h]
    exact .inr ⟨_, _, rfl, ⟨rfl, ⟨host₁, hlocals, hreturns⟩, rfl⟩, rfl, rfl, rfl, rfl⟩

theorem make_enter_eq_ok {rule : RuleId} {name : String} {signature : Signature σ}
    {follow : Option StateId} {start : Nat} {s s' : Stack × String × σ}
    (h : (Call.enter rule name signature follow start).make s = (.ok (), s')) :
    ∃ frame, IsFresh signature s s' frame ∧ frame.rule = rule ∧ frame.name = name ∧
      frame.follow = follow ∧ frame.start = start := by
  obtain ⟨fault, _, hfault⟩ | ⟨_, frame, hmake, hframe⟩ :=
    make_enter_cases rule name signature follow start s
  · rw [hfault] at h
    cases h
  · rw [hmake] at h
    cases h
    exact ⟨frame, hframe⟩

/-- The invocations of rules are isolated from each other. -/
structure IsIsolated (s : Stack × String × σ) : Prop where
  /-- Predictions know of the callers the states that they return to, the innermost first. -/
  context : s.1.context = s.1.frames.filterMap Frame.follow
  /-- A rule that is entered has attributes of its own, whose defaults are computed anew. -/
  enter : ∀ (rule : RuleId) (name : String) (signature : Signature σ) (follow : Option StateId)
    (start : Nat) (s' : Stack × String × σ),
    (Call.enter rule name signature follow start).make s = (.ok (), s') →
      ∃ frame, IsFresh signature s s' frame ∧ frame.rule = rule ∧ frame.name = name ∧
        frame.follow = follow ∧ frame.start = start
  /-- From the entry to the exit of a rule, nothing changes below it but that the caller learns
      what the rule returns. -/
  call : ∀ (rule : RuleId) (name : String) (signature : Signature σ) (follow : Option StateId)
    (start : Nat) (s' : Stack × String × σ) (calls : List (Call σ)),
    (Call.enter rule name signature follow start).make s = (.ok (), s') →
      (∀ part, part <+: calls → s.1.frames.length < (after part s').1.frames.length) →
      (after calls s').1.frames.length = s.1.frames.length + 1 →
        ∃ callee stack, (after calls s').1.frames = callee :: s.1.frames ∧ callee.name = name ∧
          Call.exit.make (after calls s') = (.ok (), stack, (after calls s').2) ∧
          Receives name callee.returns s.1.frames stack.frames
  /-- A rule that cannot be entered leaves the stack as it is. -/
  enter_fault : ∀ (rule : RuleId) (name : String) (signature : Signature σ)
    (follow : Option StateId) (start : Nat) (s' : Stack × String × σ) (fault : Fault),
    (Call.enter rule name signature follow start).make s = (.error fault, s') → s'.1 = s.1
  /-- There is nothing to leave on the empty stack. -/
  exit_fault : s.1.frames = [] → Call.exit.make s = (.error .emptyStack, s)

/-- Whatever has been called, the invocations of rules are isolated from each other. -/
theorem isIsolated (calls : List (Call σ)) (out : String) (host : σ) :
    IsIsolated (after calls ({}, out, host)) := by
  have htraced : IsTraced (after calls (({}, out, host) : Stack × String × σ)).1.frames :=
    isTraced_after calls fun frame rest hsuffix => by cases List.suffix_nil.1 hsuffix
  generalize after calls ({}, out, host) = s at htraced
  constructor
  case context => exact htraced.context_eq
  case enter =>
    intro rule name signature follow start s' h
    exact make_enter_eq_ok h
  case call =>
    intro rule name signature follow start s' calls h habove hlength
    obtain ⟨frame, hfresh, _, hname, _⟩ := make_enter_eq_ok h
    obtain ⟨above, callee, hframes, rfl⟩ :=
      isAbove_after calls ⟨[], frame, hfresh.frames, hname⟩ habove
    -- The invocation is the current one again when it is left.
    have habove' : above = [] := by
      rw [hframes, List.length_append, List.length_cons] at hlength
      exact List.eq_nil_of_length_eq_zero (by omega)
    rw [habove'] at hframes
    obtain ⟨stack, hexit, hreceives⟩ := make_exit hframes
    exact ⟨callee, stack, hframes, rfl, hexit, hreceives⟩
  case enter_fault =>
    intro rule name signature follow start s' fault h
    obtain ⟨fault, _, hfault⟩ | ⟨_, frame, hmake, hframe⟩ :=
      make_enter_cases rule name signature follow start s
    · rw [hfault] at h
      cases h
      rfl
    · rw [hmake] at h
      cases h
  case exit_fault =>
    intro h
    obtain ⟨⟨frames⟩, out, host⟩ := s
    obtain rfl := h
    rfl

/-- A rule with a list, which is empty in each invocation, and a count to return. -/
def counting : Signature Unit :=
  { locals := [{ name := "values", default := some (pure (.list [])) }]
    returns := [{ name := "count" }] }

/-- An inner invocation that fills its list leaves that of the outer one empty. -/
example : (after [.enter 0 "r" counting none 0, .enter 0 "r" counting (some 5) 1,
      .write fun scopes =>
        return (← scopes.1.push "values" (.int 7), scopes.2.set "count" (.int 1)),
      .exit] ({}, "", ())).1.frames.map (fun frame => (frame.locals, frame.children)) =
    [({ entries := [("values", .list [])] }, [("r", { entries := [("count", .int 1)] })])] := by
  rfl

end AdaptiveLL.Stack
