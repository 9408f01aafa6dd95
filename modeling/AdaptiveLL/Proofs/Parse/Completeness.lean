import AdaptiveLL.Parse
import AdaptiveLL.Proofs.Invocation.Stack
import AdaptiveLL.Proofs.Prediction.Exactness

/-!
# No valid input is rejected

A parse stands at a point of the network, with its invocations linked to the
context and with some input ahead (`Machine.StandsAt`). If the point accepts what is
ahead, the parse makes a step to a point that still does, or has come to its end
(`Machine.step_progresses`): where there is one way on it is the one that accepts, and
where the grammar decides a prediction is exact.

As there is no free cycle, the parse comes to its end (`Machine.run_finishes`).
So it accepts every input that is spelled by a run from the start of a rule to
its stop, whether it uses a cache or not.
-/

namespace AdaptiveLL

variable {σ : Type}

/-- A grammar in which only the input decides: predictions look beyond their rules,
    no predicate is evaluated, the end of the input is not matched, and actions
    and defaults come to results. -/
structure Grammar.IsPlain (g : Grammar σ) : Prop where
  closed : g.toNetwork.IsClosed
  noPredicate : g.toNetwork.HasNoPredicate
  greedy : ∀ id s, g.state id = .ok s → s.decision.isSome = true → g.toNetwork.IsGreedyAt id
  notEnd : ∀ id t, g.toNetwork.HasTransition id t → t.label.accepts Token.endOfInput = false
  actions : g.ActionsSucceed
  defaults : g.DefaultsSucceed

namespace Machine

/-- A parse stands at a point with some input ahead, and nothing has gone wrong. -/
structure StandsAt (g : Grammar σ) (p : Point) (input : Input) (m : Machine σ) : Prop where
  state : m.state = p.state
  linked : Linked m.stack.frames p.context
  input : m.input = input
  cache : m.cache.IsReachable g fun _ _ => True
  report : m.report.hasErrors = false

variable {g : Grammar σ} {fuel : Nat} {options : ParseOptions} {vocabulary : Vocabulary} {p : Point}
  {input : Input} {m : Machine σ}

/-! ## Following a transition -/

/-- A free transition is followed to the point behind it. -/
theorem take_free (hg : g.IsSound) (hplain : g.IsPlain) (h : m.StandsAt g p input) {t : Transition}
    (ht : g.toNetwork.HasTransition p.state t) (hfree : t.label.isFree = true) (rule : RuleId) :
    ∃ m', take g vocabulary rule t m = (.ok .running, m') ∧
      m'.StandsAt g (Network.behind t p.context) input := by
  obtain ⟨s, hs, _, hmem⟩ := id ht
  have hlabel := hg.label p.state s hs t hmem
  obtain ⟨target, label⟩ := t
  rw [take, bind_apply, get_apply]
  cases label with
  | epsilon =>
    exact ⟨{ m with state := target }, rfl, rfl, h.linked, h.input, h.cache, h.report⟩
  | predicate index => exact absurd rfl (hplain.noPredicate _ _ ht index)
  | action index =>
    obtain ⟨a, ha⟩ := hlabel
    obtain ⟨stack, out, host, hperform, hlinked⟩ :=
      h.linked.perform (hplain.actions index a ha) m.last m.out m.host
    refine ⟨{ m with stack, out, host, state := target }, ?_, rfl, hlinked, h.input, h.cache,
      h.report⟩
    dsimp only
    rw [ha, Effect.ofExcept_ok_bind, bind_apply, Effect.zoom_apply, hperform]
    rfl
  | call callee follow =>
    -- The frame of the call is linked to the state behind it.
    obtain ⟨r, hr⟩ := hlabel
    obtain ⟨stack, host, henter, hlinked⟩ :=
      Grammar.enter_linked hplain.defaults h.linked hr follow m.input.position m.host
    refine ⟨{ m with stack, host, state := target }, ?_, rfl, hlinked, h.input, h.cache, h.report⟩
    dsimp only
    rw [bind_apply, Effect.zoom_apply, henter]
    rfl
  | _ => cases hfree

/-- A token that is matched is consumed. -/
theorem take_token (h : m.StandsAt g p input) {t : Transition}
    (ha : t.label.accepts input.current.type = true) (rule : RuleId) :
    ∃ m', take g vocabulary rule t m = (.ok .running, m') ∧
      m'.StandsAt g ⟨t.target, p.context⟩ input.consume := by
  obtain ⟨target, label⟩ := t
  obtain rfl := h.input
  refine ⟨{ m with last := some m.input.current, input := m.input.consume, state := target }, ?_,
    rfl, h.linked, rfl, h.cache, h.report⟩
  rw [take, bind_apply, get_apply]
  cases label with
  | epsilon => cases ha
  | predicate => cases ha
  | action => cases ha
  | call => cases ha
  | _ =>
    dsimp only at ha ⊢
    rw [if_pos ha]
    rfl

/-! ## Leaving an invocation -/

/-- Leaving the outermost invocation ends the parse. -/
theorem leave_outermost (h : m.StandsAt g p input) (hp : p.context = []) :
    ∃ returns m', leave m = (.ok (.returned returns), m') ∧ m'.report.hasErrors = false := by
  have hlinked := h.linked
  rw [hp] at hlinked
  obtain ⟨frame, htop, hexit⟩ := hlinked.exit_outermost
  refine ⟨frame.returns, { m with stack := { frames := [] } }, ?_, h.report⟩
  rw [leave, bind_apply, get_apply]
  dsimp only
  rw [htop, Effect.ofExcept_ok_bind, hexit, Effect.ofExcept_ok_bind]
  rfl

/-- Leaving another one leads to the state it returns to. -/
theorem leave_call (h : m.StandsAt g p input) {follow : StateId} {rest : List StateId}
    (hp : p.context = follow :: rest) :
    ∃ m', leave m = (.ok .running, m') ∧ m'.StandsAt g ⟨follow, rest⟩ input := by
  have hlinked := h.linked
  rw [hp] at hlinked
  obtain ⟨frame, stack, htop, hfollow, hexit, hrest, hne⟩ := hlinked.exit
  refine ⟨{ m with stack, state := follow }, ?_, rfl, hrest, h.input, h.cache, h.report⟩
  rw [leave, bind_apply, get_apply]
  dsimp only
  rw [htop, Effect.ofExcept_ok_bind, hexit, Effect.ofExcept_ok_bind, hfollow, Option.getD_some]
  have hempty : stack.frames.isEmpty = false := by simpa using hne
  rw [bind_apply, set_apply]
  dsimp only
  rw [hempty, if_neg Bool.false_ne_true]
  rfl

/-! ## Deciding -/

/-- A prediction that takes an alternative is no error. -/
theorem addPrediction_of_alt {r : Report} {prediction : Prediction} {rule : Rule}
    (hrule : g.rule prediction.rule = .ok rule) {alt : Int}
    (halt : prediction.outcome.alt? = some alt) (input : Input) :
    ∃ d r', r.addPrediction g prediction input = .ok (d, r') ∧ r'.hasErrors = r.hasErrors := by
  obtain ⟨d, hd, herror⟩ : ∃ d, Diagnostic.ofPrediction? g r.ambiguities prediction input = .ok d ∧
      ∀ d' ∈ d, d'.isError = false := by
    rw [Diagnostic.ofPrediction?, show g.rule prediction.rule = .ok rule from hrule,
      Except.ok_bind_eq]
    cases ho : prediction.outcome with
    | predicted => exact ⟨none, rfl, nofun⟩
    | ambiguous a alts =>
      dsimp only
      cases r.ambiguities with
      | true =>
        refine ⟨_, rfl, fun d' hd' => ?_⟩
        cases hd'
        rfl
      | false => exact ⟨none, rfl, nofun⟩
    | _ =>
      rw [ho] at halt
      cases halt
  rw [Report.addPrediction, hd, Except.ok_bind_eq]
  cases d with
  | none => exact ⟨_, _, rfl, rfl⟩
  | some d =>
    refine ⟨_, _, rfl, ?_⟩
    rw [Report.hasErrors, Report.add, List.any_append, List.any_cons, herror d rfl]
    simp [Report.hasErrors]

/-! ## One step -/

/-- Where a parse comes to by one step, and what is ahead then. -/
inductive Advances (net : Network) (p : Point) (input : Input) : Point → Input → Prop
  | free {q : Point} : net.FreeStep p q → Advances net p input q input
  | token {t : Transition} : net.HasTransition p.state t →
    t.label.accepts input.current.type = true →
      Advances net p input ⟨t.target, p.context⟩ input.consume

theorem Advances.cases {net : Network} {q : Point} {input' : Input}
    (h : Advances net p input q input') : (net.FreeStep p q ∧ input' = input) ∨
      ∃ t, net.HasTransition p.state t ∧ t.label.accepts input.current.type = true ∧
        q = ⟨t.target, p.context⟩ ∧ input' = input.consume := by
  cases h with
  | free hs => exact .inl ⟨hs, rfl⟩
  | token ht ha => exact .inr ⟨_, ht, ha, rfl, rfl⟩

theorem step_of_stop {s : State} (hs : g.state m.state = .ok s) (hk : s.kind = .ruleStop) :
    step g fuel options vocabulary m = leave m := by
  rw [step, bind_apply, get_apply]
  dsimp only
  rw [hs, Effect.ofExcept_ok_bind, if_pos hk]

theorem step_of_single {s : State} {t : Transition} (hs : g.state m.state = .ok s)
    (hk : s.kind ≠ .ruleStop) (hd : s.decision.isSome = false) (ht : s.transitions = [t]) :
    step g fuel options vocabulary m = take g vocabulary s.rule t m := by
  rw [step, bind_apply, get_apply]
  dsimp only
  rw [hs, Effect.ofExcept_ok_bind, if_neg hk, hd, if_neg Bool.false_ne_true, ht]
  rfl

theorem step_of_decision {s : State} {i : Nat} {t : Transition} {m' : Machine σ}
    (hs : g.state m.state = .ok s) (hk : s.kind ≠ .ruleStop) (hd : s.decision.isSome = true)
    (hi : decide g fuel options m = (.ok (some i), m')) (ht : s.transitions[i]? = some t) :
    step g fuel options vocabulary m = take g vocabulary s.rule t m' := by
  rw [step, bind_apply, get_apply]
  dsimp only
  rw [hs, Effect.ofExcept_ok_bind, if_neg hk, hd, if_pos rfl, bind_apply, hi]
  dsimp only
  rw [ht]

section

variable (hg : g.IsBuilt) (hcycle : ¬g.toNetwork.HasFreeCycle) (hplain : g.IsPlain)
  (hstops : ∀ lookahead, options.stops lookahead = false)

include hg hcycle hplain hstops

/-- Where one of the alternatives accepts what is ahead, such a one is predicted. -/
theorem predicts_accepting {s : State} (hs : g.state p.state = .ok s)
    (hd : s.decision.isSome = true) (hin : g.toNetwork.IsIn p) (hended : input.IsEnded)
    {alt : Int} (hacc : AltAccepts g.toNetwork s p.context (Token.word input.ahead) alt) :
    ∃ n, ∀ fuel ≥ n, ∀ m : Machine σ, m.StandsAt g p input →
      ∃ prediction taken, (g.predictAt fuel options.toPredictOptions p.state m.input m.stack
          (m.cache, m.host)).1 = .ok prediction ∧ prediction.rule = s.rule ∧
        prediction.outcome.alt? = some taken ∧
        AltAccepts g.toNetwork s p.context (Token.word input.ahead) taken := by
  have hsound := hg.isSound
  obtain ⟨number, hn⟩ := Option.isSome_iff_exists.1 hd
  -- How much fuel is enough does not depend on the current invocation.
  obtain ⟨model, hmodel, hdecision⟩ := Grammar.exists_setting hsound hs hn input {}
  obtain ⟨hgrammar, _, _, hexit, _, hinput⟩ := Grammar.setting_eq_ok hmodel
  obtain ⟨n, hfuel⟩ := { model with outer := p.context }.exists_hasFuel
    (show ¬model.grammar.toNetwork.IsLeftRecursive from
      hgrammar ▸ Network.not_isLeftRecursive hcycle)
  refine ⟨n, fun fuel hf m hm => ?_⟩
  obtain ⟨setting, hset, rfl⟩ := Grammar.exists_setting hsound hs hn m.input m.stack
  obtain ⟨rfl, _, hnumber, hexit', houter, hinput'⟩ := Grammar.setting_eq_ok hset
  rw [hdecision] at hexit
  have hx : setting.exit.active = false := hplain.greedy _ _ hs hd _ _ hs hexit'
  have hcontext : m.stack.context = p.context := hm.linked.context_eq
  have hfuel' : setting.HasFuel fuel := (hfuel fuel hf).of_eq hgrammar.symm
    (Except.ok.inj (hexit'.symm.trans hexit)) hdecision.symm (houter.trans hcontext)
    ((hinput'.trans hm.input).trans hinput.symm)
  obtain ⟨a, ha, hauto⟩ := (hm.cache.isSound hsound).exists_automaton hsound hs hnumber hexit'
    (separates_of_inactive hx) options.toPredictOptions
  have hguard (f : Frontier) (h : startFrontier setting.grammar.toNetwork setting.exit fuel
      setting.decision setting.outer = .ok f) : f.guarded = false :=
    guarded_startFrontier hplain.noPredicate h
  have ho : setting.outer ∈ contextsAt (fun _ _ => True) p.state := ⟨m.stack, trivial, houter.symm⟩
  obtain ⟨prediction, hp⟩ : ∃ prediction, (setting.grammar.predictAt fuel options.toPredictOptions
      p.state m.input m.stack (m.cache, m.host)).1 = .ok prediction :=
    Grammar.exists_predictAt hset ha hauto ho hfuel' hx hstops hguard hplain.closed
      (hcontext ▸ hin.2) (hm.input ▸ hended)
  -- The prediction has an outcome, and one that is exact takes an alternative that accepts.
  have hexact := Grammar.predictAt_isExact hset ha hauto ho hfuel' hx hstops hguard hsound
    (endsWithInput_of_not_accepts hplain.notEnd) hp
  rw [hcontext, hm.input] at hexact
  obtain ⟨taken, halt, htaken⟩ := hexact.exists_alt hacc
  exact ⟨prediction, taken, hp, Grammar.rule_of_predictAt hset ha hp, halt, htaken⟩

/-- Where one of the alternatives accepts what is ahead, such a one is taken. -/
theorem decide_accepts {s : State} (hs : g.state p.state = .ok s) (hd : s.decision.isSome = true)
    (hin : g.toNetwork.IsIn p) (hended : input.IsEnded)
    {alt : Int} (hacc : AltAccepts g.toNetwork s p.context (Token.word input.ahead) alt) :
    ∃ n, ∀ fuel ≥ n, ∀ m : Machine σ, m.StandsAt g p input →
      ∃ i t m', decide g fuel options m = (.ok (some i), m') ∧ s.transitions[i]? = some t ∧
        g.toNetwork.Accepts ⟨t.target, p.context⟩ (Token.word input.ahead) ∧
        m'.StandsAt g p input := by
  obtain ⟨n, hn⟩ := predicts_accepting hg hcycle hplain hstops hs hd hin hended hacc
  refine ⟨n, fun fuel hf m hm => ?_⟩
  obtain ⟨prediction, taken, hp, hrule, halt, i, t, ht, rfl, hacc'⟩ := hn fuel hf m hm
  obtain ⟨rule, hr⟩ := hg.isSound.rule p.state s hs
  rw [← hrule] at hr
  obtain ⟨d, report, hreport, herrors⟩ :=
    addPrediction_of_alt (r := m.report) hr halt m.input
  let after :=
    (g.predictAt fuel options.toPredictOptions p.state m.input m.stack (m.cache, m.host)).2
  have hcache : after.1.IsReachable g fun _ _ => True :=
    .predict fuel options.toPredictOptions p.state m.input m.stack m.host hm.cache trivial
  refine ⟨i, t, { m with cache := after.1, host := after.2, state := p.state, report,
                         predictions := prediction :: m.predictions },
    ?_, ht, hacc', rfl, hm.linked, hm.input, hcache, herrors.trans hm.report⟩
  rw [decide, bind_apply, get_apply]
  dsimp only
  rw [bind_apply, Effect.zoom_apply, hm.state, hp]
  dsimp only
  rw [bind_apply, modify_apply]
  dsimp only
  rw [hreport, Effect.ofExcept_ok_bind, halt]
  have hindex : (1 + (i : Int) - 1).toNat = i := by omega
  rw [Option.map_some, hindex]
  rfl

end

variable (g fuel options vocabulary p input m)

/-- By one step, a parse comes to its end or to a point that accepts what is ahead. -/
def Progresses : Prop :=
  (∃ returns m', step g fuel options vocabulary m = (.ok (.returned returns), m') ∧
    m'.report.hasErrors = false) ∨
  ∃ q input' m', step g fuel options vocabulary m = (.ok .running, m') ∧
    Advances g.toNetwork p input q input' ∧
    g.toNetwork.Accepts q (Token.word input'.ahead) ∧ m'.StandsAt g q input'

variable {g fuel options vocabulary p input m}

/-- The stop of a rule is left, or the parse has come to its end. -/
theorem progresses_of_stop (hplain : g.IsPlain) {s : State} (hs : g.state p.state = .ok s)
    (hk : s.kind = .ruleStop) (hacc : g.toNetwork.Accepts p (Token.word input.ahead))
    (hm : m.StandsAt g p input) : m.Progresses g fuel options vocabulary p input := by
  obtain ⟨id, context⟩ := p
  rw [Progresses, step_of_stop (hm.state ▸ hs) hk]
  rcases hacc.cases hplain.notEnd with ⟨_, rfl⟩ | ⟨follow, rest, _, rfl, hacc'⟩ | ⟨t, ht, _⟩ |
    ⟨t, _, _, ht, _⟩
  · exact .inl (leave_outermost hm rfl)
  · obtain ⟨m', hleave, hm'⟩ := leave_call hm rfl
    exact .inr ⟨_, _, m', hleave, .free (.exit hs hk), hacc', hm'⟩
  · exact absurd ⟨s, hs, hk⟩ ht.not_isStop
  · exact absurd ⟨s, hs, hk⟩ ht.not_isStop

/-- Where there is one way on, it is taken. -/
theorem progresses_of_single (hg : g.IsSound) (hplain : g.IsPlain) {s : State}
    (hs : g.state p.state = .ok s) (hk : s.kind ≠ .ruleStop) (hd : s.decision.isSome = false)
    (hended : input.IsEnded) (hacc : g.toNetwork.Accepts p (Token.word input.ahead))
    (hm : m.StandsAt g p input) : m.Progresses g fuel options vocabulary p input := by
  obtain ⟨id, context⟩ := p
  have hstop : ¬g.toNetwork.IsStop id := Network.not_isStop hs hk
  rcases hacc.cases hplain.notEnd with ⟨h, _⟩ | ⟨_, _, h, _⟩ | ⟨t, ht, hfree, hacc'⟩ |
    ⟨t, type, v, ht, ha, hv, hacc'⟩
  · exact absurd h hstop
  · exact absurd h hstop
  · rw [Progresses, step_of_single (hm.state ▸ hs) hk hd (hg.eq_singleton hs hd (ht.mem hs))]
    obtain ⟨m', htake, hm'⟩ := take_free hg hplain hm ht hfree s.rule
    exact .inr ⟨_, _, m', htake, .free (Network.freeStep_behind ht hfree context), hacc', hm'⟩
  · rw [Progresses, step_of_single (hm.state ▸ hs) hk hd (hg.eq_singleton hs hd (ht.mem hs))]
    obtain ⟨rfl, rfl⟩ := hended.current_of_word hv
    obtain ⟨m', htake, hm'⟩ := take_token hm ha s.rule
    exact .inr ⟨_, _, m', htake, .token ht ha, hacc', hm'⟩

section

variable (hg : g.IsBuilt) (hcycle : ¬g.toNetwork.HasFreeCycle) (hplain : g.IsPlain)
  (hstops : ∀ lookahead, options.stops lookahead = false)

include hg hcycle hplain hstops

/-- Where the grammar decides, a way is taken that accepts what is ahead. -/
theorem progresses_of_decision {s : State} (hs : g.state p.state = .ok s) (hk : s.kind ≠ .ruleStop)
    (hd : s.decision.isSome = true) (hin : g.toNetwork.IsIn p) (hended : input.IsEnded)
    (hacc : g.toNetwork.Accepts p (Token.word input.ahead)) :
    ∃ n, ∀ fuel ≥ n, ∀ m : Machine σ, m.StandsAt g p input →
      m.Progresses g fuel options vocabulary p input := by
  obtain ⟨id, context⟩ := p
  have hstop : ¬g.toNetwork.IsStop id := Network.not_isStop hs hk
  have hepsilon := hg.isSound.epsilon id s hs hd
  have hbehind {t : Transition} (ht : t ∈ s.transitions) :
      Network.behind t context = ⟨t.target, context⟩ := by
    rw [Network.behind, hepsilon t ht]
  rcases hacc.cases hplain.notEnd with ⟨h, _⟩ | ⟨_, _, h, _⟩ | ⟨t, ht, _, hacc'⟩ |
    ⟨t, _, _, ht, ha, _⟩
  · exact absurd h hstop
  · exact absurd h hstop
  · rw [hbehind (ht.mem hs)] at hacc'
    obtain ⟨i, hi⟩ := List.getElem?_of_mem (ht.mem hs)
    obtain ⟨n, hn⟩ := decide_accepts hg hcycle hplain hstops hs hd hin hended ⟨i, t, hi, rfl, hacc'⟩
    refine ⟨n, fun fuel hf m hm => ?_⟩
    obtain ⟨j, t', m', hdecide, hj, haccj, hm'⟩ := hn fuel hf m hm
    have hmem : t' ∈ s.transitions := List.mem_of_getElem? hj
    have ht' : g.toNetwork.HasTransition id t' := ⟨s, hs, hk, hmem⟩
    have hfree : t'.label.isFree = true := by
      rw [hepsilon t' hmem]
      rfl
    rw [Progresses, step_of_decision (hm.state ▸ hs) hk hd hdecide hj]
    obtain ⟨m'', htake, hm''⟩ := take_free hg.isSound hplain hm' ht' hfree s.rule
    refine .inr ⟨_, _, m'', htake, .free (Network.freeStep_behind ht' hfree context), ?_, hm''⟩
    rwa [hbehind hmem]
  · rw [hepsilon t (ht.mem hs)] at ha
    cases ha

/-- A parse at a point that accepts what is ahead makes a step to one that still does,
    unless it has come to its end. -/
theorem step_progresses (hin : g.toNetwork.IsIn p) (hended : input.IsEnded)
    (hacc : g.toNetwork.Accepts p (Token.word input.ahead)) :
    ∃ n, ∀ fuel ≥ n, ∀ m : Machine σ, m.StandsAt g p input →
      m.Progresses g fuel options vocabulary p input := by
  obtain ⟨s, hs⟩ := hin.1
  by_cases hk : s.kind = .ruleStop
  · exact ⟨0, fun _ _ _ hm => progresses_of_stop hplain hs hk hacc hm⟩
  cases hd : s.decision.isSome with
  | true => exact progresses_of_decision hg hcycle hplain hstops hs hk hd hin hended hacc
  | false =>
    exact ⟨0, fun _ _ _ hm => progresses_of_single hg.isSound hplain hs hk hd hended hacc hm⟩

end

/-! ## All steps -/

theorem finite_advances (net : Network) (p : Point) (input : Input) :
    {next : Point × Input | Advances net p input next.1 next.2}.Finite := by
  have hfree : {q | net.FreeStep p q}.Finite := Network.finite_freeStep p
  let consumed (t : Transition) : Point × Input := (⟨t.target, p.context⟩, input.consume)
  refine ((hfree.image fun q => (q, input)).union
    ((Network.finite_transitions net p.state).image consumed)).subset ?_
  rintro ⟨q, input'⟩ h
  obtain ⟨hs, rfl⟩ | ⟨t, ht, _, rfl, rfl⟩ := h.cases
  · exact .inl ⟨q, hs, rfl⟩
  · exact .inr ⟨t, ht, rfl⟩

/-- What holds from some number on for each of finitely many things, holds for all of
    them from some number on. -/
theorem exists_bound {α : Type} {A : Set α} (hA : A.Finite) {P : α → Nat → Prop}
    (hmono : ∀ a n m, n ≤ m → P a n → P a m) (h : ∀ a ∈ A, ∃ n, P a n) :
    ∃ n, ∀ a ∈ A, P a n := by
  choose! bound hbound using h
  obtain ⟨n, hn⟩ := (hA.image bound).bddAbove
  exact ⟨n, fun a ha => hmono a _ n (hn ⟨a, ha, rfl⟩) (hbound a ha)⟩

variable (g options vocabulary)

/-- A parse that stands at a point comes to its end within some steps. -/
def FinishesWithin (n : Nat) (p : Point) (input : Input) : Prop :=
  ∀ fuel ≥ n, ∀ steps ≥ n, ∀ m : Machine σ, m.StandsAt g p input →
    ∃ returns m', run g fuel options vocabulary steps m = (.ok (some returns), m') ∧
      m'.report.hasErrors = false

variable {g options vocabulary}

/-- A parse comes to its end if it does so wherever it comes to by one step. -/
theorem finishesWithin_of_progresses {n : Nat}
    (hstep : ∀ fuel ≥ n, ∀ m : Machine σ, m.StandsAt g p input →
      m.Progresses g fuel options vocabulary p input)
    (hnext : ∀ q input', Advances g.toNetwork p input q input' →
      g.toNetwork.Accepts q (Token.word input'.ahead) →
        FinishesWithin g options vocabulary n q input') :
    FinishesWithin g options vocabulary (n + 1) p input := by
  intro fuel hf steps hsteps m hm
  obtain ⟨k, rfl⟩ := Nat.exists_eq_add_of_le' hsteps
  have hle : n ≤ fuel := (Nat.le_succ n).trans hf
  rw [← Nat.add_assoc, run, bind_apply]
  obtain ⟨returns, m', hs, hreport⟩ | ⟨q, input', m', hs, hadvance, hacc, hm'⟩ :=
    hstep fuel hle m hm
  · rw [hs]
    exact ⟨returns, m', rfl, hreport⟩
  · rw [hs]
    exact hnext q input' hadvance hacc fuel hle (k + n) (Nat.le_add_left n k) m' hm'

section

variable (hg : g.IsBuilt) (hcycle : ¬g.toNetwork.HasFreeCycle) (hplain : g.IsPlain)
  (hstops : ∀ lookahead, options.stops lookahead = false)

include hg hcycle hplain hstops

/-- A parse at a point that accepts what is ahead comes to its end. -/
theorem run_finishes (hin : g.toNetwork.IsIn p) (hended : input.IsEnded)
    (hacc : g.toNetwork.Accepts p (Token.word input.ahead)) :
    ∃ n, FinishesWithin g options vocabulary n p input := by
  -- Either a token is consumed, or the parse goes on along a run that consumes nothing.
  induction hk : (Token.word input.ahead).length using Nat.strong_induction_on
    generalizing p input with
  | _ k ihtoken =>
  subst hk
  induction p using (Network.wellFounded_freeStep hcycle).induction with
  | h p ihfree =>
  let P (next : Point × Input) (n : Nat) : Prop :=
    g.toNetwork.Accepts next.1 (Token.word next.2.ahead) →
      FinishesWithin g options vocabulary n next.1 next.2
  have hmono (next : Point × Input) (n m : Nat) (hnm : n ≤ m) (h : P next n) : P next m :=
    fun hacc' fuel hf steps hsteps => h hacc' fuel (hnm.trans hf) steps (hnm.trans hsteps)
  obtain ⟨n, hn⟩ := step_progresses hg hcycle hplain hstops hin hended hacc
  -- One bound is enough for all that the step may come to, as this is finitely much.
  obtain ⟨bound, hbound⟩ := exists_bound (P := P) (finite_advances g.toNetwork p input) hmono <| by
    rintro ⟨q, input'⟩ hadvance
    by_cases hacc' : g.toNetwork.Accepts q (Token.word input'.ahead)
    · obtain ⟨hs, rfl⟩ | ⟨t, ht, ha, rfl, rfl⟩ := hadvance.cases
      · obtain ⟨n, hn⟩ := ihfree q hs (hs.isIn hplain.closed hin) hacc'
        exact ⟨n, fun _ => hn⟩
      · have hcurrent : input.current.type ≠ Token.endOfInput := by
          intro he
          rw [he, hplain.notEnd _ _ ht] at ha
          cases ha
        have hlt : (Token.word input.consume.ahead).length < (Token.word input.ahead).length := by
          rw [hended.word_eq hcurrent]
          exact Nat.lt_succ_self _
        have hin' : g.toNetwork.IsIn ⟨t.target, p.context⟩ := ⟨hplain.closed.target ht, hin.2⟩
        obtain ⟨n, hn⟩ := ihtoken _ hlt hin' hended.consume hacc' rfl
        exact ⟨n, fun _ => hn⟩
    · exact ⟨0, fun h => absurd h hacc'⟩
  refine ⟨max n bound + 1, finishesWithin_of_progresses
    (fun fuel hf m hm => hn fuel ((le_max_left n bound).trans hf) m hm) fun q input' hadvance => ?_⟩
  exact hmono (q, input') bound _ (le_max_right n bound) (hbound (q, input') hadvance)

end

end Machine

namespace Grammar

variable {g : Grammar σ} {fuel : Nat} {options : ParseOptions} {vocabulary : Vocabulary}
  {start : String} {id : RuleId} {rule : Rule} {s : ParseState σ} {host : σ}

/-- A parse whose rule cannot be entered comes to the fault that this does. -/
theorem parse_of_enter_error (hstart : g.findRule? start = some id) (hrule : g.rule id = .ok rule)
    {fault : Fault} (henter : (g.enter {} id none s.input.position s.host).1 = .error fault) :
    (g.parse fuel options vocabulary start s).1 = .error fault := by
  rw [parse, hstart]
  dsimp only
  rw [hrule, Effect.ofExcept_ok_bind, bind_apply, get_apply]
  dsimp only
  rw [bind_apply, Effect.zoom_apply, henter]

/-- A parse that comes to its end succeeds if nothing has gone wrong. -/
theorem parse_of_run (hstart : g.findRule? start = some id) (hrule : g.rule id = .ok rule)
    {stack : Stack} (henter : g.enter {} id none s.input.position s.host = (.ok stack, host))
    {returns : Option Scope} {m : Machine σ}
    (hrun : Machine.run g fuel options vocabulary fuel
      { s with host, state := rule.start, stack,
               report := { ambiguities := options.reportAmbiguities } } = (.ok returns, m)) :
    (g.parse fuel options vocabulary start s).1 =
      .ok { success := returns.isSome && !m.report.hasErrors, returns := returns.getD {},
            diagnostics := m.report.diagnostics } := by
  rw [parse, hstart]
  dsimp only
  rw [hrule, Effect.ofExcept_ok_bind, bind_apply, get_apply]
  dsimp only
  rw [bind_apply, Effect.zoom_apply, henter]
  dsimp only
  rw [Effect.zoom_apply]
  dsimp only
  rw [bind_apply, hrun]
  rfl

/-- No valid input is rejected: a parse accepts what is spelled by a run from the start
    of a rule to its stop. -/
theorem parse_succeeds (hg : g.IsBuilt) (hcycle : ¬g.toNetwork.HasFreeCycle) (hplain : g.IsPlain)
    (hstart : g.findRule? start = some id) (hrule : g.rule id = .ok rule)
    {input : Input} (hended : input.IsEnded)
    (hrun : g.toNetwork.Run ⟨rule.start, []⟩ (Token.word input.ahead) ⟨rule.stop, []⟩)
    (options : ParseOptions) (hlimit : options.limit = 0) (hcancelled : options.cancelled = false)
    (vocabulary : Vocabulary) :
    ∃ steps, ∀ fuel ≥ steps, ∀ s : ParseState σ, s.input = input →
      s.cache.IsReachable g (fun _ _ => True) →
        ∃ outcome, (g.parse fuel options vocabulary start s).1 = .ok outcome ∧
          outcome.success = true := by
  obtain ⟨stop, hstop, hkind⟩ := hg.isSound.stop id rule hrule
  have hacc : g.toNetwork.Accepts ⟨rule.start, []⟩ (Token.word input.ahead) :=
    ⟨rule.stop, ⟨stop, hstop, hkind⟩, .inl hrun⟩
  have hstops (lookahead : Nat) : options.stops lookahead = false := by
    rw [PredictOptions.stops, hlimit, hcancelled]
    rfl
  obtain ⟨n, hn⟩ : ∃ n, Machine.FinishesWithin g options vocabulary n ⟨rule.start, []⟩ input :=
    Machine.run_finishes hg hcycle hplain hstops ⟨hacc.hasState, nofun⟩ hended hacc
  refine ⟨n, fun fuel hf s hinput hcache => ?_⟩
  obtain ⟨stack, host, henter, hlinked⟩ :=
    enter_start hplain.defaults hrule s.input.position s.host
  let m : Machine σ := { s with host, state := rule.start, stack,
                                report := { ambiguities := options.reportAmbiguities } }
  have hm : m.StandsAt g ⟨rule.start, []⟩ input := ⟨rfl, hlinked, hinput, hcache, rfl⟩
  obtain ⟨returns, m', hfinish, herrors⟩ := hn fuel hf fuel hf m hm
  refine ⟨_, parse_of_run hstart hrule henter hfinish, ?_⟩
  rw [herrors]
  rfl

theorem IsSimple.isPlain {g : Grammar σ} (h : g.IsSimple) (hdefaults : g.DefaultsSucceed) :
    g.IsPlain where
  closed := Network.isClosed_of_leadsInside h.inside
  noPredicate := h.built.isSound.hasNoPredicate h.predicates
  greedy id _ _ _ := h.isGreedyAt id
  notEnd := Network.not_accepts_of_allTransitions h.notEnd
  actions index a ha := absurd ha (action_ne_ok h.actions index a)
  defaults := hdefaults

theorem nested_parse_succeeds :
    ∃ steps, ∀ fuel ≥ steps, ∃ outcome,
      (nested.parse fuel {} {} "r"
        { input := .ofTypes [1, 1, 3, 2], cache := .ofNetwork nested.toNetwork, host := () }).1 =
          .ok outcome ∧ outcome.success = true := by
  have hstart : nested.findRule? "r" = some 0 := by decide +kernel
  have hrule : nested.rule 0 = .ok { name := "r", start := 0, stop := 1 } := by decide +kernel
  have hplain : nested.IsPlain :=
    isSimple_nested.isPlain (defaultsSucceed_of_all (by decide +kernel))
  have hended : (Input.ofTypes [1, 1, 3, 2]).IsEnded := Input.isEnded_ofList _
  -- The rule calls itself once, and takes the other alternative within.
  have hrun :
      nested.toNetwork.Run ⟨0, []⟩ (Token.word (Input.ofTypes [1, 1, 3, 2]).ahead) ⟨1, []⟩ :=
    Network.run_of_walk [0, 0, 0, 0, 0, 0, 1, 0, 0, 0, 0, 0, 0, 0, 0, 0, 0] (by decide +kernel)
  obtain ⟨steps, hsteps⟩ := parse_succeeds isSimple_nested.built isSimple_nested.noFreeCycle hplain
    hstart hrule hended hrun {} rfl rfl {}
  exact ⟨steps, fun fuel hf => hsteps fuel hf _ rfl .new⟩

/-- A rule that consumes a token, with a local variable whose default is a fault. -/
def unready : Grammar Unit :=
  ((ofRules [{ name := "r", body := .token 1, signature :=
    { locals := [{ name := "x", default := some (throw (.raised "m")) }] } }]).toOption).getD {}

theorem unready_eq : (∃ rules, ofRules rules = .ok unready) ∧
    unready.findRule? "r" = some 0 ∧
    unready.rule 0 = .ok { name := "r", start := 0, stop := 1 } ∧
    (unready.toNetwork.descends ([3, 0, 2, 1].getD ·.toNat 0)) = true ∧
    unready.predicates.size = 0 ∧ unready.actions.size = 0 ∧
    (unready.states.toList.all fun s => !s.nonGreedy) = true ∧
    unready.toNetwork.allTransitions unready.toNetwork.leadsInside = true ∧
    unready.toNetwork.allTransitions (fun t => !t.label.accepts Token.endOfInput) = true ∧
    unready.toNetwork.walk [0, 0, 0] (Token.word (Input.ofTypes [1]).ahead) ⟨0, []⟩ =
      some ⟨1, []⟩ ∧
    ((unready.enter {} 0 none 0 ()).1.map fun _ => ()) = .error (.raised "m") :=
  ⟨⟨_, ofRules_getD (by decide +kernel) {}⟩, by decide +kernel⟩

theorem isSimple_unready : unready.IsSimple := by
  obtain ⟨⟨rules, hrules⟩, _, _, hdescends, hpredicates, hactions, hgreedy, hinside, hend, _⟩ :=
    unready_eq
  exact ⟨isBuilt_ofRules hrules, Network.not_hasFreeCycle_of_descends _ hdescends, hpredicates,
    hactions, hgreedy, hinside, hend⟩

/-- The rule cannot be entered. -/
theorem enter_unready : (unready.enter {} 0 none 0 ()).1 = .error (.raised "m") := by
  obtain ⟨_, _, _, _, _, _, _, _, _, _, hfails⟩ := unready_eq
  cases hresult : (unready.enter {} 0 none 0 ()).1 with
  | error fault =>
    rw [hresult] at hfails
    exact congrArg _ (Except.error.inj hfails)
  | ok stack =>
    rw [hresult] at hfails
    cases hfails

/-- Where a default is a fault, a parse comes to no result on an input that is valid. -/
theorem unready_parse_fails :
    unready.IsBuilt ∧ ¬unready.toNetwork.HasFreeCycle ∧ unready.toNetwork.IsClosed ∧
      unready.toNetwork.HasNoPredicate ∧ (∀ id, unready.toNetwork.IsGreedyAt id) ∧
      (∀ id t, unready.toNetwork.HasTransition id t →
        t.label.accepts Token.endOfInput = false) ∧
      unready.ActionsSucceed ∧ unready.findRule? "r" = some 0 ∧
      unready.rule 0 = .ok { name := "r", start := 0, stop := 1 } ∧
      unready.toNetwork.Run ⟨0, []⟩ (Token.word (Input.ofTypes [1]).ahead) ⟨1, []⟩ ∧
      ∀ fuel options vocabulary, (unready.parse fuel options vocabulary "r"
        { input := .ofTypes [1], cache := .ofNetwork unready.toNetwork, host := () }).1 =
          .error (.raised "m") := by
  have hsimple := isSimple_unready
  obtain ⟨_, hstart, hrule, _, _, _, _, _, _, hwalk, _⟩ := unready_eq
  have hrun : unready.toNetwork.Run ⟨0, []⟩ (Token.word (Input.ofTypes [1]).ahead) ⟨1, []⟩ :=
    Network.run_of_walk [0, 0, 0] hwalk
  refine ⟨hsimple.built, hsimple.noFreeCycle, Network.isClosed_of_leadsInside hsimple.inside,
    hsimple.built.isSound.hasNoPredicate hsimple.predicates, hsimple.isGreedyAt,
    Network.not_accepts_of_allTransitions hsimple.notEnd,
    fun index a ha => absurd ha (action_ne_ok hsimple.actions index a), hstart, hrule, hrun,
    fun fuel options vocabulary => ?_⟩
  have hposition : (Input.ofTypes [1]).position = 0 := rfl
  refine parse_of_enter_error hstart hrule ?_
  dsimp only
  rw [hposition]
  exact enter_unready

end Grammar

end AdaptiveLL
