import AdaptiveLL.Network.Run
import AdaptiveLL.Parse
import AdaptiveLL.Proofs.Effect

/-!
# One step of a parse

What a step of a parse has done if no fault has ended it (`Machine.Steps`): it has
left an invocation, followed the one transition there is, or one that has been
predicted (`Machine.Takes`), or rejected the input, and then has added a diagnostic.
-/

namespace AdaptiveLL.Machine

variable {σ : Type} (g : Grammar σ) (fuel : Nat) (options : ParseOptions)
  (vocabulary : Vocabulary)

/-- Where a parse stands. -/
def point (m : Machine σ) : Point :=
  ⟨m.state, m.stack.context⟩

/-- What a parse does to follow a transition of a rule. -/
inductive Takes (rule : RuleId) : Transition → Machine σ → Progress → Machine σ → Prop
  | epsilon {target : StateId} {m : Machine σ} :
    Takes rule ⟨target, .epsilon⟩ m .running { m with state := target }
  | holds {target : StateId} {index : Int} {p : Predicate σ} {m : Machine σ} {stack : Stack}
    {host : σ} : g.predicate index = .ok p →
    Stack.commit p m.input m.input.position (m.stack, m.host) = (.ok .holds, stack, host) →
    Takes rule ⟨target, .predicate index⟩ m .running { m with stack, host, state := target }
  | fails {target : StateId} {index : Int} {p : Predicate σ} {truth : Truth} {m : Machine σ}
    {stack : Stack} {host : σ} {d : Diagnostic} : g.predicate index = .ok p → truth ≠ .holds →
    Stack.commit p m.input m.input.position (m.stack, m.host) = (.ok truth, stack, host) →
    Diagnostic.ofPredicate g rule index m.input m.input.position = .ok d →
    Takes rule ⟨target, .predicate index⟩ m .rejected
      { m with stack, host, report := m.report.add d }
  | action {target : StateId} {index : Int} {a : Action σ} {m : Machine σ} {stack : Stack}
    {out : String} {host : σ} : g.action index = .ok a →
    Stack.perform a m.last (m.stack, m.out, m.host) = (.ok ⟨⟩, stack, out, host) →
    Takes rule ⟨target, .action index⟩ m .running { m with stack, out, host, state := target }
  | call {target follow : StateId} {callee : RuleId} {m : Machine σ} {stack : Stack} {host : σ} :
    g.enter m.stack callee (some follow) m.input.position m.host = (.ok stack, host) →
    Takes rule ⟨target, .call callee follow⟩ m .running { m with stack, host, state := target }
  | token {t : Transition} {m : Machine σ} : t.label.accepts m.input.current.type = true →
    Takes rule t m .running
      { m with last := some m.input.current, input := m.input.consume, state := t.target }
  | mismatch {t : Transition} {m : Machine σ} {d : Diagnostic} : t.label.isFree = false →
    t.label.accepts m.input.current.type = false →
    Diagnostic.ofMismatch g rule (t.label.expected vocabulary) m.input.current = .ok d →
    Takes rule t m .rejected { m with report := m.report.add d }

/-- What a step of a parse does. -/
inductive Steps : Machine σ → Progress → Machine σ → Prop
  | returns {m : Machine σ} {s : State} {returns : Scope} {stack : Stack} :
    g.state m.state = .ok s → s.kind = .ruleStop → m.stack.exit = .ok (returns, stack) →
    stack.frames = [] → Steps m (.returned returns) { m with stack }
  | leaves {m : Machine σ} {s : State} {frame : Frame} {returns : Scope} {stack : Stack} :
    g.state m.state = .ok s → s.kind = .ruleStop → m.stack.top = .ok frame →
    m.stack.exit = .ok (returns, stack) → stack.frames ≠ [] →
    Steps m .running { m with stack, state := frame.follow.getD (-1) }
  | follows {m m' : Machine σ} {s : State} {t : Transition} {progress : Progress} :
    g.state m.state = .ok s → s.kind ≠ .ruleStop → s.decision.isSome = false →
    s.transitions[0]? = some t → Takes g vocabulary s.rule t m progress m' → Steps m progress m'
  | decides {m m₁ m' : Machine σ} {s : State} {i : Nat} {t : Transition} {progress : Progress} :
    g.state m.state = .ok s → s.kind ≠ .ruleStop → s.decision.isSome = true →
    decide g fuel options m = (.ok (some i), m₁) → s.transitions[i]? = some t →
    Takes g vocabulary s.rule t m₁ progress m' → Steps m progress m'
  | givesUp {m m' : Machine σ} {s : State} : g.state m.state = .ok s → s.kind ≠ .ruleStop →
    s.decision.isSome = true → decide g fuel options m = (.ok none, m') → Steps m .rejected m'

variable {g fuel options vocabulary} {m m' : Machine σ} {progress : Progress}

theorem reject_eq_ok {d : Except Fault Diagnostic} (h : reject d m = (.ok progress, m')) :
    ∃ d', d = .ok d' ∧ progress = .rejected ∧ m' = { m with report := m.report.add d' } := by
  obtain ⟨d', hd, h⟩ := Effect.exists_of_ofExcept_bind h
  cases h
  exact ⟨d', hd, rfl, rfl⟩

/-- How a transition is followed. -/
theorem takes_of_take {rule : RuleId} {t : Transition}
    (h : take g vocabulary rule t m = (.ok progress, m')) :
    Takes g vocabulary rule t m progress m' := by
  obtain ⟨target, label⟩ := t
  -- A label that is not free matches the current token or does not.
  have consume (hfree : label.isFree = false)
      (h : (if label.accepts m.input.current.type then do
          modify fun m' => { m' with last := some m.input.current, input := m'.input.consume }
          goto target
        else reject (Diagnostic.ofMismatch g rule (label.expected vocabulary) m.input.current) :
          Effect (Machine σ) Progress) m = (.ok progress, m')) :
      Takes g vocabulary rule ⟨target, label⟩ m progress m' := by
    split at h
    · next ha =>
      cases h
      exact .token ha
    · next ha =>
      obtain ⟨d, hd, rfl, rfl⟩ := reject_eq_ok h
      exact .mismatch hfree (Bool.eq_false_iff.2 ha) hd
  rw [take, bind_apply, get_apply] at h
  cases label with
  | epsilon =>
    cases h
    exact .epsilon
  | predicate index =>
    obtain ⟨p, hp, h⟩ := Effect.exists_of_ofExcept_bind h
    obtain ⟨truth, ⟨stack, host⟩, hc, h⟩ := Effect.exists_of_zoom_bind h
    split at h
    · next hholds =>
      subst hholds
      cases h
      exact .holds hp hc
    · next hne =>
      obtain ⟨d, hd, rfl, rfl⟩ := reject_eq_ok h
      exact .fails hp hne hc hd
  | action index =>
    obtain ⟨a, ha, h⟩ := Effect.exists_of_ofExcept_bind h
    obtain ⟨_, ⟨stack, out, host⟩, hperform, h⟩ := Effect.exists_of_zoom_bind h
    cases h
    exact .action ha hperform
  | call callee follow =>
    obtain ⟨stack, host, henter, h⟩ := Effect.exists_of_zoom_bind h
    cases h
    exact .call henter
  | _ => exact consume rfl h

/-- What leaving an invocation has done. -/
theorem steps_of_leave {s : State} (hs : g.state m.state = .ok s) (hk : s.kind = .ruleStop)
    (h : leave m = (.ok progress, m')) : Steps g fuel options vocabulary m progress m' := by
  rw [leave, bind_apply, get_apply] at h
  obtain ⟨frame, htop, h⟩ := Effect.exists_of_ofExcept_bind h
  obtain ⟨⟨returns, stack⟩, hexit, h⟩ := Effect.exists_of_ofExcept_bind h
  dsimp only at h
  rw [bind_apply, set_apply] at h
  dsimp only at h
  split at h
  · next hempty =>
    cases h
    exact .returns hs hk hexit (List.isEmpty_iff.1 hempty)
  · next hne =>
    cases h
    exact .leaves hs hk htop hexit fun hempty => hne (List.isEmpty_iff.2 hempty)

/-- What a prediction has done. -/
theorem decide_eq_ok {index : Option Nat} (h : decide g fuel options m = (.ok index, m')) :
    ∃ prediction cache host d report,
      g.predictAt fuel options.toPredictOptions m.state m.input m.stack (m.cache, m.host) =
        (.ok prediction, cache, host) ∧
      m.report.addPrediction g prediction m.input = .ok (d, report) ∧
      index = prediction.outcome.alt?.map (fun alt => (alt - 1).toNat) ∧
      m' = { m with cache, host, report, predictions := prediction :: m.predictions } := by
  rw [decide, bind_apply, get_apply] at h
  obtain ⟨prediction, ⟨cache, host⟩, hpredict, h⟩ := Effect.exists_of_zoom_bind h
  rw [bind_apply, modify_apply] at h
  obtain ⟨⟨d, report⟩, hreport, h⟩ := Effect.exists_of_ofExcept_bind h
  cases h
  exact ⟨prediction, cache, host, d, report, hpredict, hreport, rfl, rfl⟩

/-- What a step has done. -/
theorem steps_of_step (h : step g fuel options vocabulary m = (.ok progress, m')) :
    Steps g fuel options vocabulary m progress m' := by
  rw [step, bind_apply, get_apply] at h
  obtain ⟨s, hs, h⟩ := Effect.exists_of_ofExcept_bind h
  split at h
  · next hk => exact steps_of_leave hs hk h
  next hk =>
  dsimp only at h
  split at h
  · next hd =>
    obtain ⟨index, m₁, hdecide, h⟩ := exists_of_bind_apply h
    cases index with
    | none =>
      cases h
      exact .givesUp hs hk hd hdecide
    | some i =>
      dsimp only at h
      cases ht : s.transitions[i]? with
      | none =>
        rw [ht] at h
        cases h
      | some t =>
        rw [ht] at h
        exact .decides hs hk hd hdecide ht (takes_of_take h)
  · next hd =>
    rw [pure_bind] at h
    dsimp only at h
    cases ht : s.transitions[0]? with
    | none =>
      rw [ht] at h
      cases h
    | some t =>
      rw [ht] at h
      exact .follows hs hk (Bool.eq_false_iff.2 hd) ht (takes_of_take h)

end AdaptiveLL.Machine

namespace AdaptiveLL.Grammar

variable {σ : Type} {g : Grammar σ} {fuel : Nat} {options : ParseOptions} {vocabulary : Vocabulary}
  {start : String} {s s' : ParseState σ} {outcome : ParseOutcome}

/-- What a parse has done that comes to an outcome. -/
theorem parse_eq_ok (h : g.parse fuel options vocabulary start s = (.ok outcome, s')) :
    ∃ id rule stack host m returns, g.findRule? start = some id ∧ g.rule id = .ok rule ∧
      g.enter {} id none s.input.position s.host = (.ok stack, host) ∧
      Machine.run g fuel options vocabulary fuel
          { s with host, state := rule.start, stack,
                   report := { ambiguities := options.reportAmbiguities } } = (.ok returns, m) ∧
      s' = m.toParseState ∧
      outcome = { success := returns.isSome && !m.report.hasErrors, returns := returns.getD {},
                  diagnostics := m.report.diagnostics } := by
  rw [parse] at h
  cases hid : g.findRule? start with
  | none =>
    rw [hid] at h
    cases h
  | some id =>
    rw [hid] at h
    dsimp only at h
    obtain ⟨rule, hrule, h⟩ := Effect.exists_of_ofExcept_bind h
    rw [bind_apply, get_apply] at h
    obtain ⟨stack, host, henter, h⟩ := Effect.exists_of_zoom_bind h
    rw [Effect.zoom_apply] at h
    obtain ⟨houtcome, rfl⟩ := Prod.mk.inj h
    obtain ⟨returns, m, hrun, hfinish⟩ := exists_of_bind_apply (Prod.ext houtcome rfl)
    rw [bind_apply, get_apply] at hfinish
    obtain ⟨hresult, hm⟩ := Prod.mk.inj hfinish
    refine ⟨id, rule, stack, host, m, returns, rfl, hrule, henter, hrun, ?_, ?_⟩
    · exact congrArg Machine.toParseState hm.symm
    · exact (Except.ok.inj hresult).symm

end AdaptiveLL.Grammar
