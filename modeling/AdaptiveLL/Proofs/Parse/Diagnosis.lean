import AdaptiveLL.Proofs.Parse.Step

/-!
# Diagnostics

Before it ends, a parse has nothing to report but ambiguities, in the order of the places where
they start, and only if they are asked for (`Report.IsQuiet`). A step keeps this, unless it
rejects the input, and then it has added one error (`Machine.Steps.reports`). So a parse reports
at most one error, the last thing of all, and succeeds if it reports none
(`ParseOutcome.IsDisciplined`).

Whether ambiguities are reported changes nothing else. A machine whose report is silenced makes
the same steps (`Machine.silences_step`), so a parse comes to the same with ambiguities reported
and without (`Grammar.parse_diagnoses`).
-/

namespace AdaptiveLL

variable {σ : Type} {g : Grammar σ} {fuel : Nat} {options : ParseOptions} {vocabulary : Vocabulary}

/-! ## One diagnostic -/

namespace Diagnostic

theorem isError_ofPredicate {rule : RuleId} {index : Int} {input : Input} {position : Nat}
    {d : Diagnostic} (h : ofPredicate g rule index input position = .ok d) : d.isError = true := by
  obtain ⟨_, _, h⟩ := Except.exists_of_bind h
  obtain ⟨_, _, h⟩ := Except.exists_of_bind h
  cases h
  rfl

theorem isError_ofMismatch {rule : RuleId} {expected : String} {found : Token} {d : Diagnostic}
    (h : ofMismatch g rule expected found = .ok d) : d.isError = true := by
  obtain ⟨_, _, h⟩ := Except.exists_of_bind h
  cases h
  rfl

/-- There is an error to report on a prediction that takes no alternative. On one that does there
    is only an ambiguity to report, if that is asked for. -/
theorem ofPrediction?_eq_ok {ambiguities : Bool} {p : Prediction} {input : Input}
    {d : Option Diagnostic} (h : ofPrediction? g ambiguities p input = .ok d) :
    (p.outcome.alt?.isSome = true ∧ ∀ d' ∈ d, ambiguities = true ∧
        d'.kind = .ambiguousAlternatives ∧ d'.start = p.start) ∨
      (p.outcome.alt? = none ∧ ∃ d', d = some d' ∧ d'.isError = true) := by
  obtain ⟨rule, _, h⟩ := Except.exists_of_bind h
  cases ho : p.outcome with
  | predicted alt =>
    rw [ho] at h
    cases h
    exact .inl ⟨rfl, by simp⟩
  | ambiguous alt alts =>
    rw [ho] at h
    cases ambiguities with
    | false =>
      cases h
      exact .inl ⟨rfl, by simp⟩
    | true =>
      cases h
      refine .inl ⟨rfl, fun d' hd' => ?_⟩
      cases hd'
      exact ⟨rfl, rfl, rfl⟩
  | noViableAlt =>
    rw [ho] at h
    cases h
    exact .inr ⟨rfl, _, rfl, rfl⟩
  | failedPredicate found =>
    rw [ho] at h
    cases found with
    | none =>
      cases h
      exact .inr ⟨rfl, _, rfl, rfl⟩
    | some index =>
      obtain ⟨message, _, h⟩ := Except.exists_of_bind h
      cases h
      exact .inr ⟨rfl, _, rfl, rfl⟩
  | aborted =>
    rw [ho] at h
    cases h
    exact .inr ⟨rfl, _, rfl, rfl⟩

end Diagnostic

/-! ## Reports -/

namespace Report

variable {r r' : Report} {ambiguities : Bool} {position position' : Nat} {d : Diagnostic}

/-- Nothing is reported but ambiguities, if they are asked for, in the order of the places where
    they start. -/
structure IsQuiet (ambiguities : Bool) (position : Nat) (r : Report) : Prop where
  kind : ∀ d ∈ r.diagnostics, d.kind = .ambiguousAlternatives
  ascending : r.diagnostics.Pairwise fun d e => d.start ≤ e.start
  behind : ∀ d ∈ r.diagnostics, d.start ≤ position
  flag : r.ambiguities = ambiguities
  asked : ambiguities = false → r.diagnostics = []

theorem IsQuiet.mono (h : r.IsQuiet ambiguities position) (hle : position ≤ position') :
    r.IsQuiet ambiguities position' :=
  { h with behind := fun d hd => Nat.le_trans (h.behind d hd) hle }

theorem isQuiet_nil (ambiguities : Bool) (position : Nat) :
    IsQuiet ambiguities position { ambiguities } where
  kind := by simp
  ascending := .nil
  behind := by simp
  flag := rfl
  asked _ := rfl

/-- An ambiguity that starts here may be reported. -/
theorem IsQuiet.add (h : r.IsQuiet true position) (hkind : d.kind = .ambiguousAlternatives)
    (hstart : d.start = position) : (r.add d).IsQuiet true position where
  kind e he := by
    rcases List.mem_append.1 he with he | he
    · exact h.kind e he
    · rw [List.mem_singleton.1 he, hkind]
  ascending := by
    refine List.pairwise_append.2 ⟨h.ascending, List.pairwise_singleton _ _, fun e he e' he' => ?_⟩
    rw [List.mem_singleton.1 he', hstart]
    exact h.behind e he
  behind e he := by
    rcases List.mem_append.1 he with he | he
    · exact h.behind e he
    · rw [List.mem_singleton.1 he]
      exact Nat.le_of_eq hstart
  flag := h.flag
  asked hnot := by cases hnot

theorem IsQuiet.hasErrors_eq_false (h : r.IsQuiet ambiguities position) : r.hasErrors = false := by
  rw [hasErrors, List.any_eq_false]
  intro d hd
  rw [Diagnostic.isError, h.kind d hd]
  decide

/-- An error has been reported after nothing but ambiguities. -/
def Complains (ambiguities : Bool) (r : Report) : Prop :=
  ∃ quiet position d, IsQuiet ambiguities position quiet ∧ d.isError = true ∧ r = quiet.add d

/-- What is reported on a prediction. -/
theorem IsQuiet.addPrediction {p : Prediction} {input : Input} {d : Option Diagnostic}
    (hr : r.IsQuiet ambiguities p.start) (h : r.addPrediction g p input = .ok (d, r')) :
    (p.outcome.alt?.isSome = true ∧ r'.IsQuiet ambiguities p.start) ∨
      (p.outcome.alt? = none ∧ r'.Complains ambiguities) := by
  obtain ⟨d, hd, h⟩ := Except.exists_of_bind h
  rw [hr.flag] at hd
  obtain ⟨halt, hd⟩ | ⟨halt, d, rfl, herror⟩ := Diagnostic.ofPrediction?_eq_ok hd
  · refine .inl ⟨halt, ?_⟩
    cases d with
    | none =>
      cases h
      exact hr
    | some d =>
      obtain ⟨rfl, hkind, hstart⟩ := hd d rfl
      cases h
      exact hr.add hkind hstart
  · cases h
    exact .inr ⟨halt, r, p.start, d, hr, herror, rfl⟩

end Report

/-! ## Steps -/

theorem Input.position_le_consume (s : Input) : s.position ≤ s.consume.position := by
  rw [consume]
  split
  · exact Nat.le_refl _
  · exact Nat.le_succ _

theorem Grammar.start_of_predictAt {options : PredictOptions} {id : StateId} {input : Input}
    {stack : Stack} {cache : Cache} {host : σ} {p : Prediction} {r : Cache × σ}
    (h : g.predictAt fuel options id input stack (cache, host) = (.ok p, r)) :
    p.start = input.position := by
  obtain ⟨_, _, h⟩ := Effect.exists_of_ofExcept_bind h
  rw [bind_apply, get_apply] at h
  obtain ⟨_, _, h⟩ := Effect.exists_of_ofExcept_bind h
  obtain ⟨_, _, _, h⟩ := Effect.exists_of_zoom_bind h
  cases h
  rfl

namespace Machine

variable {m m' : Machine σ} {progress : Progress} {rule : RuleId} {t : Transition}
  {ambiguities : Bool}

/-- What a parse has reported behind a step. -/
def Reports (ambiguities : Bool) (m : Machine σ) : Progress → Prop
  | .rejected => m.report.Complains ambiguities
  | _ => m.report.IsQuiet ambiguities m.input.position

theorem Takes.reports (h : Takes g vocabulary rule t m progress m')
    (hm : m.report.IsQuiet ambiguities m.input.position) : m'.Reports ambiguities progress := by
  cases h with
  | fails _ _ _ hd => exact ⟨_, _, _, hm, Diagnostic.isError_ofPredicate hd, rfl⟩
  | mismatch _ _ hd => exact ⟨_, _, _, hm, Diagnostic.isError_ofMismatch hd, rfl⟩
  | token => exact hm.mono m.input.position_le_consume
  | _ => exact hm

/-- A prediction that takes an alternative reports no error, and any other one does. -/
theorem reports_of_decide {index : Option Nat} (h : decide g fuel options m = (.ok index, m'))
    (hm : m.report.IsQuiet ambiguities m.input.position) :
    m'.Reports ambiguities (if index.isSome then .running else .rejected) := by
  obtain ⟨p, cache, host, d, report, hp, hreport, rfl, rfl⟩ := decide_eq_ok h
  rw [← Grammar.start_of_predictAt hp] at hm
  obtain ⟨halt, hquiet⟩ | ⟨halt, hcomplains⟩ := hm.addPrediction hreport
  · rw [Option.isSome_map, halt, if_pos rfl]
    rw [Grammar.start_of_predictAt hp] at hquiet
    exact hquiet
  · rw [halt]
    exact hcomplains

/-- A step reports no error unless it rejects the input. -/
theorem Steps.reports (h : Steps g fuel options vocabulary m progress m')
    (hm : m.report.IsQuiet ambiguities m.input.position) : m'.Reports ambiguities progress := by
  cases h with
  | returns => exact hm
  | leaves => exact hm
  | follows _ _ _ _ htakes => exact htakes.reports hm
  | decides _ _ _ hdecide _ htakes => exact htakes.reports (reports_of_decide hdecide hm)
  | givesUp _ _ _ hdecide => exact reports_of_decide hdecide hm

/-- A parse that comes to its end has reported no error, and one that rejects its input has. -/
theorem run_reports {steps : Nat} {returns : Option Scope}
    (h : run g fuel options vocabulary steps m = (.ok returns, m'))
    (hm : m.report.IsQuiet ambiguities m.input.position) :
    m'.Reports ambiguities ((returns.map Progress.returned).getD .rejected) := by
  induction steps generalizing m with
  | zero => cases h
  | succ steps ih =>
    obtain ⟨progress, m₁, hstep, h⟩ := exists_of_bind_apply h
    have hm₁ := (steps_of_step hstep).reports hm
    cases progress with
    | running => exact ih h hm₁
    | returned returns' =>
      cases h
      exact hm₁
    | rejected =>
      cases h
      exact hm₁

end Machine

/-! ## Without ambiguities -/

/-- If ambiguities are not asked for, there are only errors to report. -/
theorem Diagnostic.ofPrediction?_silenced (g : Grammar σ) (ambiguities : Bool) (p : Prediction)
    (input : Input) :
    Except.Relates (fun d d' => d' = d.filter isError) (ofPrediction? g ambiguities p input)
      (ofPrediction? g false p input) := by
  rw [ofPrediction?, ofPrediction?]
  cases hrule : g.rule p.rule with
  | error fault => exact .error fault
  | ok rule =>
    rw [Except.ok_bind_eq, Except.ok_bind_eq]
    cases p.outcome with
    | ambiguous alt alts => cases ambiguities <;> exact .ok rfl
    | failedPredicate found =>
      cases found with
      | none => exact .ok rfl
      | some index =>
        dsimp only
        cases g.predicate index with
        | error fault => exact .error fault
        | ok predicate => exact .ok rfl
    | _ => exact .ok rfl

namespace Report

/-- The errors of a report. -/
def silenced (r : Report) : Report :=
  { diagnostics := r.diagnostics.filter Diagnostic.isError }

theorem silenced_add_of_isError {d : Diagnostic} (h : d.isError = true) (r : Report) :
    (r.add d).silenced = r.silenced.add d := by
  rw [silenced, silenced, add, add, List.filter_append, List.filter_cons_of_pos h, List.filter_nil]

theorem silenced_add_of_not_isError {d : Diagnostic} (h : d.isError = false) (r : Report) :
    (r.add d).silenced = r.silenced := by
  rw [silenced, silenced, add, List.filter_append, List.filter_cons_of_neg (by simp [h]),
    List.filter_nil, List.append_nil]

theorem hasErrors_silenced (r : Report) : r.silenced.hasErrors = r.hasErrors := by
  rw [hasErrors, hasErrors, silenced, List.any_filter]
  simp

/-- On a prediction, a silenced report gets what is not an ambiguity. -/
theorem addPrediction_silenced (r : Report) (g : Grammar σ) (p : Prediction) (input : Input) :
    Except.Relates (fun x y => y.2 = x.2.silenced) (r.addPrediction g p input)
      (r.silenced.addPrediction g p input) := by
  refine (Diagnostic.ofPrediction?_silenced g r.ambiguities p input).bind ?_
  rintro d _ rfl
  cases d with
  | none => exact .ok rfl
  | some d =>
    cases herror : d.isError with
    | true =>
      rw [Option.filter_some_pos herror]
      exact .ok (silenced_add_of_isError herror r).symm
    | false =>
      rw [Option.filter_some_neg (by simp [herror])]
      exact .ok (silenced_add_of_not_isError herror r).symm

end Report

namespace Machine

/-- The machine that reports no ambiguities. -/
def silenced (m : Machine σ) : Machine σ :=
  { m with report := m.report.silenced }

/-- Two computations come to the same, but that the second one reports no ambiguities. -/
def Silences {α : Type} (m : Machine σ) (e e' : Effect (Machine σ) α) : Prop :=
  e' m.silenced = ((e m).1, (e m).2.silenced)

variable {α β : Type} {m : Machine σ} {e e' : Effect (Machine σ) α} {options' : ParseOptions}

theorem Silences.bind {f f' : α → Effect (Machine σ) β} (h : Silences m e e')
    (hf : ∀ a m', Silences m' (f a) (f' a)) : Silences m (e >>= f) (e' >>= f') := by
  rw [Silences, bind_apply, bind_apply, h]
  rcases e m with ⟨fault | a, m'⟩
  · rfl
  · exact hf a m'

theorem silences_get {f f' : Machine σ → Effect (Machine σ) α}
    (h : Silences m (f m) (f' m.silenced)) : Silences m (do f (← get)) (do f' (← get)) :=
  h

theorem silences_set {m' : Machine σ} (h : Silences m' e e') :
    Silences m (do set m'; e) (do set m'.silenced; e') :=
  h

theorem Silences.ite {c : Prop} [Decidable c] {d d' : Effect (Machine σ) α} (h : Silences m e e')
    (h' : Silences m d d') : Silences m (if c then e else d) (if c then e' else d') := by
  split
  · exact h
  · exact h'

theorem Silences.bind_relates {x : Except Fault α} {y : Except Fault β}
    {R : α → β → Prop} {γ : Type} {f : α → Effect (Machine σ) γ} {f' : β → Effect (Machine σ) γ}
    (h : Except.Relates R x y) (hf : ∀ a b, R a b → Silences m (f a) (f' b)) :
    Silences m (Effect.ofExcept x >>= f) (Effect.ofExcept y >>= f') := by
  cases h with
  | ok hab => exact hf _ _ hab
  | error fault => rfl

theorem silences_ofExcept (r : Except Fault α) :
    Silences m (Effect.ofExcept r) (Effect.ofExcept r) :=
  rfl

theorem silences_zoom {T : Type} {get : Machine σ → T} {put : T → Machine σ → Machine σ}
    {e : Effect T α} (hget : get m.silenced = get m)
    (hput : ∀ t, put t m.silenced = (put t m).silenced) :
    Silences m (Effect.zoom get put e) (Effect.zoom get put e) := by
  rw [Silences, Effect.zoom_apply, Effect.zoom_apply, hget, hput]

theorem silences_goto (id : StateId) : Silences m (goto id) (goto id) :=
  rfl

theorem silences_reject {d : Except Fault Diagnostic} (hd : ∀ d', d = .ok d' → d'.isError = true) :
    Silences m (reject d) (reject d) := by
  cases d with
  | error fault => rfl
  | ok d =>
    have hreport := m.report.silenced_add_of_isError (hd d rfl)
    exact congrArg (fun r => (_, { m with report := r })) hreport.symm

theorem silences_leave : Silences m leave leave := by
  rw [leave]
  refine silences_get ?_
  refine Silences.bind (silences_ofExcept m.stack.top) fun frame m₁ => ?_
  refine Silences.bind (silences_ofExcept m.stack.exit) fun r m₂ => ?_
  exact silences_set (Silences.ite rfl (silences_goto _))

theorem silences_decide (hoptions : options.toPredictOptions = options'.toPredictOptions) :
    Silences m (decide g fuel options) (decide g fuel options') := by
  rw [decide, decide, ← hoptions]
  refine silences_get ?_
  refine Silences.bind (silences_zoom rfl fun _ => rfl) fun p m₁ => ?_
  refine Silences.bind rfl fun _ m₂ => ?_
  refine Silences.bind_relates (m.report.addPrediction_silenced g p m.input) ?_
  rintro ⟨d, report⟩ ⟨d', _⟩ rfl
  rfl

theorem silences_take (rule : RuleId) (t : Transition) :
    Silences m (take g vocabulary rule t) (take g vocabulary rule t) := by
  obtain ⟨target, label⟩ := t
  rw [take]
  refine silences_get ?_
  cases label with
  | epsilon => exact silences_goto _
  | predicate index =>
    refine Silences.bind (silences_ofExcept (g.predicate index)) fun p m₁ => ?_
    refine Silences.bind (silences_zoom rfl fun _ => rfl) fun truth m₂ => ?_
    split
    · exact silences_goto _
    · exact silences_reject fun _ => Diagnostic.isError_ofPredicate
  | action index =>
    refine Silences.bind (silences_ofExcept (g.action index)) fun a m₁ => ?_
    exact Silences.bind (silences_zoom rfl fun _ => rfl) fun _ m₂ => silences_goto _
  | call callee follow =>
    refine Silences.bind (silences_zoom rfl fun _ => rfl) fun stack m₁ => ?_
    exact Silences.bind rfl fun _ m₂ => silences_goto _
  | _ => exact .ite rfl (silences_reject fun _ => Diagnostic.isError_ofMismatch)

theorem silences_step (hoptions : options.toPredictOptions = options'.toPredictOptions) :
    Silences m (step g fuel options vocabulary) (step g fuel options' vocabulary) := by
  rw [step, step]
  refine silences_get ?_
  refine Silences.bind (silences_ofExcept (g.state m.state)) fun s m₁ => ?_
  refine .ite silences_leave ?_
  refine .ite (.bind (silences_decide hoptions) ?_) (.bind rfl ?_)
  -- The transition that is taken does not depend on what is reported.
  all_goals
    intro index m₂
    cases index with
    | none => rfl
    | some i =>
      dsimp only
      cases s.transitions[i]? with
      | none => rfl
      | some t => exact silences_take s.rule t

/-- A machine that is silenced makes the same steps. -/
theorem silences_run (hoptions : options.toPredictOptions = options'.toPredictOptions)
    (steps : Nat) : Silences m (run g fuel options vocabulary steps)
      (run g fuel options' vocabulary steps) := by
  induction steps generalizing m with
  | zero => rfl
  | succ steps ih =>
    rw [run, run]
    refine Silences.bind (silences_step hoptions) fun progress m₁ => ?_
    cases progress with
    | running => exact ih
    | _ => rfl

theorem run_silenced (g : Grammar σ) (fuel : Nat) (options : ParseOptions)
    (vocabulary : Vocabulary) (steps : Nat) (m : Machine σ) :
    run g fuel { options with reportAmbiguities := false } vocabulary steps m.silenced =
      ((run g fuel { options with reportAmbiguities := true } vocabulary steps m).1,
        (run g fuel { options with reportAmbiguities := true } vocabulary steps m).2.silenced) := by
  refine silences_run ?_ steps
  rfl

end Machine

/-! ## Parses -/

namespace ParseOutcome

/-- Ambiguities are reported if they are asked for, in the order of the places where they start,
    and behind them at most one error. A parse that reports none succeeds, and one that does
    returns nothing. -/
structure IsDisciplined (ambiguities : Bool) (outcome : ParseOutcome) : Prop where
  diagnostics : ∃ (reported : List Diagnostic) (error : Option Diagnostic),
    outcome.diagnostics = reported ++ error.toList ∧
      (∀ d ∈ reported, d.kind = .ambiguousAlternatives) ∧
      (reported.Pairwise fun d e => d.start ≤ e.start) ∧
      (ambiguities = false → reported = []) ∧
      (∀ d ∈ error, d.kind ≠ .ambiguousAlternatives) ∧
      (outcome.success = true ↔ error = none)
  returns : outcome.success = false → outcome.returns = {}

/-- An outcome without the ambiguities. -/
def silenced (outcome : ParseOutcome) : ParseOutcome :=
  { outcome with diagnostics := outcome.diagnostics.filter Diagnostic.isError }

end ParseOutcome

namespace Grammar

variable {start : String} {s : ParseState σ} {outcome : ParseOutcome}

theorem isDisciplined_of_parse
    (h : (g.parse fuel options vocabulary start s).1 = .ok outcome) :
    outcome.IsDisciplined options.reportAmbiguities := by
  obtain ⟨id, rule, stack, host, m, returns, _, _, _, hrun, _, rfl⟩ :=
    parse_eq_ok (Prod.ext h rfl)
  have hreports := Machine.run_reports hrun (Report.isQuiet_nil options.reportAmbiguities _)
  cases returns with
  | some returns =>
    have hquiet : m.report.IsQuiet options.reportAmbiguities m.input.position := hreports
    refine ⟨⟨m.report.diagnostics, none, (List.append_nil _).symm, hquiet.kind, hquiet.ascending,
      hquiet.asked, by simp, ?_⟩, ?_⟩
    · simp [hquiet.hasErrors_eq_false]
    · simp [hquiet.hasErrors_eq_false]
  | none =>
    obtain ⟨quiet, position, d, hquiet, herror, hreport⟩ := hreports
    refine ⟨⟨quiet.diagnostics, some d, ?_, hquiet.kind, hquiet.ascending, hquiet.asked, ?_, ?_⟩,
      fun _ => rfl⟩
    · rw [hreport]
      rfl
    · rintro d' hd' hkind
      obtain rfl := Option.some.inj hd'
      rw [Diagnostic.isError, hkind] at herror
      cases herror
    · simp

/-- Whether ambiguities are reported or not changes nothing else that a parse comes to. -/
theorem parse_silenced (g : Grammar σ) (fuel : Nat) (options : ParseOptions)
    (vocabulary : Vocabulary) (start : String) (s : ParseState σ) :
    g.parse fuel { options with reportAmbiguities := false } vocabulary start s =
      ((g.parse fuel { options with reportAmbiguities := true } vocabulary start s).1.map
          ParseOutcome.silenced,
        (g.parse fuel { options with reportAmbiguities := true } vocabulary start s).2) := by
  rw [parse, parse]
  cases g.findRule? start with
  | none => rfl
  | some id =>
    dsimp only
    rw [bind_apply, bind_apply, Effect.ofExcept_apply]
    cases g.rule id with
    | error fault => rfl
    | ok rule =>
      dsimp only
      rw [bind_apply, bind_apply, get_apply]
      dsimp only
      rw [bind_apply, bind_apply, Effect.zoom_apply]
      rcases g.enter {} id none s.input.position s.host with ⟨fault | stack, host⟩
      · rfl
      dsimp only
      have hrun := Machine.run_silenced g fuel options vocabulary fuel
        { s with host, state := rule.start, stack, report := { ambiguities := true } }
      rw [Effect.zoom_apply, Effect.zoom_apply]
      rw [bind_apply, bind_apply]
      dsimp only [Machine.silenced, Report.silenced, List.filter_nil] at hrun
      rw [hrun]
      rcases Machine.run g fuel { options with reportAmbiguities := true } vocabulary fuel
          { s with host, state := rule.start, stack, report := { ambiguities := true } } with
        ⟨fault | returns, m⟩
      · rfl
      · have herrors := m.report.hasErrors_silenced
        refine Prod.ext (congrArg Except.ok ?_) rfl
        exact congrArg (fun b => ParseOutcome.mk (returns.isSome && !b) _ _) herrors

/-- A parse reports at most one error, the last thing of all, and succeeds if it reports none;
    and whether it reports ambiguities or not changes nothing else. -/
theorem parse_diagnoses (g : Grammar σ) (fuel : Nat) (options : ParseOptions)
    (vocabulary : Vocabulary) (start : String) (s : ParseState σ) :
    (∀ outcome, (g.parse fuel options vocabulary start s).1 = .ok outcome →
      outcome.IsDisciplined options.reportAmbiguities) ∧
      g.parse fuel { options with reportAmbiguities := false } vocabulary start s =
        ((g.parse fuel { options with reportAmbiguities := true } vocabulary start s).1.map
            ParseOutcome.silenced,
          (g.parse fuel { options with reportAmbiguities := true } vocabulary start s).2) :=
  ⟨fun _ h => isDisciplined_of_parse h, parse_silenced g fuel options vocabulary start s⟩

end Grammar

end AdaptiveLL
