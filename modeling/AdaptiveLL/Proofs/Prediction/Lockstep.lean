import AdaptiveLL.Proofs.Prediction.Transparency

/-!
# Predictions in lockstep

Two predictions that are made alike, but perhaps for hosts of different kinds, run in lockstep if
the evaluations of their predicates do (`Effect.Matches`): whatever relation between the two
hosts evaluating a predicate keeps, and with the same answer, settling a decision does so
(`Setting.settle_congr`), following an automaton over the tokens ahead does so
(`Setting.follow_matches`), and so does the whole prediction (`Grammar.predictAt_matches`).
-/

namespace AdaptiveLL

variable {σ τ S T S' T' α : Type}

/-- Two computations on related states come to the same, and leave related states. -/
def Effect.Matches (rel : S → T → Prop) {α : Type} (e : Effect S α) (e' : Effect T α) : Prop :=
  ∀ s t, rel s t → (e s).1 = (e' t).1 ∧ rel (e s).2 (e' t).2

namespace Effect

variable {rel : S → T → Prop} {rel' : S' → T' → Prop}

theorem matches_isCongruence : IsCongruence fun _ => Matches rel where
  pure a s t h := ⟨rfl, h⟩
  bind {α β e e' f f'} he hf s t h := by
    obtain ⟨hr, hs⟩ := he s t h
    rw [bind_apply, bind_apply]
    revert hr hs
    rcases e s with ⟨r, s₁⟩
    rcases e' t with ⟨r', t₁⟩
    rintro rfl hs
    cases r with
    | error fault => exact ⟨rfl, hs⟩
    | ok a => exact hf a s₁ t₁ hs

namespace Matches

theorem ofExcept (r : Except Fault α) :
    Matches rel (Effect.ofExcept r : Effect S α) (Effect.ofExcept r) :=
  fun _ _ h => ⟨rfl, h⟩

theorem get_bind {f : S → Effect S α} {f' : T → Effect T α}
    (h : ∀ s t, rel s t → (f s s).1 = (f' t t).1 ∧ rel (f s s).2 (f' t t).2) :
    Matches rel (do f (← get)) (do f' (← get)) := by
  intro s t hst
  rw [bind_apply, get_apply, bind_apply, get_apply]
  exact h s t hst

theorem zoom {getS : S → S'} {putS : S' → S → S} {getT : T → T'} {putT : T' → T → T}
    {e : Effect S' α} {e' : Effect T' α} (h : Matches rel' e e')
    (hget : ∀ s t, rel s t → rel' (getS s) (getT t))
    (hput : ∀ s t s' t', rel s t → rel' s' t' → rel (putS s' s) (putT t' t)) :
    Matches rel (Effect.zoom getS putS e) (Effect.zoom getT putT e') := by
  intro s t hst
  obtain ⟨hr, hs⟩ := h _ _ (hget s t hst)
  rw [zoom_apply, zoom_apply]
  exact ⟨hr, hput s t _ _ hst hs⟩

end Matches

end Effect

/-- What a predicate of a number comes to speculatively. -/
def Grammar.speculate (g : Grammar σ) (frame : Option Frame) (input : Input) (p : Int) :
    Effect σ Truth := do
  (← Effect.ofExcept (g.predicate p)).speculate frame input input.position

/-- In two predictions the same has been found out by predicates, for hosts that are related. -/
def Hearing.Matches (rel : σ → τ → Prop) (hearing : Hearing σ) (hearing' : Hearing τ) : Prop :=
  hearing.truths = hearing'.truths ∧ rel hearing.host hearing'.host

/-- Two predictions have found out the same by predicates and have the same automaton. -/
def Trial.Matches (rel : σ → τ → Prop) (trial : Trial σ) (trial' : Trial τ) : Prop :=
  trial.toHearing.Matches rel trial'.toHearing ∧ trial.automaton = trial'.automaton

/-- What one of two predictions does with its automaton, the other one does that has the same. -/
theorem Effect.Matches.of_ok {rel : σ → τ → Prop} {e : Effect (Trial σ) α} {e' : Effect (Trial τ) α}
    (h : Matches (Trial.Matches rel) e e') {trial trial' : Trial σ} {a : α}
    (he : e trial = (.ok a, trial')) {hearing : Hearing τ}
    (hhearing : trial.toHearing.Matches rel hearing) :
    ∃ hearing', e' { toHearing := hearing, automaton := trial.automaton } =
        (.ok a, { toHearing := hearing', automaton := trial'.automaton }) ∧
      trial'.toHearing.Matches rel hearing' := by
  obtain ⟨hr, hmatches, hautomaton⟩ :=
    h trial { toHearing := hearing, automaton := trial.automaton } ⟨hhearing, rfl⟩
  revert hr hmatches hautomaton
  rw [he]
  rcases e' { toHearing := hearing, automaton := trial.automaton } with ⟨_, hearing', automaton⟩
  rintro rfl hmatches rfl
  exact ⟨hearing', rfl, hmatches⟩

/-- Two predictions are made alike, but for the invocation and the predicates. -/
structure Setting.IsLike (setting : Setting σ) (setting' : Setting τ) : Prop where
  net : setting.grammar.toNetwork = setting'.grammar.toNetwork
  decision : setting.decision = setting'.decision
  number : setting.number = setting'.number
  exit : setting.exit = setting'.exit
  outer : setting.outer = setting'.outer
  input : setting.input = setting'.input

namespace Setting

theorem IsLike.refl (setting : Setting σ) : setting.IsLike setting :=
  ⟨rfl, rfl, rfl, rfl, rfl, rfl⟩

variable {setting : Setting σ} {setting' : Setting τ} {rel : σ → τ → Prop} {fuel : Nat}
  {options : PredictOptions}

/-- Evaluating a predicate in a prediction is to evaluate it on the host and to note what it
    comes to. -/
theorem evaluate_apply (p : Int) (hearing : Hearing σ) :
    setting.evaluate p hearing =
      match setting.grammar.speculate setting.frame setting.input p hearing.host with
      | (.ok truth, host) => (.ok truth, { truths := (p, truth) :: hearing.truths, host })
      | (.error fault, host) => (.error fault, { hearing with host }) := by
  rw [evaluate, Grammar.speculate, bind_apply, bind_apply, Effect.ofExcept_apply,
    Effect.ofExcept_apply]
  cases setting.grammar.predicate p with
  | error fault => rfl
  | ok predicate =>
    dsimp only
    rw [bind_apply, Effect.zoom_apply]
    rcases predicate.speculate setting.frame setting.input setting.input.position
      hearing.host with ⟨fault | truth, host⟩
    · rfl
    · rfl

/-- A predicate is only evaluated if this has not been done so far. -/
theorem truth_apply (p : Int) (hearing : Hearing σ) :
    setting.truth p hearing =
      match hearing.truths.lookup p with
      | some truth => (.ok truth, hearing)
      | none => setting.evaluate p hearing := by
  rw [truth, bind_apply, get_apply]
  dsimp only
  cases hearing.truths.lookup p with
  | some truth => rfl
  | none => rfl

variable (h : ∀ p, Effect.Matches rel
  (setting.grammar.speculate setting.frame setting.input p)
  (setting'.grammar.speculate setting'.frame setting'.input p))

include h

theorem truth_matches (p : Int) :
    Effect.Matches (Hearing.Matches rel) (setting.truth p) (setting'.truth p) := by
  rintro hearing hearing' ⟨htruths, hhost⟩
  rw [truth_apply, truth_apply, htruths]
  cases hearing'.truths.lookup p with
  | some truth => exact ⟨rfl, htruths, hhost⟩
  | none =>
    dsimp only
    obtain ⟨hr, hs⟩ := h p _ _ hhost
    rw [evaluate_apply, evaluate_apply]
    revert hr hs
    rcases setting.grammar.speculate setting.frame setting.input p hearing.host with ⟨r, s⟩
    rcases setting'.grammar.speculate setting'.frame setting'.input p hearing'.host with ⟨r', s'⟩
    rintro rfl hs
    cases r with
    | error fault => exact ⟨rfl, htruths, hs⟩
    | ok truth => exact ⟨rfl, congrArg (List.cons (p, truth)) htruths, hs⟩

variable (hlike : setting.IsLike setting')

include hlike

theorem zoom_settle_matches (n : Node) : Effect.Matches (Trial.Matches rel)
    (Effect.zoom Trial.toHearing (fun hearing trial => { trial with toHearing := hearing })
      (setting.settle n))
    (Effect.zoom Trial.toHearing (fun hearing trial => { trial with toHearing := hearing })
      (setting'.settle n)) := by
  have hsettle : Effect.Matches (Hearing.Matches rel) (setting.settle n) (setting'.settle n) :=
    settle_congr Effect.matches_isCongruence (truth_matches h) hlike.exit n
  exact hsettle.zoom (fun _ _ h => h.1) fun _ _ _ _ h h' => ⟨h', h.2⟩

omit h

theorem start_matches : Effect.Matches (Trial.Matches rel) (setting.start fuel)
    (setting'.start fuel) := by
  rintro ⟨hearing, a⟩ ⟨hearing', a'⟩ ⟨hhearing, rfl⟩
  rw [start, start, bind_apply, bind_apply, get_apply, get_apply]
  dsimp only
  rw [hlike.outer, hlike.net, hlike.exit, hlike.decision]
  cases a.start? setting'.outer with
  | some id => exact ⟨rfl, hhearing, rfl⟩
  | none =>
    dsimp only
    rw [bind_apply, bind_apply, Effect.ofExcept_apply, Effect.ofExcept_apply]
    cases startFrontier setting'.grammar.toNetwork setting'.exit fuel setting'.decision
      setting'.outer with
    | error fault => exact ⟨rfl, hhearing, rfl⟩
    | ok f => exact ⟨rfl, hhearing, rfl⟩

theorem next_matches (id : Nat) (type : Int) : Effect.Matches (Trial.Matches rel)
    (setting.next fuel id type) (setting'.next fuel id type) := by
  rintro ⟨hearing, a⟩ ⟨hearing', a'⟩ ⟨hhearing, rfl⟩
  rw [next, next, bind_apply, bind_apply, get_apply, get_apply]
  dsimp only
  rw [hlike.net, hlike.exit]
  cases a.edge? id type with
  | some target => exact ⟨rfl, hhearing, rfl⟩
  | none =>
    dsimp only
    rw [bind_apply, bind_apply, Effect.ofExcept_apply, Effect.ofExcept_apply]
    cases nextFrontier setting'.grammar.toNetwork setting'.exit fuel (a.node id).frontier type with
    | error fault => exact ⟨rfl, hhearing, rfl⟩
    | ok f => exact ⟨rfl, hhearing, rfl⟩

include h

theorem follow_matches (tokens : List Token) (id stop lookahead : Nat) :
    Effect.Matches (Trial.Matches rel)
      (setting.follow fuel options tokens id stop lookahead)
      (setting'.follow fuel options tokens id stop lookahead) := by
  have hR : Effect.IsCongruence fun _ => Effect.Matches (Trial.Matches rel) :=
    Effect.matches_isCongruence
  induction tokens generalizing id stop lookahead with
  | nil =>
    rw [follow, follow]
    refine .get_bind fun trial trial' htrial => ?_
    rw [htrial.2]
    refine hR.bind (zoom_settle_matches h hlike _) (fun settled => ?_) trial trial' htrial
    cases settled with
    | some outcome => exact hR.pure _
    | none =>
      dsimp only
      split
      · exact hR.pure _
      · exact .ofExcept (.error _)
  | cons t rest ih =>
    rw [follow, follow]
    refine .get_bind fun trial trial' htrial => ?_
    rw [htrial.2]
    refine hR.bind (zoom_settle_matches h hlike _) (fun settled => ?_) trial trial' htrial
    cases settled with
    | some outcome => exact hR.pure _
    | none =>
      dsimp only
      split
      · exact hR.pure _
      · exact hR.bind (next_matches hlike id t.type) fun target => ih target t.index (lookahead + 1)

theorem run_matches : Effect.Matches (Trial.Matches rel) (setting.run fuel options)
    (setting'.run fuel options) := by
  rw [run, run, hlike.input]
  exact Effect.matches_isCongruence.bind (start_matches hlike) fun id =>
    follow_matches h hlike _ id _ 0

end Setting

/-- The prediction that is come to by an outcome, the place of the last token looked at and the
    number of tokens. -/
def Setting.prediction (setting : Setting σ) (r : Outcome × Nat × Nat) : Prediction where
  outcome := r.1
  decision := setting.number
  rule := setting.decision.rule
  start := setting.input.position
  stop := r.2.1
  lookahead := r.2.2

namespace Grammar

variable {g : Grammar σ} {g' : Grammar τ} {rel : σ → τ → Prop} {id : StateId} {input : Input}
  {stack stack' : Stack} {fuel : Nat} {options : PredictOptions} {cache : Cache} {host : σ}

theorem predictAt_of_run {setting : Setting σ} {a : Automaton} {r : Outcome × Nat × Nat}
    {trial : Trial σ} (hs : g.setting id input stack = .ok setting)
    (ha : options.automaton cache setting.number id = .ok a)
    (hrun : setting.run fuel options { automaton := a, host } = (.ok r, trial)) :
    g.predictAt fuel options id input stack (cache, host) = (.ok (setting.prediction r),
      if options.useCache then cache.update setting.number trial.automaton else cache,
      trial.host) := by
  obtain ⟨_, _, _, _, _, rfl⟩ := setting_eq_ok hs
  rw [predictAt_of_ok hs ha, hrun]
  rfl

/-- A prediction has come to its result with an automaton. -/
theorem exists_run_of_predictAt {p : Prediction}
    (h : (g.predictAt fuel options id input stack (cache, host)).1 = .ok p) :
    ∃ setting a r trial, g.setting id input stack = .ok setting ∧
      options.automaton cache setting.number id = .ok a ∧
      setting.run fuel options { automaton := a, host } = (.ok r, trial) ∧
      p = setting.prediction r := by
  obtain ⟨fault, hfault⟩ | ⟨setting, a, hs, ha⟩ :=
    g.predictAt_cases fuel options id input stack cache host
  · rw [hfault] at h
    cases h
  · obtain ⟨_, _, _, _, _, rfl⟩ := setting_eq_ok hs
    rw [predictAt_of_ok hs ha] at h
    obtain ⟨r, hr, rfl⟩ := Except.exists_of_map h
    exact ⟨setting, a, r, _, hs, ha, Prod.ext hr rfl, rfl⟩

/-- Grammars of one network are predicted with alike in stacks of one context. -/
theorem setting_relates (hnet : g.toNetwork = g'.toNetwork)
    (hcontext : stack.context = stack'.context) :
    Except.Relates (fun setting setting' => setting.IsLike setting' ∧ setting.grammar = g ∧
        setting'.grammar = g' ∧ setting.frame = stack.frames.head? ∧
        setting'.frame = stack'.frames.head? ∧ setting.input = input)
      (g.setting id input stack) (g'.setting id input stack') := by
  rw [setting, setting, hnet]
  cases g'.state id with
  | error fault => exact .error fault
  | ok s =>
    rw [Except.ok_bind_eq, Except.ok_bind_eq]
    cases s.decision with
    | none => exact .error _
    | some number =>
      dsimp only
      cases LoopExit.ofState g'.toNetwork s with
      | error fault => exact .error fault
      | ok exit => exact .ok ⟨⟨hnet, rfl, rfl, rfl, hcontext, rfl⟩, rfl, rfl, rfl, rfl, rfl⟩

/-- Predictions are made in lockstep, with one cache, where evaluating predicates is. -/
theorem predictAt_matches (hnet : g.toNetwork = g'.toNetwork)
    (hcontext : stack.context = stack'.context)
    (h : ∀ p, Effect.Matches rel (g.speculate stack.frames.head? input p)
      (g'.speculate stack'.frames.head? input p)) :
    Effect.Matches (fun (s : Cache × σ) (t : Cache × τ) => s.1 = t.1 ∧ rel s.2 t.2)
      (g.predictAt fuel options id input stack) (g'.predictAt fuel options id input stack') := by
  rintro ⟨cache, host⟩ ⟨_, host'⟩ ⟨rfl, hhost⟩
  have hrelates : Except.Relates _ (g.setting id input stack) (g'.setting id input stack') :=
    setting_relates hnet hcontext
  revert hrelates
  rcases hs : g.setting id input stack with fault | setting <;>
    rcases hs' : g'.setting id input stack' with fault' | setting' <;>
    rintro (⟨hlike, rfl, rfl, hframe, hframe', rfl⟩ | _)
  · rw [predictAt_of_error hs, predictAt_of_error hs']
    exact ⟨rfl, rfl, hhost⟩
  · cases ha : options.automaton cache setting.number id with
    | error fault =>
      rw [predictAt_of_automaton_error hs ha,
        predictAt_of_automaton_error hs' (hlike.number ▸ ha)]
      exact ⟨rfl, rfl, hhost⟩
    | ok a =>
      rw [← hframe, ← hframe'] at h
      have hrun : Effect.Matches (Trial.Matches rel) (setting.run fuel options)
          (setting'.run fuel options) := Setting.run_matches (hlike.input ▸ h) hlike
      obtain ⟨hr, ⟨_, hhosts⟩, hautomaton⟩ :=
        hrun { automaton := a, host } { automaton := a, host := host' } ⟨⟨rfl, hhost⟩, rfl⟩
      rw [predictAt_of_ok hs ha, predictAt_of_ok hs' (hlike.number ▸ ha), hr, hautomaton,
        hlike.number, hlike.decision]
      exact ⟨rfl, rfl, hhosts⟩

end Grammar

end AdaptiveLL
