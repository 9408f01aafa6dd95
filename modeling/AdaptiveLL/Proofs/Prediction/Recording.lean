import AdaptiveLL.Proofs.Grammar.Substitution
import AdaptiveLL.Proofs.Prediction.Blame

/-!
# Which predicates a prediction evaluates

To see which predicates a prediction evaluates, and where, they are made to record it
(`Grammar.recorded`). A record makes no difference to the prediction
(`Grammar.predictAt_recorded_matches`), and what a prediction records is *disciplined*
(`IsDisciplined`): no predicate is there twice, each one has been evaluated speculatively where the
prediction starts, in the current invocation, and each one is crossed by this invocation without a
token (`Grammar.predictAt_isDisciplined`).
-/

namespace AdaptiveLL

open Effect

variable {σ : Type}

/-- An evaluation of a predicate: which one, and under which circumstances. -/
structure Inquiry where
  index : Int
  scene : Scene

/-- The predicate with a record of its evaluations, which the host keeps. -/
def Predicate.recorded (index : Int) (p : Predicate σ) : Predicate (σ × List Inquiry) where
  text := p.text
  test := some fun scene => do
    modify fun s => { s with host := (s.host.1, s.host.2 ++ [⟨index, scene⟩]) }
    Effect.zoom (fun s => ⟨s.locals, s.host.1⟩) (fun t s => ⟨t.locals, t.host, s.host.2⟩)
      (p.test.getD (fun _ => pure true) scene)
  onFailure := p.onFailure

/-- The grammar with a record of the predicates that are evaluated. -/
def Grammar.recorded (g : Grammar σ) : Grammar (σ × List Inquiry) :=
  g.withPredicates Predicate.recorded

theorem Predicate.evaluate_recorded (p : Predicate σ) (index : Int) (scene : Scene)
    (locals : Scope) (host : σ) (past : List Inquiry) :
    (p.recorded index).evaluate scene ⟨locals, host, past⟩ =
      ((p.evaluate scene ⟨locals, host⟩).1, ⟨(p.evaluate scene ⟨locals, host⟩).2.locals,
        (p.evaluate scene ⟨locals, host⟩).2.host, past ++ [⟨index, scene⟩]⟩) := by
  rw [evaluate, evaluate, recorded]
  dsimp only
  rw [bind_apply, modify_apply]
  dsimp only
  rw [Effect.zoom_apply]
  cases p.test with
  | none => rfl
  | some test =>
    rw [Option.getD_some]
    dsimp only
    rcases test scene ⟨locals, host⟩ with ⟨fault | truth, s⟩
    · cases fault <;> rfl
    · cases truth <;> rfl

/-- A predicate comes speculatively to what it does with a record, which says where it has been
    evaluated. -/
theorem Predicate.speculate_recorded (p : Predicate σ) (index : Int) (frame : Option Frame)
    (input : Input) (position : Nat) (host : σ) (past : List Inquiry) :
    (p.recorded index).speculate frame input position (host, past) =
      ((p.speculate frame input position host).1, (p.speculate frame input position host).2,
        past ++ [⟨index, { frame, input, position, speculative := true }⟩]) := by
  rw [speculate, speculate, zoom_apply, zoom_apply, evaluate_recorded]

/-- A predicate of the grammar that is evaluated speculatively is recorded. -/
theorem Grammar.speculate_recorded (g : Grammar σ) (frame : Option Frame) (input : Input)
    (index : Int) (host : σ) (past : List Inquiry) :
    g.recorded.speculate frame input index (host, past) =
      match g.predicate index with
      | .error fault => (.error fault, host, past)
      | .ok p =>
        ((p.speculate frame input input.position host).1,
          (p.speculate frame input input.position host).2, past ++
            [⟨index, { frame, input, position := input.position, speculative := true }⟩]) := by
  rw [speculate, bind_apply, ofExcept_apply, recorded, predicate_withPredicates]
  cases g.predicate index with
  | error fault => rfl
  | ok p => exact p.speculate_recorded index frame input input.position host past

/-! ## What is recorded -/

/-- Of what a prediction evaluates in an invocation, before an input: no predicate twice, each one
    speculatively where the prediction starts, and only such as the invocation crosses without a
    token from one of the alternatives of the decision. -/
structure IsDisciplined (net : Network) (decision : State) (frame : Option Frame) (input : Input)
    (inquiries : List Inquiry) : Prop where
  nodup : (inquiries.map Inquiry.index).Nodup
  scene : ∀ e ∈ inquiries,
    e.scene = { frame, input, position := input.position, speculative := true }
  isCrossedAt : ∀ e ∈ inquiries, net.IsCrossedAt decision e.index

namespace IsDisciplined

variable {net : Network} {decision : State} {frame : Option Frame} {input : Input}
  {inquiries : List Inquiry}

theorem nil : IsDisciplined net decision frame input [] where
  nodup := .nil
  scene := nofun
  isCrossedAt := nofun

/-- One more predicate, which has not been evaluated yet. -/
theorem concat (h : IsDisciplined net decision frame input inquiries) {index : Int}
    (hnew : index ∉ inquiries.map Inquiry.index) (hcrossed : net.IsCrossedAt decision index) :
    IsDisciplined net decision frame input
      (inquiries ++ [⟨index, { frame, input, position := input.position, speculative := true }⟩])
    where
  nodup := by
    rw [List.map_append, List.nodup_append']
    exact ⟨h.nodup, List.nodup_singleton _, List.disjoint_singleton.2 hnew⟩
  scene e he := by
    rcases List.mem_append.1 he with he | he
    · exact h.scene e he
    · rw [List.mem_singleton.1 he]
  isCrossedAt e he := by
    rcases List.mem_append.1 he with he | he
    · exact h.isCrossedAt e he
    · rwa [List.mem_singleton.1 he]

end IsDisciplined

namespace Setting

variable (setting : Setting (σ × List Inquiry)) (past : List Inquiry)

/-- Behind what had been recorded before, a prediction has recorded what is disciplined. -/
def Records (hearing : Hearing (σ × List Inquiry)) : Prop :=
  ∃ inquiries, hearing.host.2 = past ++ inquiries ∧
    IsDisciplined setting.grammar.toNetwork setting.decision setting.frame setting.input inquiries

/-- It has done so and knows what the predicates have come to that it has evaluated. -/
def RecordsKnown (hearing : Hearing (σ × List Inquiry)) : Prop :=
  ∃ inquiries, hearing.host.2 = past ++ inquiries ∧
    IsDisciplined setting.grammar.toNetwork setting.decision setting.frame setting.input
      inquiries ∧
    ∀ e ∈ inquiries, hearing.truths.lookup e.index ≠ none

variable {setting past}

theorem RecordsKnown.records {hearing : Hearing (σ × List Inquiry)}
    (h : setting.RecordsKnown past hearing) : setting.Records past hearing := by
  obtain ⟨inquiries, hhost, hdisciplined, _⟩ := h
  exact ⟨inquiries, hhost, hdisciplined⟩

variable {g : Grammar σ} (hg : setting.grammar = g.recorded)

include hg

/-- A predicate is recorded when it is evaluated, so once at most. -/
theorem truth_records {index : Int}
    (hcrossed : setting.grammar.toNetwork.IsCrossedAt setting.decision index)
    (hearing : Hearing (σ × List Inquiry)) (h : setting.RecordsKnown past hearing) :
    IsSafe (fun _ => setting.RecordsKnown past) (fun _ => setting.Records past)
      (setting.truth index hearing) := by
  rw [truth_apply]
  cases hl : hearing.truths.lookup index with
  | some truth => exact h
  | none =>
    dsimp only
    obtain ⟨inquiries, hhost, hdisciplined, hknown⟩ := h
    -- All that is recorded is known, and this predicate is not.
    have hnew : index ∉ inquiries.map Inquiry.index := by
      intro hmem
      obtain ⟨e, he, rfl⟩ := List.mem_map.1 hmem
      exact hknown e he hl
    obtain ⟨truths, host, log⟩ := hearing
    obtain rfl : log = past ++ inquiries := hhost
    rw [evaluate_apply, hg, Grammar.speculate_recorded]
    cases g.predicate index with
    | error fault => exact ⟨inquiries, rfl, hdisciplined⟩
    | ok p =>
      dsimp only
      have hdisciplined' := hdisciplined.concat hnew hcrossed
      rcases p.speculate setting.frame setting.input setting.input.position host with
        ⟨fault | truth, host'⟩
      · exact ⟨_, List.append_assoc past inquiries _, hdisciplined'⟩
      · refine ⟨_, List.append_assoc past inquiries _, hdisciplined', fun e he => ?_⟩
        show List.lookup e.index ((index, truth) :: truths) ≠ none
        rw [List.lookup_cons]
        split
        · exact Option.some_ne_none _
        · next hne =>
          obtain he | he := List.mem_append.1 he
          · exact hknown e he
          · rw [List.mem_singleton.1 he, beq_self_eq_true] at hne
            cases hne

/-- Settling a decision under guards that it has made records only predicates that its invocation
    crosses. -/
theorem settle_records (n : Node)
    (hn : ∀ c ∈ n.frontier.items,
      c.guard.IsMadeAt setting.grammar.toNetwork setting.decision)
    (hearing : Hearing (σ × List Inquiry)) (h : setting.RecordsKnown past hearing) :
    IsSafe (fun _ => setting.RecordsKnown past) (fun _ => setting.Records past)
      (setting.settle n hearing) := by
  have hG : IsGuarantee fun _ Q (e : Effect (Hearing (σ × List Inquiry)) _) =>
      ∀ hearing, setting.RecordsKnown past hearing →
        IsSafe (fun a hearing => Q a ∧ setting.RecordsKnown past hearing)
          (fun _ => setting.Records past) (e hearing) := keeps_isGuarantee _ _
  have htruth : ∀ c ∈ n.frontier.items, ∀ index ∈ c.guard.predicates,
      ∀ hearing, setting.RecordsKnown past hearing →
        IsSafe (fun _ hearing => True ∧ setting.RecordsKnown past hearing)
          (fun _ => setting.Records past) (setting.truth index hearing) :=
    fun c hc index hindex hearing h =>
      (truth_records hg ((hn c hc).isCrossedAt index hindex) hearing h).mono fun _ _ h =>
        ⟨trivial, h⟩
  have hsettle := hG.settle (P := fun _ => True) htruth trivial (fun _ _ => trivial)
    (fun _ _ _ _ => trivial) (fun _ _ => trivial)
  exact (hsettle hearing h).mono fun _ _ h => h.2

/-- A prediction records what is disciplined, even if a fault ends it. -/
theorem run_records {fuel : Nat} {options : PredictOptions} {automaton : Automaton} {host : σ}
    (ha : automaton.Obeys
      (Automaton.originLaw setting.grammar.toNetwork setting.decision)) :
    setting.Records past
      (setting.run fuel options { automaton, host := (host, past) }).2.toHearing :=
  (run_keeps_origin (fun _ => RecordsKnown.records) (settle_records hg) ha
    ⟨[], (List.append_nil past).symm, .nil, nofun⟩).2

end Setting

namespace Grammar

variable {g : Grammar σ} {cache : Cache} {id : StateId} {s : State}

/-- A prediction that is recorded is the one that is not, but for what is recorded. -/
theorem predictAt_recorded_matches (g : Grammar σ) (fuel : Nat) (options : PredictOptions)
    (id : StateId) (input : Input) (stack : Stack) :
    Effect.Matches (fun (s : Cache × σ × List Inquiry) (t : Cache × σ) => s.1 = t.1 ∧ s.2.1 = t.2)
      (g.recorded.predictAt fuel options id input stack)
      (g.predictAt fuel options id input stack) := by
  have hspeculate (index : Int) :
      Effect.Matches (fun (s : σ × List Inquiry) host => s.1 = host)
        (g.recorded.speculate stack.frames.head? input index)
        (g.speculate stack.frames.head? input index) := by
    rintro ⟨host, past⟩ _ rfl
    rw [speculate_recorded, speculate, bind_apply, ofExcept_apply]
    cases g.predicate index with
    | error fault => exact ⟨rfl, rfl⟩
    | ok p => exact ⟨rfl, rfl⟩
  have hnet : g.recorded.toNetwork = g.toNetwork := rfl
  exact predictAt_matches hnet rfl hspeculate

/-- What a prediction records is disciplined, with every cache that predictions have led to. -/
theorem predictAt_records (hg : g.IsBuilt) (hcache : cache.IsReachable g fun _ _ => True)
    (hs : g.state id = .ok s) (fuel : Nat) (options : PredictOptions) (input : Input)
    (stack : Stack) (host : σ) (past : List Inquiry) :
    ∃ inquiries,
      (g.recorded.predictAt fuel options id input stack (cache, host, past)).2.2.2 =
        past ++ inquiries ∧
      IsDisciplined g.toNetwork s stack.frames.head? input inquiries := by
  cases hset : g.recorded.setting id input stack with
  | error fault =>
    rw [predictAt_of_error hset]
    exact ⟨[], (List.append_nil past).symm, .nil⟩
  | ok setting =>
    obtain ⟨hgrammar, hs', hnumber, hexit, _, rfl⟩ := setting_eq_ok hset
    obtain rfl := Except.ok.inj (hs.symm.trans hs')
    obtain ⟨a, ha, hobeys⟩ := (hcache.obeys_originLaw hg.isSound).exists_automaton hg.isSound hs
      hnumber hexit (Automaton.obeys_empty _ _ _) options
    have hnet : setting.grammar.toNetwork = g.toNetwork := congrArg Grammar.toNetwork hgrammar
    rw [predictAt_of_ok hset ha, ← setting_frame hset, ← hnet]
    exact Setting.run_records hgrammar (hnet ▸ hobeys)

/-- What a prediction evaluates is disciplined, with every cache that predictions have led to: with
    a record of it, the prediction is the same, and behind what had been recorded before there is
    what is disciplined. -/
theorem predictAt_isDisciplined (hg : g.IsBuilt) (hcache : cache.IsReachable g fun _ _ => True)
    (hs : g.state id = .ok s) (fuel : Nat) (options : PredictOptions) (input : Input)
    (stack : Stack) (host : σ) (past : List Inquiry) {r : Except Fault Prediction}
    {cache' : Cache} {host' : σ}
    (h : g.predictAt fuel options id input stack (cache, host) = (r, cache', host')) :
    ∃ inquiries,
      g.recorded.predictAt fuel options id input stack (cache, host, past) =
        (r, cache', host', past ++ inquiries) ∧
      IsDisciplined g.toNetwork s stack.frames.head? input inquiries := by
  obtain ⟨inquiries, hrecords, hdisciplined⟩ :=
    predictAt_records hg hcache hs fuel options input stack host past
  obtain ⟨hr, hcache, hhost⟩ := g.predictAt_recorded_matches fuel options id input stack
    (cache, host, past) (cache, host) ⟨rfl, rfl⟩
  rw [h] at hr hcache hhost
  exact ⟨inquiries, Prod.ext hr (Prod.ext hcache (Prod.ext hhost hrecords)), hdisciplined⟩

/-- All three predicates are evaluated, once each. -/
theorem mixed_predictAt_isDisciplined : ∃ inquiries,
    (mixed.recorded.predictAt 40 {} 14 (.ofTypes [1]) {}
      (.ofNetwork mixed.toNetwork, (), [])).2.2.2 = inquiries ∧
    inquiries.map Inquiry.index = [0, 1, 2] ∧
    IsDisciplined mixed.toNetwork mixedSetting.decision none (.ofTypes [1]) inquiries := by
  have hindices : (mixed.recorded.predictAt 40 {} 14 (.ofTypes [1]) {}
      (.ofNetwork mixed.toNetwork, (), [])).2.2.2.map Inquiry.index = [0, 1, 2] := by
    decide +kernel
  obtain ⟨_, _, _, hstate, _⟩ := mixed_eq
  rcases h : mixed.predictAt 40 {} 14 (.ofTypes [1]) {} (.ofNetwork mixed.toNetwork, ()) with
    ⟨r, cache, host⟩
  obtain ⟨inquiries, hrecorded, hdisciplined⟩ :=
    predictAt_isDisciplined isBuilt_mixed.1 .new hstate 40 {} (.ofTypes [1]) {} () [] h
  rw [hrecorded] at hindices ⊢
  exact ⟨inquiries, rfl, hindices, hdisciplined⟩

end Grammar

end AdaptiveLL
