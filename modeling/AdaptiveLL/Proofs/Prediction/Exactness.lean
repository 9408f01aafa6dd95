import AdaptiveLL.Proofs.Prediction.Tracking
import AdaptiveLL.Proofs.Prediction.Transparency

/-!
# Predictions are exact

At a decision that is not that of a non-greedy loop, a prediction looks as far
ahead as it takes to know which alternatives accept the input, up to its end and
in the callers as well (`Outcome.IsExact`): it finds no viable alternative only if
none accepts, predicts one only if no other one accepts, and finds alternatives
ambiguous only if they cannot be told apart.

* `Verdict.isExact`: so is a verdict on configurations, if an alternative accepts
  where one of its configurations does.
* `Setting.simulateFrom_isExact`: so is what is come to from a frontier that tracks
  what has been looked at.
* `Grammar.predictAt_isExact`: so is a prediction with a sound automaton.
-/

namespace AdaptiveLL

variable {σ : Type}

/-- An outcome says nothing wrong about which alternatives accept. -/
def Outcome.IsExact (accepts : Int → Prop) : Outcome → Prop
  | noViableAlt => ∀ alt, ¬accepts alt
  | predicted alt => ∀ other, accepts other → other = alt
  | ambiguous alt alts => alts.Pairwise (· < ·) ∧ 2 ≤ alts.length ∧ alt ∈ alts ∧
      (∀ other ∈ alts, alt ≤ other) ∧ (∀ other, accepts other → other ∈ alts) ∧
        ∀ a ∈ alts, ∀ b ∈ alts, accepts a → accepts b
  | failedPredicate _ | aborted => False

/-- An outcome that is exact takes an alternative that accepts, if there is one. -/
theorem Outcome.IsExact.exists_alt {outcome : Outcome} {accepts : Int → Prop}
    (h : outcome.IsExact accepts) {alt : Int} (hacc : accepts alt) :
    ∃ taken, outcome.alt? = some taken ∧ accepts taken := by
  cases outcome with
  | noViableAlt => exact absurd hacc (h alt)
  | predicted taken => exact ⟨taken, rfl, h alt hacc ▸ hacc⟩
  | ambiguous taken alts =>
    obtain ⟨_, _, hmem, _, hall, hsame⟩ := h
    exact ⟨taken, rfl, hsame alt (hall alt hacc) taken hmem hacc⟩
  | failedPredicate => exact h.elim
  | aborted => exact h.elim

/-! ## Verdicts -/

theorem mem_altsOf {configs : List Config} {alt : Int} :
    alt ∈ Frontier.altsOf configs ↔ ∃ c ∈ configs, c.alt = alt := by
  rw [Frontier.altsOf, Ascending.mem_ofList, List.mem_map]

theorem mem_altsAt {configs : List Config} {place : List Int} {alt : Int} :
    alt ∈ altsAt configs place ↔ ∃ c ∈ configs, c.place = place ∧ c.alt = alt := by
  rw [altsAt, mem_altsOf]
  simp only [List.mem_filter, beq_iff_eq, and_assoc]

theorem Config.point_eq_of_place {c d : Config} (h : c.place = d.place) : c.point = d.point := by
  have heq := place_eq_iff.1 h
  rw [Bool.and_eq_true, beq_iff_eq, beq_iff_eq] at heq
  exact Point.mk.injEq .. |>.mpr heq

/-- Alternatives that cannot be told apart are those at every place. -/
theorem indistinguishable_eq_iff {configs : List Config} {alts : List Int} (hne : alts ≠ []) :
    indistinguishable configs = alts ↔
      configs ≠ [] ∧ 2 ≤ alts.length ∧ ∀ c ∈ configs, altsAt configs c.place = alts := by
  cases configs with
  | nil => exact ⟨fun h => absurd h.symm hne, fun h => absurd rfl h.1⟩
  | cons c rest =>
    rw [indistinguishable]
    simp only [altsByPlace_getD, List.all_eq_true, beq_iff_eq]
    split
    · next hall =>
      constructor
      · rintro rfl
        exact ⟨List.cons_ne_nil _ _, hall⟩
      · exact fun h => h.2.2 c List.mem_cons_self
    · next hall =>
      refine ⟨fun h => absurd h.symm hne, fun h => absurd ?_ hall⟩
      rw [h.2.2 c List.mem_cons_self]
      exact h.2

theorem altsAt_of_indistinguishable {configs : List Config} {least : Int} {others : List Int}
    (h : indistinguishable configs = least :: others) :
    2 ≤ (least :: others).length ∧ ∀ c ∈ configs, altsAt configs c.place = least :: others :=
  ((indistinguishable_eq_iff (List.cons_ne_nil _ _)).1 h).2

theorem pairwise_altsOf (configs : List Config) : (Frontier.altsOf configs).Pairwise (· < ·) :=
  Ascending.pairwise_ofList _

theorem pairwise_indistinguishable (configs : List Config) :
    (indistinguishable configs).Pairwise (· < ·) := by
  cases h : indistinguishable configs with
  | nil => exact .nil
  | cons least others =>
    obtain ⟨hconfigs, _, hall⟩ := (indistinguishable_eq_iff (List.cons_ne_nil _ _)).1 h
    obtain ⟨c, hc⟩ := List.exists_mem_of_ne_nil configs hconfigs
    rw [← hall c hc]
    exact pairwise_altsOf _

/-- The first one of ascending numbers is the least. -/
theorem le_of_pairwise_cons {a : Int} {l : List Int} (h : (a :: l).Pairwise (· < ·)) :
    ∀ b ∈ a :: l, a ≤ b := by
  intro b hb
  rcases List.mem_cons.1 hb with rfl | hb
  · exact le_rfl
  · exact (List.rel_of_pairwise_cons h hb).le

section

variable {configs : List Config} {accepts : Int → Prop} {live : Point → Prop}
  (haccepts : ∀ alt, accepts alt ↔ ∃ c ∈ configs, c.alt = alt ∧ live c.point)

include haccepts

/-- Of alternatives that cannot be told apart, all accept or none does. -/
theorem isExact_of_indistinguishable {least : Int} {others : List Int}
    (h : indistinguishable configs = least :: others) :
    (Outcome.ambiguous least (least :: others)).IsExact accepts := by
  obtain ⟨hlen, hplaces⟩ := altsAt_of_indistinguishable h
  have hpair : (least :: others).Pairwise (· < ·) := h ▸ pairwise_indistinguishable configs
  refine ⟨hpair, hlen, List.mem_cons_self, le_of_pairwise_cons hpair, fun other ho => ?_,
    fun a _ b hb ha => ?_⟩
  · obtain ⟨c, hc, halt, _⟩ := (haccepts other).1 ho
    rw [← hplaces c hc]
    exact mem_altsAt.2 ⟨c, hc, rfl, halt⟩
  · -- Where the one alternative accepts, the other one has a configuration as well.
    obtain ⟨c, hc, _, hlive⟩ := (haccepts a).1 ha
    rw [← hplaces c hc] at hb
    obtain ⟨d, hd, hdc, rfl⟩ := mem_altsAt.1 hb
    exact (haccepts _).2 ⟨d, hd, rfl, Config.point_eq_of_place hdc ▸ hlive⟩

/-- Behind the end of the input, all alternatives accept that have a configuration
    left. -/
theorem isExact_of_live {alt : Int} {alts : List Int} (hne : alts ≠ [])
    (h : Frontier.altsOf configs = alt :: alts) (hlive : ∀ c ∈ configs, live c.point) :
    (Outcome.ambiguous alt (alt :: alts)).IsExact accepts := by
  have hpair : (alt :: alts).Pairwise (· < ·) := h ▸ pairwise_altsOf configs
  have hlen : 2 ≤ (alt :: alts).length := by
    rw [List.length_cons]
    have := List.length_pos_iff.2 hne
    omega
  refine ⟨hpair, hlen, List.mem_cons_self, le_of_pairwise_cons hpair, fun other ho => ?_,
    fun a _ b hb _ => ?_⟩
  · obtain ⟨c, hc, halt, _⟩ := (haccepts other).1 ho
    rw [← h]
    exact mem_altsOf.2 ⟨c, hc, halt⟩
  · rw [← h] at hb
    obtain ⟨d, hd, rfl⟩ := mem_altsOf.1 hb
    exact (haccepts _).2 ⟨d, hd, rfl, hlive d hd⟩

/-- A verdict is exact if an alternative accepts where one of its configurations
    does, and behind the end of the input if it has a configuration left. -/
theorem Verdict.isExact {exit : LoopExit} (hx : exit.active = false) {afterEnd : Bool} {v : Verdict}
    (h : Verdict.ofConfigs? exit afterEnd configs = some v)
    (hend : afterEnd = true → ∀ c ∈ configs, live c.point) :
    (Outcome.ofVerdict v).IsExact accepts := by
  rw [ofConfigs?, reached?_of_inactive hx] at h
  dsimp only at h
  split at h
  · cases h
  · next alt halts =>
    cases h
    intro other ho
    obtain ⟨c, hc, halt, _⟩ := (haccepts other).1 ho
    have hmem : other ∈ Frontier.altsOf configs := mem_altsOf.2 ⟨c, hc, halt⟩
    simpa [halts] using hmem
  · next alt alts hne halts =>
    split at h
    · next least others hind =>
      cases h
      exact isExact_of_indistinguishable haccepts hind
    · split at h
      · next hafter =>
        cases h
        exact isExact_of_live haccepts (fun hnil => hne (hnil ▸ rfl)) halts (hend hafter)
      · cases h

end

/-! ## Simulations -/

namespace Setting

variable {setting : Setting σ} {fuel : Nat} {options : PredictOptions} {f : Frontier}
  {w : List Int} {stop lookahead : Nat} {hearing hearing' : Hearing σ} {afterEnd : Bool}

/-- A frontier that tracks a word settles the decision without predicates. -/
theorem settle_of_unguarded (hf : f.guarded = false) (afterEnd : Bool) (hearing : Hearing σ) :
    setting.settle (.ofFrontier setting.exit afterEnd f) hearing =
      (.ok (if f.isEmpty then some .noViableAlt
        else (Verdict.ofConfigs? setting.exit afterEnd f.items).map Outcome.ofVerdict),
        hearing) := by
  have hnode : Node.ofFrontier setting.exit afterEnd f =
      { frontier := f, afterEnd, verdict := Verdict.ofConfigs? setting.exit afterEnd f.items } := by
    rw [Node.ofFrontier, hf]
    rfl
  rw [hnode, settle]
  dsimp only
  split
  · rfl
  · rfl

theorem exists_settle (setting : Setting σ) (hf : f.guarded = false) (afterEnd : Bool)
    (hearing : Hearing σ) : ∃ settled,
      setting.settle (.ofFrontier setting.exit afterEnd f) hearing = (.ok settled, hearing) :=
  ⟨_, settle_of_unguarded hf afterEnd hearing⟩

/-- Behind the end of the input, a frontier settles the decision. -/
theorem exists_settle_afterEnd (setting : Setting σ) (hf : f.guarded = false)
    (hearing : Hearing σ) : ∃ outcome,
      setting.settle (.ofFrontier setting.exit true f) hearing = (.ok (some outcome), hearing) := by
  obtain ⟨settled, h⟩ := setting.exists_settle hf true hearing
  cases settled with
  | none => exact absurd (congrArg Prod.fst h) (settle_afterEnd f hearing)
  | some outcome => exact ⟨outcome, h⟩

/-- What is come to from a frontier without guards: either it settles the decision, or it leaves
    it open and the next token leads on. -/
theorem simulateFrom_cases {tokens : List Token} {outcome : Outcome} {place : Nat × Nat}
    (hstops : options.stops lookahead = false) (hf : f.guarded = false)
    (h : (setting.simulateFrom fuel options tokens afterEnd f stop lookahead hearing).1 =
      .ok (outcome, place)) :
    (setting.settle (.ofFrontier setting.exit afterEnd f) hearing = (.ok (some outcome), hearing) ∧
      place = (stop, lookahead)) ∨
    ∃ t rest g, tokens = t :: rest ∧
      setting.settle (.ofFrontier setting.exit afterEnd f) hearing = (.ok none, hearing) ∧
      nextFrontier setting.grammar.toNetwork setting.exit fuel f t.type = .ok g ∧
      (setting.simulateFrom fuel options rest (t.type == Token.endOfInput) g t.index (lookahead + 1)
        hearing).1 = .ok (outcome, place) := by
  obtain ⟨settled, hr⟩ := setting.exists_settle hf afterEnd hearing
  cases settled with
  | some outcome' =>
    rw [simulateFrom_of_settled hr] at h
    cases h
    exact .inl ⟨hr, rfl⟩
  | none =>
    rw [simulateFrom_of_open hr hstops] at h
    cases tokens with
    | nil => cases h
    | cons t rest =>
      dsimp only at h
      cases hg : nextFrontier setting.grammar.toNetwork setting.exit fuel f t.type with
      | error fault =>
        rw [hg] at h
        cases h
      | ok g =>
        rw [hg] at h
        exact .inr ⟨t, rest, g, rfl, hr, hg, h⟩

/-- What a frontier settles the decision by is exact, if its configurations tell
    which alternatives accept. -/
theorem isExact_of_settle (hx : setting.exit.active = false) (live : Point → Prop)
    (hf : f.guarded = false) {accepts : Int → Prop}
    (haccepts : ∀ alt, accepts alt ↔ ∃ c ∈ f.items, c.alt = alt ∧ live c.point)
    (hend : afterEnd = true → ∀ c ∈ f.items, live c.point) {outcome : Outcome}
    {hearing hearing' : Hearing σ}
    (h : setting.settle (.ofFrontier setting.exit afterEnd f) hearing =
      (.ok (some outcome), hearing')) : outcome.IsExact accepts := by
  rw [settle_of_unguarded hf] at h
  have houtcome := Except.ok.inj (congrArg Prod.fst h)
  split at houtcome
  · next hempty =>
    cases houtcome
    intro alt ha
    obtain ⟨c, hc, _⟩ := (haccepts alt).1 ha
    rw [List.isEmpty_iff.1 hempty] at hc
    cases hc
  · obtain ⟨v, hv, rfl⟩ := Option.map_eq_some_iff.1 houtcome
    exact Verdict.isExact haccepts hx hv hend

/-- What a frontier settles the decision by before the end of the input is exact,
    whatever follows. -/
theorem isExact_of_settle_tracks (hx : setting.exit.active = false)
    (hf : f.Tracks setting.grammar.toNetwork setting.decision setting.outer w) {outcome : Outcome}
    (h : setting.settle (.ofFrontier setting.exit false f) hearing = (.ok (some outcome), hearing'))
    (v : List Int) : outcome.IsExact
      (AltAccepts setting.grammar.toNetwork setting.decision setting.outer (w ++ v)) := by
  let live (p : Point) : Prop := setting.grammar.toNetwork.Accepts p v
  refine isExact_of_settle hx live hf.unguarded (fun _ => hf.altAccepts_iff) (fun hend => ?_) h
  cases hend

section

variable (hx : setting.exit.active = false)
  (hend : EndsWithInput setting.grammar.toNetwork setting.decision setting.outer)
  (hmatch : setting.grammar.toNetwork.IsMatchable)

include hx hend hmatch

/-- What a frontier settles the decision by behind the end of the input is exact: the
    alternatives that are left have accepted. -/
theorem isExact_of_settle_afterEnd {g : Frontier} {outcome : Outcome}
    (hf : f.Tracks setting.grammar.toNetwork setting.decision setting.outer w)
    (hg : nextFrontier setting.grammar.toNetwork setting.exit fuel f Token.endOfInput = .ok g)
    (h : setting.settle (.ofFrontier setting.exit true g) hearing =
      (.ok (some outcome), hearing')) :
    outcome.IsExact (AltAccepts setting.grammar.toNetwork setting.decision setting.outer w) := by
  let live (_ : Point) : Prop := True
  refine isExact_of_settle hx live (hf.isTrivial_next hg).2 (fun alt => ?_)
    (fun _ _ _ => trivial) h
  rw [hf.altAccepts_end_iff hx hend hmatch hg]
  simp only [live, and_true]

variable (hstops : ∀ lookahead, options.stops lookahead = false)

include hstops

/-- What is come to from a frontier that tracks the tokens looked at is exact. -/
theorem simulateFrom_isExact {tokens : List Token}
    (hf : f.Tracks setting.grammar.toNetwork setting.decision setting.outer w)
    {outcome : Outcome} {place : Nat × Nat}
    (h : (setting.simulateFrom fuel options tokens false f stop lookahead hearing).1 =
      .ok (outcome, place)) :
    outcome.IsExact (AltAccepts setting.grammar.toNetwork setting.decision setting.outer
      (w ++ Token.word tokens)) := by
  induction tokens generalizing f w stop lookahead hearing with
  | nil =>
    obtain ⟨hr, _⟩ | ⟨_, _, _, ⟨⟩, _⟩ := simulateFrom_cases (hstops _) hf.unguarded h
    exact isExact_of_settle_tracks hx hf hr _
  | cons t rest ih =>
    obtain ⟨hr, _⟩ | ⟨_, _, g, ⟨⟩, _, hg, h⟩ := simulateFrom_cases (hstops _) hf.unguarded h
    · exact isExact_of_settle_tracks hx hf hr _
    by_cases htype : t.type = Token.endOfInput
    · -- Behind the end of the input, the prediction goes no further.
      rw [htype] at hg h
      rw [Token.word_cons_of_end htype, List.append_nil]
      obtain ⟨outcome', hr'⟩ := setting.exists_settle_afterEnd (hf.isTrivial_next hg).2 hearing
      rw [beq_self_eq_true, simulateFrom_of_settled hr'] at h
      cases h
      exact isExact_of_settle_afterEnd hx hend hmatch hf hg hr'
    · rw [beq_false_of_ne htype] at h
      rw [Token.word_cons htype, List.append_cons]
      exact ih (hf.next hx htype hg) h

/-- A prediction without an automaton is exact. -/
theorem simulate_isExact (hguard : ∀ f, startFrontier setting.grammar.toNetwork setting.exit fuel
      setting.decision setting.outer = .ok f → f.guarded = false) {outcome : Outcome}
    {place : Nat × Nat} (h : (setting.simulate fuel options hearing).1 = .ok (outcome, place)) :
    outcome.IsExact (AltAccepts setting.grammar.toNetwork setting.decision setting.outer
      (Token.word setting.input.ahead)) := by
  rw [simulate] at h
  cases hf : startFrontier setting.grammar.toNetwork setting.exit fuel setting.decision
    setting.outer with
  | error fault =>
    rw [hf] at h
    cases h
  | ok f =>
    rw [hf, Effect.ofExcept_ok_bind] at h
    exact simulateFrom_isExact hx hend hmatch hstops (tracks_startFrontier hx hf (hguard f hf)) h

end

section

variable (hx : setting.exit.active = false)
  (hstops : ∀ lookahead, options.stops lookahead = false)
  (hnet : setting.grammar.toNetwork.IsClosed)
  (houter : ∀ id ∈ setting.outer, setting.grammar.toNetwork.HasState id)
  (hdecision : ∀ t ∈ setting.decision.transitions, setting.grammar.toNetwork.HasState t.target)

include hx hstops hnet houter hdecision

/-- In a network that is closed, something is come to at the end of the input at the
    latest. -/
theorem exists_simulateFrom {tokens : List Token}
    (hf : f.Tracks setting.grammar.toNetwork setting.decision setting.outer w)
    (hend : ∃ t ∈ tokens, t.isEnd = true)
    (hfuel : Suffices setting.grammar.toNetwork setting.exit fuel tokens f) :
    ∃ r, (setting.simulateFrom fuel options tokens false f stop lookahead hearing).1 = .ok r := by
  induction tokens generalizing f w stop lookahead with
  | nil =>
    obtain ⟨t, ht, _⟩ := hend
    cases ht
  | cons t rest ih =>
    obtain ⟨settled, hr⟩ := setting.exists_settle hf.unguarded false hearing
    cases settled with
    | some outcome => exact ⟨_, by rw [simulateFrom_of_settled hr]⟩
    | none =>
      rw [simulateFrom_of_open hr (hstops _)]
      dsimp only
      obtain ⟨g, hg⟩ := (nextFrontier_needsFuelOnly hnet fuel t.type
        (hf.isIn hnet houter hdecision)).exists_ok hfuel.1
      rw [hg]
      dsimp only
      by_cases htype : t.type = Token.endOfInput
      · obtain ⟨outcome, hr'⟩ := setting.exists_settle_afterEnd (hf.isTrivial_next hg).2 hearing
        rw [htype, beq_self_eq_true, simulateFrom_of_settled hr']
        exact ⟨_, rfl⟩
      · rw [beq_false_of_ne htype]
        refine ih (hf.next hx htype hg) ?_ (hfuel.2 g hg)
        obtain ⟨t', ht', he⟩ := hend
        rcases List.mem_cons.1 ht' with rfl | ht'
        · exact absurd (beq_iff_eq.1 he) htype
        · exact ⟨t', ht', he⟩

theorem exists_simulate (hguard : ∀ f, startFrontier setting.grammar.toNetwork setting.exit fuel
      setting.decision setting.outer = .ok f → f.guarded = false)
    (hend : setting.input.IsEnded) (hfuel : setting.HasFuel fuel) :
    ∃ r, (setting.simulate fuel options hearing).1 = .ok r := by
  have hstart : ∀ t ∈ setting.decision.transitions,
      setting.grammar.toNetwork.IsIn ⟨t.target, setting.outer⟩ :=
    fun t ht => ⟨hdecision t ht, houter⟩
  obtain ⟨f, hf⟩ := (startFrontier_needsFuelOnly hnet fuel hstart).exists_ok hfuel.1
  rw [simulate, hf, Effect.ofExcept_ok_bind]
  exact exists_simulateFrom hx hstops hnet houter hdecision
    (tracks_startFrontier hx hf (hguard f hf)) hend (hfuel.2 f hf)

end

end Setting

/-! ## Predictions -/

namespace Grammar

/-- Each state of a sound grammar is in a rule, whose end it treats somehow. -/
theorem IsSound.exists_exit {g : Grammar σ} (hg : g.IsSound) {id : StateId} {s : State}
    (hs : g.state id = .ok s) : ∃ exit, LoopExit.ofState g.toNetwork s = .ok exit := by
  obtain ⟨rule, hrule⟩ := hg.rule id s hs
  rw [LoopExit.ofState, hrule]
  exact ⟨_, rfl⟩

/-- At a decision of a sound grammar, a prediction can be set up. -/
theorem exists_setting {g : Grammar σ} (hg : g.IsSound) {id : StateId} {s : State}
    (hs : g.state id = .ok s) {number : Nat} (hn : s.decision = some number) (input : Input)
    (stack : Stack) : ∃ setting, g.setting id input stack = .ok setting ∧ setting.decision = s := by
  obtain ⟨exit, hexit⟩ := hg.exists_exit hs
  rw [setting, hs, Except.ok_bind_eq, hn]
  dsimp only
  rw [hexit]
  exact ⟨_, rfl, rfl⟩

section

variable {g : Grammar σ} {fuel : Nat} {options : PredictOptions} {id : StateId} {input : Input}
  {stack : Stack} {cache : Cache} {host : σ} {setting : Setting σ} {a : Automaton}
  {contexts : Set (List StateId)}

variable (h : g.setting id input stack = .ok setting)
  (ha : options.automaton cache setting.number id = .ok a)
  (hsound : a.IsSound setting.grammar.toNetwork setting.exit setting.decision contexts)
  (ho : setting.outer ∈ contexts) (hfuel : setting.HasFuel fuel)
  (hx : setting.exit.active = false) (hstops : ∀ lookahead, options.stops lookahead = false)
  (hguard : ∀ f, startFrontier setting.grammar.toNetwork setting.exit fuel
      setting.decision setting.outer = .ok f → f.guarded = false)

include h ha hsound ho hfuel hx hstops hguard

/-- A prediction with a sound automaton is exact. -/
theorem predictAt_isExact (hg : g.IsSound)
    (hend : EndsWithInput g.toNetwork setting.decision stack.context) {p : Prediction}
    (hp : (g.predictAt fuel options id input stack (cache, host)).1 = .ok p) :
    p.outcome.IsExact
      (AltAccepts g.toNetwork setting.decision stack.context (Token.word input.ahead)) := by
  rw [(predictAt_eq_simulate options host h ha (separates_of_inactive hx) ho hfuel hsound).1] at hp
  obtain ⟨rfl, _, _, _, houter, rfl⟩ := setting_eq_ok h
  rw [← houter] at hend ⊢
  cases hr : (setting.simulate fuel options { host }).1 with
  | error fault =>
    rw [hr] at hp
    cases hp
  | ok r =>
    rw [hr] at hp
    cases hp
    exact Setting.simulate_isExact hx hend hg.isMatchable hstops hguard hr

/-- A prediction with a sound automaton comes to an outcome, in a network that is
    closed. -/
theorem exists_predictAt (hnet : g.toNetwork.IsClosed)
    (hstack : ∀ id ∈ stack.context, g.toNetwork.HasState id)
    (hend : input.IsEnded) :
    ∃ p, (g.predictAt fuel options id input stack (cache, host)).1 = .ok p := by
  rw [(predictAt_eq_simulate options host h ha (separates_of_inactive hx) ho hfuel hsound).1]
  obtain ⟨rfl, hs, hn, _, houter, rfl⟩ := setting_eq_ok h
  rw [← houter] at hstack
  obtain ⟨r, hr⟩ := Setting.exists_simulate hx hstops hnet hstack
    (fun t ht => (hnet id setting.decision hs t ht).1) hguard hend hfuel
  rw [hr]
  exact ⟨_, rfl⟩

end

/-- A prediction is exact at a decision that is not that of a non-greedy loop, if no
    guards are collected at its start and nothing is consumed behind the end of the
    input. In a grammar that is closed, it comes to an outcome. -/
theorem predictAt_isExact_of_greedy {g : Grammar σ} (hg : g.IsBuilt)
    (hleft : ¬g.toNetwork.IsLeftRecursive) {id : StateId} {s : State} (hs : g.state id = .ok s)
    (hd : s.decision.isSome = true) (hgreedy : g.toNetwork.IsGreedyAt id) (input : Input)
    (stack : Stack)
    (hguard : ∀ fuel exit f, LoopExit.ofState g.toNetwork s = .ok exit →
      startFrontier g.toNetwork exit fuel s stack.context = .ok f → f.guarded = false)
    (hend : EndsWithInput g.toNetwork s stack.context) :
    ∃ steps, ∀ fuel ≥ steps, ∀ (cache : Cache) (host : σ),
      (∀ p, (g.predictAt fuel { useCache := false } id input stack (cache, host)).1 = .ok p →
        p.outcome.IsExact (AltAccepts g.toNetwork s stack.context (Token.word input.ahead))) ∧
      (g.toNetwork.IsClosed → (∀ id ∈ stack.context, g.toNetwork.HasState id) →
        input.IsEnded →
          ∃ p, (g.predictAt fuel { useCache := false } id input stack (cache, host)).1 =
            .ok p) := by
  obtain ⟨number, hn⟩ := Option.isSome_iff_exists.1 hd
  obtain ⟨setting, hset, rfl⟩ := exists_setting hg.isSound hs hn input stack
  obtain ⟨rfl, _, _, hexit, houter, _⟩ := setting_eq_ok hset
  obtain ⟨steps, hsteps⟩ := setting.exists_hasFuel hleft
  have hx := hgreedy _ _ hs hexit
  refine ⟨steps, fun fuel hf cache host => ⟨fun p hp => ?_, fun hnet hstack hinput => ?_⟩⟩
  · exact predictAt_isExact hset rfl (Automaton.isSound_empty _ _) (Set.mem_univ _) (hsteps fuel hf)
      hx (fun _ => rfl) (fun f => houter ▸ hguard fuel _ f hexit) hg.isSound hend hp
  · exact exists_predictAt hset rfl (Automaton.isSound_empty _ _) (Set.mem_univ _) (hsteps fuel hf)
      hx (fun _ => rfl) (fun f => houter ▸ hguard fuel _ f hexit) hnet hstack hinput

theorem nested_predictAt_isExact :
    ∃ steps, ∀ fuel ≥ steps, ∃ p,
      (nested.predictAt fuel { useCache := false } 12 (.ofTypes [1, 1, 3, 2]) {}
        (.ofNetwork nested.toNetwork, ())).1 = .ok p ∧
      ∃ s, nested.state 12 = .ok s ∧
        p.outcome.IsExact (AltAccepts nested.toNetwork s [] [1, 1, 3, 2]) := by
  have hdecision : ((nested.state 12).map fun s => s.decision.isSome) = .ok true := by
    decide +kernel
  obtain ⟨s, hs, hd⟩ := Except.exists_of_map hdecision
  have hsimple := isSimple_nested
  have hpredicate := hsimple.built.isSound.hasNoPredicate hsimple.predicates
  have hclosed := Network.isClosed_of_leadsInside hsimple.inside
  obtain ⟨steps, hsteps⟩ := predictAt_isExact_of_greedy hsimple.built
    (Network.not_isLeftRecursive hsimple.noFreeCycle) hs hd (hsimple.isGreedyAt 12)
    (.ofTypes [1, 1, 3, 2]) {} (fun _ _ _ _ => guarded_startFrontier hpredicate)
    (endsWithInput_of_not_accepts (Network.not_accepts_of_allTransitions hsimple.notEnd))
  refine ⟨steps, fun fuel hf => ?_⟩
  obtain ⟨hexact, hexists⟩ := hsteps fuel hf (.ofNetwork nested.toNetwork) ()
  obtain ⟨p, hp⟩ := hexists hclosed nofun (Input.isEnded_ofList _)
  exact ⟨p, hp, s, hs, hexact p hp⟩

end Grammar

end AdaptiveLL
