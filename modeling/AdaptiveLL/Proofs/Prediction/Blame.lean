import AdaptiveLL.Proofs.Prediction.Origin
import AdaptiveLL.Proofs.Prediction.Pruning
import AdaptiveLL.Proofs.Prediction.Safety
import AdaptiveLL.Proofs.Prediction.Stability

/-!
# Which predicate a prediction blames

A prediction fails by a predicate in two cases (`Setting.Blames`). If no configuration is left, it
blames the first predicate in the guards that does not hold. If an alternative would be taken of
which no guard holds, it blames the least predicate that cannot be evaluated in the guard of a
configuration that is left of this alternative (`Setting.Obstructs`).

The alternative may hold by the predicate that is blamed (`Guard.MayHoldBy`) if no term of the
guard has both predicates that fail and predicates that cannot be evaluated. Else the predicate
may be one of a term that fails anyway (`Grammar.mixed_blames_other`).
-/

namespace AdaptiveLL

variable {σ : Type}

/-- A guard may hold by a predicate: no predicate fails in some term that has it. -/
def Guard.MayHoldBy (outcome : Int → Truth) (g : Guard) (p : Int) : Prop :=
  ∃ term ∈ g.terms, p ∈ term ∧ ∀ q ∈ term, outcome q ≠ .fails

/-- No term of a guard has both predicates that fail and predicates that cannot be evaluated. -/
def Guard.IsUnmixed (outcome : Int → Truth) (g : Guard) : Prop :=
  ∀ term ∈ g.terms, ∀ p ∈ term, outcome p = .unknown → ∀ q ∈ term, outcome q ≠ .fails

theorem Guard.holds_mono {test test' : Int → Bool} (h : ∀ p, test p = true → test' p = true)
    {g : Guard} (hg : g.holds test = true) : g.holds test' = true := by
  obtain ⟨term, hterm, hall⟩ := holds_iff.1 hg
  exact holds_iff.2 ⟨term, hterm, fun p hp => h p (hall p hp)⟩

namespace Setting

/-- Whether a predicate has come to hold. -/
def hasCome (outcome : Int → Truth) (index : Int) : Bool :=
  outcome index == .holds

theorem mayCome_of_hasCome {outcome : Int → Truth} (index : Int)
    (h : hasCome outcome index = true) : mayCome outcome index = true := by
  rw [hasCome, beq_iff_eq] at h
  rw [mayCome, h]
  rfl

/-- The configurations of a node whose guards may hold. -/
def survivors (outcome : Int → Truth) (n : Node) : List Config :=
  n.frontier.items.filter fun c => c.guard.holds (mayCome outcome)

theorem mem_survivors {outcome : Int → Truth} {n : Node} {c : Config} :
    c ∈ survivors outcome n ↔
      c ∈ n.frontier.items ∧ c.guard.holds (mayCome outcome) = true :=
  List.mem_filter

/-- A predicate keeps an alternative from being taken: no guard of the alternative holds, and it
    is the least predicate that cannot be evaluated in the guard of a configuration that is left of
    this alternative. -/
structure Obstructs (setting : Setting σ) (outcome : Int → Truth) (n : Node) (v : Verdict)
    (c : Config) (p : Int) : Prop where
  verdict : Verdict.ofConfigs? setting.exit n.afterEnd (survivors outcome n) = some v
  fails : ∀ d ∈ n.frontier.items, d.alt = v.alt → d.guard.holds (hasCome outcome) = false
  mem : c ∈ survivors outcome n
  alt : c.alt = v.alt
  occurs : p ∈ c.guard.predicates
  unknown : outcome p = .unknown
  least : ∀ q ∈ c.guard.predicates, outcome q = .unknown → p ≤ q

/-- A node blames a predicate for failing. -/
structure Blames (setting : Setting σ) (outcome : Int → Truth) (n : Node) (p : Int) : Prop where
  occurs : ∃ c ∈ n.frontier.items, p ∈ c.guard.predicates
  not_holds : outcome p ≠ .holds
  obstructs : survivors outcome n ≠ [] → ∃ v c, setting.Obstructs outcome n v c p

/-- By the predicate that is blamed, the alternative may hold, unless predicates that fail are in
    one term with such as cannot be evaluated. -/
theorem Obstructs.mayHoldBy {setting : Setting σ} {outcome : Int → Truth} {n : Node} {v : Verdict}
    {c : Config} {p : Int} (h : setting.Obstructs outcome n v c p)
    (hunmixed : c.guard.IsUnmixed outcome) : c.guard.MayHoldBy outcome p := by
  obtain ⟨term, hterm, hp⟩ := Guard.mem_predicates.1 h.occurs
  exact ⟨term, hterm, hp, hunmixed term hterm p hp h.unknown⟩

/-! ## What is found among the predicates -/

section

variable {setting : Setting σ} {outcome : Int → Truth} (h : setting.Answers outcome)

include h

theorem passes_decides {index : Int} (hp : setting.grammar.HasPredicate index) :
    Decides outcome (setting.passes index) (hasCome outcome index) := by
  obtain ⟨p, hp⟩ := hp
  exact (truth_decides h hp).bind (.pure _)

theorem firstNotPassed_decides {l : List Int} (hl : ∀ p ∈ l, setting.grammar.HasPredicate p) :
    Decides outcome (setting.firstNotPassed l) (l.find? fun p => !hasCome outcome p) := by
  induction l with
  | nil => exact .pure none
  | cons p l ih =>
    obtain ⟨hp, hl⟩ := List.forall_mem_cons.1 hl
    rw [List.find?_cons]
    refine (passes_decides h hp).bind ?_
    cases hasCome outcome p with
    | true => exact ih hl
    | false => exact .pure (some p)

theorem firstUnknown_decides {l : List Int} (hl : ∀ p ∈ l, setting.grammar.HasPredicate p) :
    Decides outcome (setting.firstUnknown l) (l.find? fun p => outcome p = .unknown) := by
  induction l with
  | nil => exact .pure none
  | cons p l ih =>
    obtain ⟨⟨p', hp⟩, hl⟩ := List.forall_mem_cons.1 hl
    rw [List.find?_cons]
    refine (truth_decides h hp).bind ?_
    by_cases hu : outcome p = .unknown
    · rw [if_pos hu, decide_eq_true hu]
      exact .pure (some p)
    · rw [if_neg hu, decide_eq_false hu]
      exact ih hl

theorem someHolds_decides {l : List Config}
    (hl : ∀ c ∈ l, ∀ p ∈ c.guard.predicates, setting.grammar.HasPredicate p) :
    Decides outcome (setting.someHolds l) (l.any fun c => c.guard.holds (hasCome outcome)) := by
  induction l with
  | nil => exact .pure false
  | cons c l ih =>
    obtain ⟨hc, hl⟩ := List.forall_mem_cons.1 hl
    have hguard : Decides outcome (c.guard.holdsM setting.passes)
        (c.guard.holds (hasCome outcome)) :=
      anyM_decides fun term hterm => allM_decides fun p hp =>
        passes_decides h (hc p (Guard.mem_predicates.2 ⟨term, hterm, hp⟩))
    rw [List.any_cons]
    refine hguard.bind ?_
    cases c.guard.holds (hasCome outcome) with
    | true => exact .pure true
    | false => exact ih hl

/-- An obstacle is found among some configurations: none of their guards holds that are of the
    alternative, and one of them has it as its least predicate that cannot be evaluated. -/
theorem obstacle_decides {l : List Config}
    (hl : ∀ c ∈ l, ∀ p ∈ c.guard.predicates, setting.grammar.HasPredicate p) (alt : Int) :
    ∃ found, Decides outcome (setting.obstacle l alt) found ∧ ∀ p ∈ found,
      (∀ d ∈ l, d.alt = alt → d.guard.holds (hasCome outcome) = false) ∧
      ∃ c ∈ l, c.alt = alt ∧ p ∈ c.guard.predicates ∧ outcome p = .unknown ∧
        ∀ q ∈ c.guard.predicates, outcome q = .unknown → p ≤ q := by
  have hmem {d : Config} : d ∈ l.filter (fun c => c.alt == alt) ↔ d ∈ l ∧ d.alt = alt := by
    rw [List.mem_filter, beq_iff_eq]
  rw [obstacle]
  cases hf : l.filter fun c => c.alt == alt with
  | nil => exact ⟨none, .pure none, fun _ hp => absurd hp (Option.not_mem_none _)⟩
  | cons c rest =>
    rw [hf] at hmem
    obtain ⟨hc, halt⟩ := hmem.1 List.mem_cons_self
    have hholds := someHolds_decides h fun d hd => hl d (hmem.1 hd).1
    cases hany : (c :: rest).any fun c => c.guard.holds (hasCome outcome) with
    | true =>
      rw [hany] at hholds
      exact ⟨none, hholds.bind (.pure none), fun _ hp => absurd hp (Option.not_mem_none _)⟩
    | false =>
      rw [hany] at hholds
      refine ⟨_, hholds.bind (firstUnknown_decides h (hl c hc)), fun p hp => ?_⟩
      obtain ⟨hu, before, after, hsplit, hbefore⟩ := List.find?_eq_some_iff_append.1 hp
      refine ⟨fun d hd hd' => ?_, c, hc, halt, ?_, of_decide_eq_true hu, fun q hq hqu => ?_⟩
      · exact Bool.eq_false_iff.2 (List.any_eq_false.1 hany d (hmem.2 ⟨hd, hd'⟩))
      · rw [hsplit]
        exact List.mem_append_right before List.mem_cons_self
      · -- The predicates of a guard are ascending, and none before the one found is like it.
        have hpair : c.guard.predicates.Pairwise (· < ·) := Ascending.pairwise_ofList _
        rw [hsplit] at hq hpair
        rcases List.mem_append.1 hq with hq | hq
        · have hnot := hbefore q hq
          rw [decide_eq_true hqu] at hnot
          cases hnot
        · rcases List.mem_cons.1 hq with rfl | hq
          · exact le_rfl
          · exact (List.rel_of_pairwise_cons (List.pairwise_append.1 hpair).2.1 hq).le

omit h in
/-- Where no configuration is left, some predicate does not hold. -/
theorem exists_first_not_passed {n : Node} (hempty : ¬n.frontier.isEmpty = true)
    (hn : ∀ c ∈ n.frontier.items, c.guard.terms ≠ []) (hs : survivors outcome n = []) :
    ∃ p, (n.frontier.items.flatMap fun c => c.guard.predicates).find?
      (fun p => !hasCome outcome p) = some p := by
  obtain ⟨c, hc⟩ := List.exists_mem_of_ne_nil _ fun hnil => hempty (List.isEmpty_iff.2 hnil)
  obtain ⟨term, hterm⟩ := List.exists_mem_of_ne_nil _ (hn c hc)
  have hdead : ¬c.guard.holds (mayCome outcome) = true := List.filter_eq_nil_iff.1 hs c hc
  obtain ⟨p, hp, hfails⟩ : ∃ p ∈ term, outcome p = .fails := by
    by_contra hnone
    refine hdead (Guard.holds_iff.2 ⟨term, hterm, fun p hp => ?_⟩)
    rw [mayCome, bne_iff_ne]
    exact fun hfails => hnone ⟨p, hp, hfails⟩
  refine Option.isSome_iff_exists.1 (List.find?_isSome.2 ⟨p, ?_, ?_⟩)
  · exact List.mem_flatMap.2 ⟨c, hc, Guard.mem_predicates.2 ⟨term, hterm, hp⟩⟩
  · rw [hasCome, hfails]
    rfl

/-- Where no configuration is left, a node blames the first predicate that does not hold. -/
theorem settleGuarded_decides_of_none {n : Node} (hempty : ¬n.frontier.isEmpty = true)
    (hn : ∀ c ∈ n.frontier.items, c.guard.terms ≠ [])
    (hl : ∀ c ∈ n.frontier.items, ∀ p ∈ c.guard.predicates, setting.grammar.HasPredicate p)
    (hs : survivors outcome n = []) :
    ∃ p, Decides outcome (setting.settleGuarded n) (some (.failedPredicate (some p))) ∧
      setting.Blames outcome n p := by
  have halive : Decides outcome (setting.alive n.frontier.items) (survivors outcome n) :=
    alive_decides h hl
  have hfirst : Decides outcome
      (setting.firstNotPassed (n.frontier.items.flatMap fun c => c.guard.predicates)) _ :=
    firstNotPassed_decides h fun p hp =>
      (List.mem_flatMap.1 hp).elim fun c hc => hl c hc.1 p hc.2
  obtain ⟨p, hp⟩ := exists_first_not_passed hempty hn hs
  rw [hp] at hfirst
  rw [hs] at halive
  refine ⟨p, halive.bind (hfirst.bind (.pure _)), ?_⟩
  obtain ⟨c, hc, hpc⟩ := List.mem_flatMap.1 (List.mem_of_find?_eq_some hp)
  refine ⟨⟨c, hc, hpc⟩, fun hholds => ?_, fun hne => absurd hs hne⟩
  have hnot := List.find?_some hp
  rw [hasCome, hholds] at hnot
  cases hnot

/-- Where configurations are left, a node comes to no outcome or to their verdict, or blames a
    predicate for the alternative of the verdict. -/
theorem settleGuarded_decides_of_left {n : Node}
    (hl : ∀ c ∈ n.frontier.items, ∀ p ∈ c.guard.predicates, setting.grammar.HasPredicate p)
    (hs : survivors outcome n ≠ []) :
    ∃ settled, Decides outcome (setting.settleGuarded n) settled ∧
      (settled = none ∨ (∃ v, settled = some (.ofVerdict v)) ∨
        ∃ p, settled = some (.failedPredicate (some p)) ∧ setting.Blames outcome n p) := by
  have halive : Decides outcome (setting.alive n.frontier.items) (survivors outcome n) :=
    alive_decides h hl
  have hleft : ¬(survivors outcome n).isEmpty = true := fun h => hs (List.isEmpty_iff.1 h)
  rw [settleGuarded]
  cases hv : Verdict.ofConfigs? setting.exit n.afterEnd (survivors outcome n) with
  | none =>
    refine ⟨none, halive.bind ?_, .inl rfl⟩
    rw [if_neg hleft, hv]
    exact .pure none
  | some v =>
    obtain ⟨found, hfound, hspec⟩ :=
      obstacle_decides h (fun d hd => hl d (mem_survivors.1 hd).1) v.alt
    cases found with
    | none =>
      refine ⟨some (.ofVerdict v), halive.bind ?_, .inr (.inl ⟨v, rfl⟩)⟩
      rw [if_neg hleft, hv]
      exact hfound.bind (.pure _)
    | some p =>
      refine ⟨some (.failedPredicate (some p)), halive.bind ?_, .inr (.inr ⟨p, rfl, ?_⟩)⟩
      · rw [if_neg hleft, hv]
        exact hfound.bind (.pure _)
      obtain ⟨hfails, c, hc, halt, hoccurs, hunknown, hleast⟩ := hspec p rfl
      have hnot : outcome p ≠ .holds := by rw [hunknown]; decide
      refine ⟨⟨c, (mem_survivors.1 hc).1, hoccurs⟩, hnot, fun _ => ⟨v, c, ?_⟩⟩
      refine ⟨hv, fun d hd hda => ?_, hc, halt, hoccurs, hunknown, hleast⟩
      -- A configuration whose guard holds would be left.
      by_contra hholds
      have hholds : d.guard.holds (hasCome outcome) = true := Bool.eq_true_of_not_eq_false hholds
      have hleft := mem_survivors.2 ⟨hd, Guard.holds_mono mayCome_of_hasCome hholds⟩
      rw [hfails d hleft hda] at hholds
      cases hholds

/-- A node that settles a decision by a predicate blames it. -/
theorem settle_decides {n : Node}
    (hn : ∀ c ∈ n.frontier.items, c.guard.terms ≠ [])
    (hl : ∀ c ∈ n.frontier.items, ∀ p ∈ c.guard.predicates, setting.grammar.HasPredicate p) :
    ∃ settled, Decides outcome (setting.settle n) settled ∧
      ∀ blamed, settled = some (.failedPredicate blamed) →
        ∃ p, blamed = some p ∧ setting.Blames outcome n p := by
  have hverdict (v : Verdict) (blamed : Option Int) :
      Outcome.ofVerdict v ≠ .failedPredicate blamed := by
    rw [Outcome.ofVerdict]
    split <;> rintro ⟨⟩
  rw [settle]
  split
  · refine ⟨_, .pure _, ?_⟩
    rintro _ ⟨⟩
  next hempty =>
  split
  · by_cases hs : survivors outcome n = []
    · obtain ⟨p, hp, hblames⟩ := settleGuarded_decides_of_none h hempty hn hl hs
      refine ⟨_, hp, ?_⟩
      rintro _ ⟨⟩
      exact ⟨p, rfl, hblames⟩
    · obtain ⟨settled, hsettled, rfl | ⟨v, rfl⟩ | ⟨p, rfl, hblames⟩⟩ :=
        settleGuarded_decides_of_left h hl hs
      · exact ⟨none, hsettled, fun _ heq => absurd heq.symm (Option.some_ne_none _)⟩
      · exact ⟨_, hsettled, fun blamed heq => absurd (Option.some.inj heq) (hverdict v blamed)⟩
      · refine ⟨_, hsettled, ?_⟩
        rintro _ ⟨⟩
        exact ⟨p, rfl, hblames⟩
  · refine ⟨_, .pure _, fun blamed heq => ?_⟩
    obtain ⟨v, _, hv⟩ := Option.map_eq_some_iff.1 heq
    exact absurd hv (hverdict v blamed)

end

end Setting

/-! ## The node that blames -/

/-- The node that an automaton comes to in a context by the types of some tokens. -/
def Automaton.nodeBy? (a : Automaton) (outer : List StateId) (types : List Int) : Option Node := do
  let i ← a.start? outer
  let j ← types.foldlM a.edge? i
  a.nodes[j]?

namespace Setting

variable {setting : Setting σ} {outcome : Int → Truth} {fuel : Nat} {options : PredictOptions}
  {blamed : Option Int} {stop' lookahead' : Nat} {trial' : Trial σ}
  (h : setting.Answers outcome)
  (hpredicate : ∀ p ∈ setting.grammar.toNetwork.predicates, setting.grammar.HasPredicate p)

include h hpredicate

theorem follow_blames {tokens : List Token} {i stop lookahead : Nat} {n : Node} {trial : Trial σ}
    (hfollow : setting.follow fuel options tokens i stop lookahead trial =
      (.ok (.failedPredicate blamed, stop', lookahead'), trial'))
    (ha : trial.automaton.Obeys (Automaton.originLaw setting.grammar.toNetwork setting.decision))
    (hn : trial.automaton.nodes[i]? = some n) (hkeeps : trial.KeepsTo outcome) :
    ∃ k j m p, lookahead' = lookahead + k ∧
      ((tokens.take k).map Token.type).foldlM trial'.automaton.edge? i = some j ∧
      trial'.automaton.nodes[j]? = some m ∧ blamed = some p ∧ setting.grammar.HasPredicate p ∧
      setting.Blames outcome m p := by
  have hguards := ha.node i n hn
  have hl : ∀ c ∈ n.frontier.items, ∀ p ∈ c.guard.predicates, setting.grammar.HasPredicate p :=
    fun c hc p hp => hpredicate p (Guard.mem_predicates_of_isOver (hguards c hc).isOver p hp)
  obtain ⟨settled, hsettled, hblames⟩ :=
    settle_decides h (fun c hc => (hguards c hc).terms_ne_nil) hl
  obtain ⟨hearing, hsettle, hkeeps'⟩ := hsettled trial.toHearing hkeeps
  obtain ⟨settled', hearing', hsettle', hcases⟩ := follow_cases hfollow
  rw [Automaton.node_eq hn, hsettle] at hsettle'
  cases hsettle'
  obtain ⟨outcome', rfl, hr, rfl⟩ | ⟨_, _, hr, _⟩ |
    ⟨rfl, _, t, rest, j, trial₁, rfl, hnext, hrest⟩ := hcases
  · cases hr
    obtain ⟨p, rfl, hp⟩ := hblames blamed rfl
    obtain ⟨c, hc, hpc⟩ := hp.occurs
    exact ⟨0, i, n, p, rfl, rfl, hn, rfl, hl c hc p hpc, hp⟩
  · cases hr
  · have hattains := next_attains hnext ha hn fun f hf =>
      ⟨isMadeAt_nextFrontier hguards hf, trivial⟩
    obtain ⟨m, hm⟩ := hattains.node
    have hhearing : trial₁.toHearing = hearing := hattains.hearing
    obtain ⟨k, j', m', p, hlookahead, hway, hm', hp⟩ :=
      follow_blames hrest hattains.obeys hm (hhearing ▸ hkeeps')
    -- The edge that has been followed is still there in the end, as the first one of the way.
    have hedge := (growsInto_of_follow hrest).edge? (edge?_next hnext hn)
    refine ⟨k + 1, j', m', p, by omega, ?_, hm', hp⟩
    rw [List.take_succ_cons, List.map_cons, List.foldlM_cons, hedge]
    exact hway
termination_by tokens

/-- A prediction that fails blames a predicate in the node that it has come to. -/
theorem run_blames {trial : Trial σ}
    (hrun : setting.run fuel options trial =
      (.ok (.failedPredicate blamed, stop', lookahead'), trial'))
    (ha : trial.automaton.Obeys (Automaton.originLaw setting.grammar.toNetwork setting.decision))
    (hkeeps : trial.KeepsTo outcome) :
    ∃ n p, trial'.automaton.nodeBy? setting.outer
        ((setting.input.ahead.take lookahead').map Token.type) = some n ∧
      blamed = some p ∧ setting.grammar.HasPredicate p ∧ setting.Blames outcome n p := by
  obtain ⟨i, trial₁, hstart, hfollow⟩ := exists_of_bind_apply hrun
  obtain ⟨ha₁, ⟨n, hn⟩, _, hhearing⟩ :=
    start_attains hstart ha fun f hf => ⟨isMadeAt_startFrontier hf, trivial⟩
  obtain ⟨k, j, m, p, rfl, hway, hm, hp⟩ :=
    follow_blames h hpredicate hfollow ha₁ hn (hhearing ▸ hkeeps)
  refine ⟨m, p, ?_, hp⟩
  have hfrom := (growsInto_of_follow hfollow).start _ _ (start?_start hstart)
  rw [Nat.zero_add, Automaton.nodeBy?, hfrom]
  simp only [Option.bind_eq_bind, Option.bind_some, hway, hm]

end Setting

namespace Grammar

/-- A prediction that fails blames a predicate of the grammar, which does not hold, in the node that
    it has come to. If configurations are left there, the predicate cannot be evaluated and keeps
    the alternative from being taken that they settle the decision by, and this may hold by the
    predicate where the guard is not mixed. -/
theorem predictAt_blames {g : Grammar σ} (hg : g.IsBuilt) {cache : Cache}
    (hcache : cache.IsReachable g fun _ _ => True) {id : StateId} {input : Input} {stack : Stack}
    {setting : Setting σ} (hset : g.setting id input stack = .ok setting)
    {outcome : Int → Truth} (hanswers : setting.Answers outcome) {fuel : Nat}
    {options : PredictOptions} {host : σ} {p : Prediction}
    (hp : (g.predictAt fuel options id input stack (cache, host)).1 = .ok p)
    {blamed : Option Int} (hfailed : p.outcome = .failedPredicate blamed) :
    ∃ a n q, options.automaton cache setting.number id = .ok a ∧
      (setting.run fuel options { automaton := a, host }).2.automaton.nodeBy? stack.context
        ((input.ahead.take p.lookahead).map Token.type) = some n ∧
      blamed = some q ∧ g.HasPredicate q ∧ setting.Blames outcome n q ∧
      ∀ v c, setting.Obstructs outcome n v c q → c.guard.IsUnmixed outcome →
        c.guard.MayHoldBy outcome q := by
  obtain ⟨setting', a, ⟨_, stop, lookahead⟩, trial, hset', ha, hrun, rfl⟩ :=
    exists_run_of_predictAt hp
  obtain rfl := Except.ok.inj (hset.symm.trans hset')
  obtain rfl := hfailed
  obtain ⟨rfl, hs, hnumber, hexit, houter, rfl⟩ := setting_eq_ok hset
  obtain ⟨a', ha', hobeys⟩ := (hcache.obeys_originLaw hg.isSound).exists_automaton hg.isSound hs
    hnumber hexit (Automaton.obeys_empty _ _ _) options
  obtain rfl := Except.ok.inj (ha.symm.trans ha')
  obtain ⟨n, q, hn, hblamed, hq, hblames⟩ :=
    Setting.run_blames hanswers hg.isSound.hasPredicate hrun hobeys nofun
  rw [houter] at hn
  refine ⟨a, n, q, ha, ?_, hblamed, hq, hblames, fun v c h hunmixed => h.mayHoldBy hunmixed⟩
  rw [hrun]
  exact hn

/-- A rule whose first alternative needs either the first two of three predicates or the last
    one. Only the second one can be evaluated, and it fails. -/
def mixedRules : List (RuleDefinition Unit) :=
  [{ name := "r", body := .block [
    .sequence [
      .block [
        .sequence [.predicate { text := "p", test := some fun _ => throw (.unavailable "p") },
          .predicate { text := "q", test := some fun _ => pure false }],
        .predicate { text := "s", test := some fun _ => throw (.unavailable "s") }],
      .token 1],
    .token 2] }]

/-- The grammar of this rule. -/
def mixed : Grammar Unit :=
  (ofRules mixedRules).toOption.getD {}

/-- What the predicates come to. -/
def mixedOutcome (index : Int) : Truth :=
  if index = 1 then .fails else .unknown

/-- How the decision between the alternatives predicts. -/
def mixedSetting : Setting Unit where
  grammar := mixed
  decision :=
    { rule := 0, kind := .blockStart, transitions := [⟨8, .epsilon⟩, ⟨12, .epsilon⟩],
      decision := some 1 }
  number := 1
  exit := ⟨false, 1, 0⟩
  frame := none
  outer := []
  input := .ofTypes [1]

/-- What is predicted on the token of the first alternative. -/
def mixedPrediction : Prediction :=
  { outcome := .failedPredicate (some 0), decision := 1, rule := 0, start := 0, stop := 0,
    lookahead := 1 }

/-- The automaton that this prediction leaves of one of which nothing is known. -/
def mixedAutomaton : Automaton :=
  (mixedSetting.run 40 {} { automaton := { decision := 1, state := 14 }, host := () }).2.automaton

theorem mixed_eq : (ofRules mixedRules).toOption.isSome = true ∧
    (mixed.toNetwork.descends fun id =>
      [8, 0, 5, 4, 3, 2, 3, 2, 6, 1, 0, 2, 0, 2, 7, 1].getD id.toNat 0) = true ∧
    mixed.decisions = #[8, 14] ∧ mixed.state 14 = .ok mixedSetting.decision ∧
    LoopExit.ofState mixed.toNetwork mixedSetting.decision = .ok mixedSetting.exit ∧
    (∀ x ∈ mixed.predicates.toList.zipIdx,
      (x.1.speculate none (.ofTypes [1]) 0 ()).1 = .ok (mixedOutcome x.2)) ∧
    (mixed.predictAt 40 {} 14 (.ofTypes [1]) {} (.ofNetwork mixed.toNetwork, ())).1 =
      .ok mixedPrediction ∧
    (mixedAutomaton.nodeBy? [] [1]).map (fun n => n.frontier.items.map fun c => c.guard) =
      some [⟨[[0, 1], [2]]⟩] := by
  decide +kernel

theorem isBuilt_mixed : mixed.IsBuilt ∧ ¬mixed.toNetwork.IsLeftRecursive ∧
    mixed.setting 14 (.ofTypes [1]) {} = .ok mixedSetting ∧ mixedSetting.Answers mixedOutcome ∧
    ({} : PredictOptions).automaton (.ofNetwork mixed.toNetwork) 1 14 =
      .ok { decision := 1, state := 14 } := by
  obtain ⟨hrules, hdescends, hdecisions, hstate, hexit, hpredicates, -⟩ := mixed_eq
  refine ⟨isBuilt_ofRules (ofRules_getD hrules {}),
    Network.not_isLeftRecursive (Network.not_hasFreeCycle_of_descends _ hdescends),
    setting_eq hstate rfl hexit _ _, fun index p hp host => ?_, ?_⟩
  · dsimp only [mixedSetting] at hp ⊢
    obtain ⟨i, rfl, hi⟩ := exists_of_predicate hp
    rw [← Array.getElem?_toList] at hi
    have hp := hpredicates (p, i) (List.mk_mem_zipIdx_iff_getElem?.2 hi)
    exact ⟨_, Prod.ext hp rfl⟩
  · rw [PredictOptions.automaton, if_pos rfl]
    exact (Cache.automaton_eq _).2 (by simp [Cache.ofNetwork, hdecisions])

/-- The predicate that is blamed for the alternative is one of those that cannot be evaluated. -/
theorem mixed_predictAt_blames :
    (mixed.predictAt 40 {} 14 (.ofTypes [1]) {} (.ofNetwork mixed.toNetwork, ())).1 =
      .ok mixedPrediction ∧
    ∃ n, mixedAutomaton.nodeBy? [] [1] = some n ∧ mixed.HasPredicate 0 ∧
      mixedSetting.Blames mixedOutcome n 0 := by
  obtain ⟨_, _, _, _, _, _, hp, -⟩ := mixed_eq
  obtain ⟨hg, _, hset, hanswers, hautomaton⟩ := isBuilt_mixed
  obtain ⟨a, n, q, ha, hn, hblamed, hq, hblames, _⟩ :=
    predictAt_blames hg .new hset hanswers hp (rfl : mixedPrediction.outcome = _)
  obtain rfl := Except.ok.inj (ha.symm.trans hautomaton)
  obtain rfl := Option.some.inj hblamed
  exact ⟨hp, n, hn, hq, hblames⟩

/-- But the alternative cannot hold by it, as a predicate fails in its term. -/
theorem mixed_blames_other : mixed.IsBuilt ∧ ¬mixed.toNetwork.IsLeftRecursive ∧
    mixed.setting 14 (.ofTypes [1]) {} = .ok mixedSetting ∧ mixedSetting.Answers mixedOutcome ∧
    ({} : PredictOptions).automaton (.ofNetwork mixed.toNetwork) 1 14 =
      .ok { decision := 1, state := 14 } ∧
    (mixed.predictAt 40 {} 14 (.ofTypes [1]) {} (.ofNetwork mixed.toNetwork, ())).1 =
      .ok mixedPrediction ∧ mixedPrediction.outcome = .failedPredicate (some 0) ∧
    ∃ n, mixedAutomaton.nodeBy? [] [1] = some n ∧ Setting.survivors mixedOutcome n ≠ [] ∧
      ∀ c ∈ n.frontier.items, ¬c.guard.MayHoldBy mixedOutcome 0 := by
  obtain ⟨_, _, _, _, _, _, hp, hnode⟩ := mixed_eq
  obtain ⟨hg, hleft, hset, hanswers, hautomaton⟩ := isBuilt_mixed
  refine ⟨hg, hleft, hset, hanswers, hautomaton, hp, rfl, ?_⟩
  obtain ⟨n, hn, hguards⟩ := Option.map_eq_some_iff.1 hnode
  obtain ⟨c, hitems, hguard⟩ := List.map_eq_singleton_iff.1 hguards
  refine ⟨n, hn, ?_, ?_⟩
  · have hmem : c ∈ n.frontier.items := hitems ▸ List.mem_singleton_self c
    exact List.ne_nil_of_mem (Setting.mem_survivors.2 ⟨hmem, hguard ▸ (by decide)⟩)
  · rw [hitems, List.forall_mem_singleton, hguard, Guard.MayHoldBy]
    decide

end Grammar

end AdaptiveLL
