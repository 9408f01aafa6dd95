import AdaptiveLL.Proofs.Grammar.Decisions
import AdaptiveLL.Proofs.Prediction.Exactness
import AdaptiveLL.Proofs.Prediction.Surroundings

/-!
# Non-greedy loops leave as soon as they can

The frontiers of a non-greedy loop stand for its alternatives within the invocation
that predicts: after a word, the frontier holds the points that the alternatives come
to by this word and where they wait for a token, and the end of the rule if the
alternative that leaves the loop has come there (`Frontier.TracksWithin`).

So a prediction goes on only as long as this alternative has not come to the end of
the rule, and until it has, it is among those that are left (`Setting.SettlesWithin`).
Since there is only one other, the body, the loop is left by the end of the rule, or the
two could not be told apart before it (`Grammar.predictAt_leaves`).
-/

namespace AdaptiveLL

variable {σ : Type} (net : Network) (exit : LoopExit) (decision : State)

/-- What the decision of a non-greedy loop keeps: where a run waits for a token, and the end of
    the rule for the alternative that leaves the loop. -/
def LoopExit.Keeps (k : Config.Key) : Prop :=
  net.Waits k.point ∨ (net.IsStop k.state ∧ k.context = [] ∧ k.alt = exit.alt)

/-- The alternative that leaves a loop comes to the end of the rule by a word, and has then
    returned from all calls it has made. -/
def LoopExit.Completes (w : List Int) : Prop :=
  Comes net decision [] w ⟨exit.ruleStop, exit.alt, []⟩

/-- A frontier holds what the alternatives of a non-greedy loop come to by a word within the
    invocation that predicts, under trivial guards. -/
structure Frontier.TracksWithin (f : Frontier) (w : List Int) : Prop where
  holds : ∀ k, f.Holds k ↔ exit.Keeps net k ∧ Comes net decision [] w k
  stands : ∀ c ∈ f.items, c.StandsIn net decision []
  trivial : ∀ c ∈ f.items, c.guard.isTrivial = true
  unguarded : f.guarded = false

variable {net exit decision} {fuel : Nat} {f g : Frontier} {v w : List Int}

/-! ## Within the invocation -/

/-- A configuration with calls to return from is not at the end of the invocation. -/
theorem Config.StandsIn.isAtEnd_eq_false {c : Config} (h : c.StandsIn net decision [])
    (hc : c.context ≠ []) : exit.isAtEnd c = false := by
  obtain ⟨calls, hcontext, hdepth, _, _⟩ := h
  rw [List.append_nil] at hcontext
  have hlen : 0 < calls.length := List.length_pos_iff.2 (hcontext ▸ hc)
  have hne : c.depth ≠ 0 := by omega
  simp [LoopExit.isAtEnd, hne]

section

variable (hx : exit.active = true) (hstop : LeavesByStop net exit decision)

include hx hstop

theorem Config.StandsIn.isKept_iff {collect : Bool} {c : Config}
    (h : c.StandsIn net decision []) : IsKept net exit collect c ↔ exit.Keeps net c.toKey := by
  rw [AdaptiveLL.isKept_iff, or_comm, LoopExit.Keeps]
  refine or_congr Iff.rfl (and_congr_right fun hs => ?_)
  by_cases hc : c.context = []
  · rw [if_pos (h.isAtEnd hx hstop hs hc), LoopExit.isTakenBy, beq_iff_eq]
    exact (and_iff_right hc).symm
  · rw [if_neg (Bool.eq_false_iff.1 (h.isAtEnd_eq_false hc))]
    exact ⟨fun h => absurd h hc, fun h => absurd h.1 hc⟩

/-- A closure that begins within the invocation stays there and comes to all that is reached
    there. -/
theorem Search.Extends.holds_iff_within {collect : Bool} {roots ends new : List Config}
    {search : Search} (h : Search.Extends net exit collect roots ends new {} search)
    (hroots : ∀ r ∈ roots, r.StandsIn net decision []) {k : Config.Key} :
    search.frontier.Holds k ↔
      (∃ r ∈ roots, r.alt = k.alt ∧ net.Reaches r.point k.point ∧ exit.Keeps net k) ∨
        ∃ d ∈ ends, d.toKey = k := by
  have hstands := h.forall_new (fun _ _ hd hc => Config.StandsIn.follows hx hstop hc hd) hroots
  exact h.holds_iff_of_isKept (fun c hc => (hstands c hc).isAtEnd_eq_false)
    fun c hc => (hstands c hc).isKept_iff hx hstop

/-- The frontier that the decision starts with tracks the empty word. -/
theorem tracksWithin_startFrontier
    (h : startFrontier net exit fuel decision [] = .ok f) (hf : f.guarded = false) :
    f.TracksWithin net exit decision [] := by
  have hstands := standsIn_startFrontier hx hstop h
  obtain ⟨search, hs, h⟩ := Except.exists_of_bind h
  cases h
  refine ⟨fun k => ?_, hstands, Search.isTrivial_of_guarded_eq_false hf, hf⟩
  obtain ⟨roots, new, hnew, hroots⟩ := startFrom_extends hs
  rw [hnew.holds_iff_within hx hstop]
  · constructor
    · rintro (⟨r, hr, halt, hreach, hk⟩ | ⟨_, ⟨⟩, _⟩)
      obtain ⟨i, t, ht, rfl⟩ := (hroots r).1 hr
      exact ⟨hk, i, t, ht, halt.symm, Network.run_nil_iff.2 hreach⟩
    · rintro ⟨hk, i, t, ht, halt, hrun⟩
      exact .inl ⟨_, (hroots _).2 ⟨i, t, ht, rfl⟩, halt.symm, Network.run_nil_iff.1 hrun, hk⟩
  · intro r hr
    obtain ⟨i, t, ht, rfl⟩ := (hroots r).1 hr
    exact Config.standsIn_start (List.mem_of_getElem? ht) _ []

/-- A token leads to a frontier that tracks one token more. At the end of the rule nothing
    waits for the end of the input. -/
theorem Frontier.TracksWithin.next {type : Int} (hf : f.TracksWithin net exit decision w)
    (h : nextFrontier net exit fuel f type = .ok g) :
    g.TracksWithin net exit decision (w ++ [type]) := by
  have hstands := standsIn_nextFrontier hx hstop hf.stands h
  obtain ⟨htrivial, hunguarded⟩ := isTrivial_nextFrontier hf.trivial h
  obtain ⟨search, hs, h⟩ := Except.exists_of_bind h
  cases h
  refine ⟨fun k => ?_, hstands, htrivial, hunguarded⟩
  obtain ⟨roots, ends, new, hnew, hroots, hends⟩ := advanceAll_extends hs
  have hcomes : Comes net decision [] (w ++ [type]) k ↔ _ :=
    comes_append_iff (fun c hc => ((hf.holds c.toKey).1 ⟨c, hc, rfl⟩).2)
      fun k hk hwaits => (hf.holds k).2 ⟨.inl hwaits, hk⟩
  rw [hnew.holds_iff_within hx hstop, hcomes]
  · constructor
    · rintro (⟨r, hr, halt, hreach, hk⟩ | ⟨d, hd, rfl⟩)
      · obtain ⟨c, hc, hcr⟩ := (hroots r).1 hr
        exact ⟨hk, c, hc, r, hcr, halt, hreach⟩
      · obtain ⟨hd, _, hstops, hcontext, hnot⟩ := (hends d).1 hd
        rw [(hf.stands d hd).isAtEnd hx hstop hstops hcontext] at hnot
        cases hnot
    · rintro ⟨hk, c, hc, r, hcr, halt, hreach⟩
      exact .inl ⟨r, (hroots r).2 ⟨c, hc, hcr⟩, halt, hreach, hk⟩
  · intro r hr
    obtain ⟨c, hc, t, ht, ha, rfl⟩ := (hroots r).1 hr
    exact (hf.stands c hc).advance ht ha

/-- Where the exit has completed the rule, the loop is left. -/
theorem Frontier.TracksWithin.reached?_eq (hf : f.TracksWithin net exit decision w)
    (hend : net.IsStop exit.ruleStop) (hc : exit.Completes net decision w) :
    exit.reached? f.items = some exit.alt := by
  obtain ⟨c, hc, hk⟩ := (hf.holds _).2 ⟨.inr ⟨hend, rfl, rfl⟩, hc⟩
  have hstate : c.state = exit.ruleStop := congrArg Config.Key.state hk
  have hatEnd : exit.isAtEnd c = true := (hf.stands c hc).isAtEnd hx hstop (hstate ▸ hend)
    (congrArg Config.Key.context hk)
  have htaken : exit.isTakenBy c = true := beq_iff_eq.2 (congrArg Config.Key.alt hk)
  rw [LoopExit.reached?, if_pos]
  exact List.any_eq_true.2 ⟨c, hc, by rw [htaken, hatEnd]; rfl⟩

end

namespace Frontier.TracksWithin

/-- A frontier that tracks a word stays inside a network that is closed. -/
theorem isIn (hf : f.TracksWithin net exit decision w) (hnet : net.IsClosed)
    (hdecision : ∀ t ∈ decision.transitions, net.HasState t.target) :
    ∀ c ∈ f.items, net.IsIn c.point := by
  intro c hc
  obtain ⟨_, i, t, ht, _, hrun⟩ := (hf.holds c.toKey).1 ⟨c, hc, rfl⟩
  exact hrun.isIn hnet ⟨hdecision t (List.mem_of_getElem? ht), List.forall_mem_nil _⟩

/-- The loop is left only where the exit has completed the rule. -/
theorem completes (hf : f.TracksWithin net exit decision w) {alt : Int}
    (h : exit.reached? f.items = some alt) : exit.Completes net decision w := by
  rw [LoopExit.reached?] at h
  split at h
  · next hany =>
    obtain ⟨c, hc, hboth⟩ := List.any_eq_true.1 hany
    obtain ⟨htaken, hatEnd⟩ := Bool.and_eq_true_iff.1 hboth
    have halt : c.alt = exit.alt := beq_iff_eq.1 htaken
    have hstate : c.state = exit.ruleStop := by
      simp only [LoopExit.isAtEnd, Bool.and_eq_true, beq_iff_eq] at hatEnd
      exact hatEnd.1.1.2
    have hcontext : c.context = [] := by
      by_contra hne
      rw [(hf.stands c hc).isAtEnd_eq_false hne] at hatEnd
      cases hatEnd
    have hcomes := ((hf.holds c.toKey).1 ⟨c, hc, rfl⟩).2
    rwa [Config.Key.eq_of_point (k := c.toKey) (l := ⟨exit.ruleStop, exit.alt, []⟩) halt
      (by rw [Config.Key.point, hstate, hcontext]; rfl)] at hcomes
  · cases h

/-- Before the exit completes the rule, it waits for a token. -/
theorem exists_alt (hf : f.TracksWithin net exit decision v)
    (h : exit.Completes net decision (v ++ w)) (hv : ¬exit.Completes net decision v) :
    ∃ c ∈ f.items, c.alt = exit.alt := by
  cases w with
  | nil =>
    rw [List.append_nil] at h
    exact absurd h hv
  | cons type w =>
    obtain ⟨i, t, ht, halt, hrun⟩ := h
    obtain ⟨q, hv, hw⟩ := Network.run_append_iff.1 hrun
    obtain ⟨id, context, t', hreach, ht', ha, _⟩ := Network.run_cons_iff.1 hw
    have hcomes := hv.trans (Network.run_nil_iff.2 hreach)
    rw [List.append_nil] at hcomes
    obtain ⟨c, hc, hk⟩ := (hf.holds ⟨id, exit.alt, context⟩).2
      ⟨.inl (Network.waits_of_accepts ht' ha), i, t, ht, halt, hcomes⟩
    exact ⟨c, hc, congrArg Config.Key.alt hk⟩

end Frontier.TracksWithin

/-! ## Two alternatives -/

/-- What may be left of two alternatives, in ascending order. -/
theorem eq_of_pairwise_of_two {l : List Int} (hl : l.Pairwise (· < ·))
    (hall : ∀ a ∈ l, a = 1 ∨ a = 2) : l = [] ∨ l = [1] ∨ l = [2] ∨ l = [1, 2] := by
  cases l with
  | nil => exact .inl rfl
  | cons a rest =>
    obtain ⟨ha, hrest⟩ := List.forall_mem_cons.1 hall
    obtain ⟨hlt, hpair⟩ := List.pairwise_cons.1 hl
    cases rest with
    | nil => rcases ha with rfl | rfl <;> simp
    | cons b rest =>
      obtain ⟨hb, hrest'⟩ := List.forall_mem_cons.1 hrest
      have hab := hlt b List.mem_cons_self
      obtain rfl : a = 1 := by omega
      obtain rfl : b = 2 := by omega
      cases rest with
      | nil => simp
      | cons c rest =>
        have hbc := List.rel_of_pairwise_cons hpair (List.mem_cons_self (a := c))
        have hc := hrest' c List.mem_cons_self
        omega

/-- As long as the second one of two alternatives is left, it is the only one, or the two are
    not told apart. -/
theorem Verdict.ofConfigs?_of_two {configs : List Config}
    (halts : ∀ c ∈ configs, c.alt = 1 ∨ c.alt = 2) (htwo : ∃ c ∈ configs, c.alt = 2) {v : Verdict}
    (h : Verdict.ofConfigs? exit false configs = some v) (hreached : exit.reached? configs = none) :
    v = { alt := 2 } ∨ v = { alt := 1, conflict := [1, 2] } := by
  rw [ofConfigs?, hreached] at h
  dsimp only at h
  have hmem : 2 ∈ Frontier.altsOf configs := mem_altsOf.2 htwo
  have hall : ∀ a ∈ Frontier.altsOf configs, a = 1 ∨ a = 2 := by
    intro a ha
    obtain ⟨c, hc, rfl⟩ := mem_altsOf.1 ha
    exact halts c hc
  rcases eq_of_pairwise_of_two (pairwise_altsOf configs) hall with hl | hl | hl | hl <;>
    rw [hl] at h hmem
  · cases hmem
  · simp at hmem
  · exact .inl (Option.some.inj h).symm
  · dsimp only at h
    split at h
    · next least others hind =>
      -- Alternatives that are not told apart are at least two, hence both.
      obtain ⟨hlen, hplaces⟩ := altsAt_of_indistinguishable hind
      obtain ⟨c, hc, _⟩ := htwo
      rw [← hplaces c hc] at hlen
      have hall : ∀ a ∈ altsAt configs c.place, a = 1 ∨ a = 2 := by
        intro a ha
        obtain ⟨d, hd, _, rfl⟩ := mem_altsAt.1 ha
        exact halts d hd
      have hpair : (altsAt configs c.place).Pairwise (· < ·) := pairwise_altsOf _
      rcases eq_of_pairwise_of_two hpair hall with hl | hl | hl | hl
      · simp [hl] at hlen
      · simp [hl] at hlen
      · simp [hl] at hlen
      · obtain ⟨rfl, rfl⟩ := List.cons.inj ((hplaces c hc).symm.trans hl)
        exact .inr (Option.some.inj h).symm
    · cases h

/-- A verdict for one alternative: the loop is left by it, or it is the only one. -/
theorem Verdict.eq_of_conflict_eq_nil {configs : List Config} {afterEnd : Bool} {v : Verdict}
    (h : Verdict.ofConfigs? exit afterEnd configs = some v) (hv : v.conflict = []) :
    exit.reached? configs = some v.alt ∨ Frontier.altsOf configs = [v.alt] := by
  rw [ofConfigs?] at h
  split at h
  · next alt hreached =>
    cases h
    exact .inl hreached
  · split at h
    · cases h
    · next alt halts =>
      cases h
      exact .inr halts
    · split at h
      · cases h
        cases hv
      · split at h
        · cases h
          cases hv
        · cases h

namespace Setting

variable {setting : Setting σ} {options : PredictOptions} {tokens : List Token} {outcome : Outcome}
  {hearing : Hearing σ} {afterEnd : Bool} {m n stop lookahead : Nat}

/-- The alternative that leaves the loop completes the rule by some types. -/
def Completes (setting : Setting σ) (w : List Int) : Prop :=
  setting.exit.Completes setting.grammar.toNetwork setting.decision w

/-- A frontier tracks what the alternatives of the loop come to. -/
def Watches (setting : Setting σ) (f : Frontier) (w : List Int) : Prop :=
  f.TracksWithin setting.grammar.toNetwork setting.exit setting.decision w

/-- Behind some types, a decision is settled by looking at some of the tokens ahead, and not
    before the exit completes the rule. -/
structure SettlesWithin (setting : Setting σ) (hearing : Hearing σ) (w : List Int)
    (tokens : List Token) (m : Nat) (outcome : Outcome) : Prop where
  le : m ≤ tokens.length
  first : ∀ j < m, ¬setting.Completes (w ++ (tokens.take j).map Token.type)
  settled : ∃ afterEnd f, (afterEnd = true → m = tokens.length) ∧
    setting.Watches f (w ++ (tokens.take m).map Token.type) ∧
    setting.settle (.ofFrontier setting.exit afterEnd f) hearing = (.ok (some outcome), hearing)

/-- A frontier that settles the decision does so without looking at a token. -/
theorem SettlesWithin.of_settle (hf : setting.Watches f w) (hafter : afterEnd = true → tokens = [])
    (hr : setting.settle (.ofFrontier setting.exit afterEnd f) hearing =
      (.ok (some outcome), hearing)) : setting.SettlesWithin hearing w tokens 0 outcome where
  le := Nat.zero_le _
  first _ hj := absurd hj (Nat.not_lt_zero _)
  settled := by
    refine ⟨afterEnd, f, fun he => ?_, ?_, hr⟩
    · rw [hafter he, List.length_nil]
    · simpa using hf

/-- The decision of a non-greedy loop in a network that is closed: the second one of two
    alternatives leaves the loop. -/
structure IsLoopDecision (setting : Setting σ) : Prop where
  active : setting.exit.active = true
  alt : setting.exit.alt = 2
  ways : setting.decision.transitions.length = 2
  leaves : LeavesByStop setting.grammar.toNetwork setting.exit setting.decision
  isStop : setting.grammar.toNetwork.IsStop setting.exit.ruleStop
  closed : setting.grammar.toNetwork.IsClosed
  hasState : ∀ t ∈ setting.decision.transitions, setting.grammar.toNetwork.HasState t.target

section

variable (hloop : setting.IsLoopDecision)

include hloop

/-- Where the exit has completed the rule, the decision is settled. -/
theorem settle_of_completes (hf : setting.Watches f w) (hc : setting.Completes w)
    (afterEnd : Bool) (hearing : Hearing σ) :
    setting.settle (.ofFrontier setting.exit afterEnd f) hearing =
      (.ok (some (.predicted setting.exit.alt)), hearing) := by
  have hreached := Frontier.TracksWithin.reached?_eq hloop.active hloop.leaves hf hloop.isStop hc
  have hne : f.isEmpty = false := by
    rw [Frontier.isEmpty, List.isEmpty_eq_false_iff]
    intro hnil
    rw [hnil] at hreached
    cases hreached
  rw [settle_of_unguarded hf.unguarded, hne, if_neg Bool.false_ne_true, Verdict.ofConfigs?,
    hreached]
  rfl

theorem not_completes_of_settle (hf : setting.Watches f w)
    (hs : setting.settle (.ofFrontier setting.exit afterEnd f) hearing = (.ok none, hearing)) :
    ¬setting.Completes w := by
  intro hc
  rw [settle_of_completes hloop hf hc] at hs
  cases hs

/-- What a prediction comes to from a frontier is settled within the invocation. -/
theorem simulateFrom_settlesWithin (hstops : ∀ lookahead, options.stops lookahead = false)
    (hf : setting.Watches f w) (hlast : OnlyLastEnds tokens)
    (hafter : afterEnd = true → tokens = []) {stop' lookahead' : Nat}
    (h : (setting.simulateFrom fuel options tokens afterEnd f stop lookahead hearing).1 =
      .ok (outcome, stop', lookahead')) :
    ∃ m, lookahead' = lookahead + m ∧ setting.SettlesWithin hearing w tokens m outcome := by
  induction tokens generalizing f w afterEnd stop lookahead with
  | nil =>
    obtain ⟨hr, hplace⟩ | ⟨_, _, _, ⟨⟩, _⟩ := simulateFrom_cases (hstops _) hf.unguarded h
    cases hplace
    exact ⟨0, rfl, .of_settle hf hafter hr⟩
  | cons t rest ih =>
    obtain ⟨hr, hplace⟩ | ⟨_, _, g, ⟨⟩, hr, hg, h⟩ := simulateFrom_cases (hstops _) hf.unguarded h
    · cases hplace
      exact ⟨0, rfl, .of_settle hf hafter hr⟩
    have hopen := not_completes_of_settle hloop hf hr
    obtain ⟨m, hm, hle, hfirst, afterEnd', f', hafter', hf', hr'⟩ :=
      ih (Frontier.TracksWithin.next hloop.active hloop.leaves hf hg) hlast.2
        (fun he => hlast.1 he) h
    refine ⟨m + 1, by omega, Nat.succ_le_succ hle, fun j hj => ?_, afterEnd', f',
      fun he => congrArg (· + 1) (hafter' he), ?_, hr'⟩
    · cases j with
      | zero => simpa using hopen
      | succ j => simpa using hfirst j (Nat.lt_of_succ_lt_succ hj)
    · simpa using hf'

/-- A prediction comes to an outcome if the exit completes the rule. -/
theorem exists_simulateFrom_of_completes (hstops : ∀ lookahead, options.stops lookahead = false)
    (hf : setting.Watches f w) (hn : n ≤ tokens.length)
    (hc : setting.Completes (w ++ (tokens.take n).map Token.type))
    (hfuel : Suffices setting.grammar.toNetwork setting.exit fuel tokens f) : ∃ r,
      (setting.simulateFrom fuel options tokens afterEnd f stop lookahead hearing).1 = .ok r := by
  induction n generalizing tokens f w afterEnd stop lookahead with
  | zero =>
    have hs := settle_of_completes hloop hf (by simpa using hc) afterEnd hearing
    exact ⟨_, by rw [simulateFrom_of_settled hs]⟩
  | succ n ih =>
    cases tokens with
    | nil => cases hn
    | cons t rest =>
      obtain ⟨settled, hr⟩ := setting.exists_settle hf.unguarded afterEnd hearing
      cases settled with
      | some outcome => exact ⟨_, by rw [simulateFrom_of_settled hr]⟩
      | none =>
        rw [simulateFrom_of_open hr (hstops _)]
        dsimp only
        have hin := Frontier.TracksWithin.isIn hf hloop.closed hloop.hasState
        obtain ⟨g, hg⟩ :=
          (nextFrontier_needsFuelOnly hloop.closed fuel t.type hin).exists_ok hfuel.1
        rw [hg]
        exact ih (Frontier.TracksWithin.next hloop.active hloop.leaves hf hg)
          (Nat.le_of_succ_le_succ hn) (by simpa using hc) (hfuel.2 g hg)

/-- Where the exit completes the rule by some tokens ahead, the loop is left by them at the
    latest, or cannot be told before from going on. -/
theorem SettlesWithin.leaves (h : setting.SettlesWithin hearing w tokens m outcome)
    (hn : n ≤ tokens.length) (hc : setting.Completes (w ++ (tokens.take n).map Token.type)) :
    (outcome = .predicted 2 ∧ m ≤ n) ∨ (outcome = .ambiguous 1 [1, 2] ∧ m < n) := by
  obtain ⟨_, hfirst, afterEnd, f, hafter, hf, hs⟩ := h
  have hle : m ≤ n := by
    by_contra hlt
    exact hfirst n (Nat.lt_of_not_le hlt) hc
  by_cases hm : setting.Completes (w ++ (tokens.take m).map Token.type)
  · rw [settle_of_completes hloop hf hm, hloop.alt] at hs
    cases hs
    exact .inl ⟨rfl, hle⟩
  -- The exit has not completed the rule, so it has still some tokens to go.
  have hlt : m < n := by
    refine Nat.lt_of_le_of_ne hle ?_
    rintro rfl
    exact hm hc
  obtain rfl : afterEnd = false := by
    cases afterEnd with
    | false => rfl
    | true =>
      have := hafter rfl
      omega
  have hsplit : tokens.take n = tokens.take m ++ (tokens.drop m).take (n - m) := by
    rw [← List.take_add, Nat.add_sub_cancel' hle]
  rw [hsplit, List.map_append, ← List.append_assoc] at hc
  obtain ⟨c, hcf, halt⟩ := Frontier.TracksWithin.exists_alt hf hc hm
  have halts : ∀ c ∈ f.items, c.alt = 1 ∨ c.alt = 2 := by
    intro c hc
    obtain ⟨_, i, t, ht, halt, _⟩ := (hf.holds c.toKey).1 ⟨c, hc, rfl⟩
    have hi := (List.getElem?_eq_some_iff.1 ht).1
    have hways := hloop.ways
    have halt : c.alt = 1 + i := halt
    omega
  have hne : f.isEmpty = false := List.isEmpty_eq_false_iff.2 (List.ne_nil_of_mem hcf)
  rw [settle_of_unguarded hf.unguarded, hne, if_neg Bool.false_ne_true] at hs
  obtain ⟨v, hv, rfl⟩ := Option.map_eq_some_iff.1 (Except.ok.inj (congrArg Prod.fst hs))
  have hreached : setting.exit.reached? f.items = none := by
    rw [Option.eq_none_iff_forall_ne_some]
    exact fun alt h => hm (Frontier.TracksWithin.completes hf h)
  rcases Verdict.ofConfigs?_of_two halts ⟨c, hcf, halt.trans hloop.alt⟩ hv hreached with rfl | rfl
  · exact .inl ⟨rfl, hle⟩
  · exact .inr ⟨rfl, hlt⟩

section

variable (hguard : ∀ f, startFrontier setting.grammar.toNetwork setting.exit fuel setting.decision
    setting.outer = .ok f → f.guarded = false)
  (hfuel : HasFuel { setting with outer := [] } fuel)

include hguard hfuel

/-- A simulation starts within the invocation that predicts, whoever has called its rule. -/
theorem exists_simulate_eq (options : PredictOptions) :
    ∃ f, setting.Watches f [] ∧
      Suffices setting.grammar.toNetwork setting.exit fuel setting.input.ahead f ∧
      setting.simulate fuel options = setting.simulateFrom fuel options setting.input.ahead false f
        setting.input.position 0 := by
  obtain ⟨f, hf⟩ := (startFrontier_needsFuelOnly hloop.closed fuel fun t ht =>
    ⟨hloop.hasState t ht, List.forall_mem_nil _⟩).exists_ok hfuel.1
  have hunguarded : (f.map (Config.under setting.outer)).guarded = false := by
    refine hguard _ ?_
    rw [startFrontier_under hloop.active hloop.leaves, hf]
    rfl
  refine ⟨f, tracksWithin_startFrontier hloop.active hloop.leaves hf hunguarded, hfuel.2 f hf, ?_⟩
  rw [simulate_under setting hloop.active hloop.leaves, hf]
  rfl

variable (hstops : ∀ lookahead, options.stops lookahead = false)

include hstops

/-- What a simulation comes to is settled by the tokens that it has looked at. -/
theorem simulate_settlesWithin
    (h : (setting.simulate fuel options hearing).1 = .ok (outcome, stop, lookahead)) :
    setting.SettlesWithin hearing [] setting.input.ahead lookahead outcome := by
  obtain ⟨f, hf, _, hrun⟩ := exists_simulate_eq hloop hguard hfuel options
  rw [hrun] at h
  have hafter : false = true → setting.input.ahead = [] := by
    rintro ⟨⟩
  obtain ⟨m, rfl, hm⟩ := simulateFrom_settlesWithin hloop hstops hf (onlyLastEnds_throughEnd _)
    hafter h
  rwa [Nat.zero_add]

/-- A simulation comes to an outcome if the exit completes the rule by some tokens ahead. -/
theorem exists_simulate_of_completes (hn : n ≤ setting.input.ahead.length)
    (hc : setting.Completes ((setting.input.ahead.take n).map Token.type)) (hearing : Hearing σ) :
    ∃ r, (setting.simulate fuel options hearing).1 = .ok r := by
  obtain ⟨f, hf, hsuffices, hrun⟩ := exists_simulate_eq hloop hguard hfuel options
  rw [hrun]
  exact exists_simulateFrom_of_completes hloop hstops hf hn hc hsuffices

end

end

/-- If the loop is left, the exit has completed the rule, or no other alternative waits for a
    token. -/
theorem SettlesWithin.of_predicted {alt : Int}
    (h : setting.SettlesWithin hearing w tokens m (.predicted alt)) :
    setting.Completes (w ++ (tokens.take m).map Token.type) ∨
      ∀ k, Comes setting.grammar.toNetwork setting.decision []
        (w ++ (tokens.take m).map Token.type) k → setting.grammar.toNetwork.Waits k.point →
          k.alt = alt := by
  obtain ⟨_, _, afterEnd, f, _, hf, hs⟩ := h
  rw [settle_of_unguarded hf.unguarded] at hs
  have houtcome := Except.ok.inj (congrArg Prod.fst hs)
  split at houtcome
  · cases houtcome
  obtain ⟨v, hv, hout⟩ := Option.map_eq_some_iff.1 houtcome
  obtain ⟨hconflict, rfl⟩ : v.conflict = [] ∧ v.alt = alt := by
    rw [Outcome.ofVerdict, Verdict.isAmbiguous] at hout
    split at hout
    · cases hout
    · next hnot =>
      cases hout
      exact ⟨by simpa using hnot, rfl⟩
  refine (Verdict.eq_of_conflict_eq_nil hv hconflict).imp
    (fun h => Frontier.TracksWithin.completes hf h) fun hone k hk hwaits => ?_
  obtain ⟨c, hc, rfl⟩ := (hf.holds k).2 ⟨.inl hwaits, hk⟩
  have hmem : c.alt ∈ Frontier.altsOf f.items := mem_altsOf.2 ⟨c, hc, rfl⟩
  rw [hone] at hmem
  exact List.mem_singleton.1 hmem

end Setting

/-! ## Predictions -/

/-- The exit of a loop completes at a number of tokens: a run behind the transition that leaves
    the loop consumes so many tokens ahead and comes to the end of the rule, and has then
    returned from all calls it has made. Ahead is what is left of the input up to its end. -/
def LoopExit.CompletesAt (net : Network) (exit : LoopExit) (leave : Transition) (input : Input)
    (n : Nat) : Prop :=
  n ≤ input.ahead.length ∧
    net.Run ⟨leave.target, []⟩ ((input.ahead.take n).map Token.type) ⟨exit.ruleStop, []⟩

theorem comes_iff_of_two {body leave : Transition} {outer : List StateId}
    (h : decision.transitions = [body, leave]) {state : StateId} {context : List StateId} :
    (Comes net decision outer w ⟨state, 1, context⟩ ↔
      net.Run ⟨body.target, outer⟩ w ⟨state, context⟩) ∧
    (Comes net decision outer w ⟨state, 2, context⟩ ↔
      net.Run ⟨leave.target, outer⟩ w ⟨state, context⟩) := by
  constructor
  · constructor
    · rintro ⟨i, t, ht, halt, hrun⟩
      obtain rfl : i = 0 := by
        have halt : (1 : Int) = 1 + i := halt
        omega
      rw [h] at ht
      cases ht
      exact hrun
    · intro hrun
      exact ⟨0, body, by rw [h]; rfl, rfl, hrun⟩
  · constructor
    · rintro ⟨i, t, ht, halt, hrun⟩
      obtain rfl : i = 1 := by
        have halt : (2 : Int) = 1 + i := halt
        omega
      rw [h] at ht
      cases ht
      exact hrun
    · intro hrun
      exact ⟨1, leave, by rw [h]; rfl, rfl, hrun⟩

namespace Grammar

/-- Where a grammar is composed, a decision with an active exit is that of a non-greedy loop. -/
theorem IsComposed.isLoopDecision {setting : Setting σ} (hg : setting.grammar.IsComposed)
    {id : StateId} (hs : setting.grammar.state id = .ok setting.decision)
    (hx : LoopExit.ofState setting.grammar.toNetwork setting.decision = .ok setting.exit)
    (hactive : setting.exit.active = true) : setting.IsLoopDecision := by
  obtain ⟨hexit, body, leave, hways⟩ := hg.exists_ways hs hx hactive
  have hlen : setting.decision.transitions.length = 2 := by rw [hways]; rfl
  have hsound := hg.isBuilt.isSound
  have hend : setting.grammar.toNetwork.IsStop setting.exit.ruleStop := by
    obtain ⟨r, hr, hexit⟩ := Except.exists_of_bind hx
    rw [← Except.ok.inj hexit]
    exact hsound.stop _ r hr
  exact { active := hactive, alt := hexit, ways := hlen, isStop := hend, closed := hg.isClosed,
          leaves := hg.leavesByStop hs ((hsound.isDecision id _ hs).2 hlen.ge) hx,
          hasState := fun t ht => (hg.isClosed id _ hs t ht).1 }

/-- A non-greedy loop is left as soon as possible, if its decision starts without guards: once
    its exit completes the rule, it has been predicted, or could not be told from the body
    before. It is predicted only then, or where no run through the body that has not completed
    the rule goes on. -/
theorem predictAt_leaves {g : Grammar σ} (hg : g.IsComposed) (hleft : ¬g.toNetwork.IsLeftRecursive)
    {id : StateId} {s : State} (hs : g.state id = .ok s) {exit : LoopExit}
    (hx : LoopExit.ofState g.toNetwork s = .ok exit) (hactive : exit.active = true) (input : Input)
    (stack : Stack) (hguard : ∀ fuel f,
      startFrontier g.toNetwork exit fuel s stack.context = .ok f → f.guarded = false) :
    ∃ body leave, s.transitions = [body, leave] ∧ exit.alt = 2 ∧
      ∃ steps, ∀ fuel ≥ steps, ∀ (cache : Cache) (host : σ),
        (∀ n, exit.CompletesAt g.toNetwork leave input n →
          ∃ p, (g.predictAt fuel { useCache := false } id input stack (cache, host)).1 = .ok p ∧
            ((p.outcome = .predicted 2 ∧ p.lookahead ≤ n) ∨
              (p.outcome = .ambiguous 1 [1, 2] ∧ p.lookahead < n))) ∧
        ∀ p, (g.predictAt fuel { useCache := false } id input stack (cache, host)).1 = .ok p →
          p.outcome = .predicted 2 →
            (∃ n ≤ p.lookahead, exit.CompletesAt g.toNetwork leave input n) ∨
            ∀ q, g.toNetwork.Run ⟨body.target, []⟩
              ((input.ahead.take p.lookahead).map Token.type) q → ¬g.toNetwork.Waits q := by
  obtain ⟨hexit, body, leave, hways⟩ := hg.exists_ways hs hx hactive
  refine ⟨body, leave, hways, hexit, ?_⟩
  obtain ⟨number, hn⟩ := Option.isSome_iff_exists.1
    ((hg.isBuilt.isSound.isDecision id s hs).2 (by rw [hways]; exact le_rfl))
  -- Who has called the rule does not matter.
  let setting (outer : List StateId) : Setting σ :=
    { grammar := g, decision := s, number, exit, frame := stack.frames.head?, outer, input }
  have hloop : (setting stack.context).IsLoopDecision := hg.isLoopDecision hs hx hactive
  obtain ⟨steps, hsteps⟩ := (setting stack.context).exists_hasFuel hleft
  obtain ⟨steps', hsteps'⟩ := (setting []).exists_hasFuel hleft
  refine ⟨max steps steps', fun fuel hge cache host => ?_⟩
  have hfuel := hsteps fuel ((le_max_left steps steps').trans hge)
  have hfuel' := hsteps' fuel ((le_max_right steps steps').trans hge)
  have hcache : PredictOptions.useCache { useCache := false } = false := rfl
  have hstops (lookahead : Nat) : PredictOptions.stops { useCache := false } lookahead = false :=
    rfl
  obtain ⟨hpredict, _⟩ := predictAt_eq_simulate_of_active (setting_eq hs hn hx input stack)
    hloop.leaves hfuel hcache cache host
  rw [hpredict]
  have hcompletes (n : Nat) (hn : n ≤ input.ahead.length) :
      (setting stack.context).Completes ((input.ahead.take n).map Token.type) ↔
        exit.CompletesAt g.toNetwork leave input n := by
    rw [Setting.Completes, LoopExit.Completes, hexit, (comes_iff_of_two hways).2]
    exact (and_iff_right hn).symm
  constructor
  · intro n hn
    have hc := (hcompletes n hn.1).2 hn
    obtain ⟨⟨outcome, stop, lookahead⟩, hr⟩ := Setting.exists_simulate_of_completes hloop
      (hguard fuel) hfuel' hstops hn.1 hc { host }
    have hsettled := Setting.simulate_settlesWithin hloop (hguard fuel) hfuel' hstops hr
    rw [hr]
    exact ⟨_, rfl, hsettled.leaves hloop hn.1 hc⟩
  · intro p hp hout
    obtain ⟨⟨outcome, stop, lookahead⟩, hr, rfl⟩ := Except.exists_of_map hp
    obtain rfl : outcome = .predicted 2 := hout
    have hsettled := Setting.simulate_settlesWithin hloop (hguard fuel) hfuel' hstops hr
    refine hsettled.of_predicted.imp (fun h => ⟨_, le_rfl, (hcompletes _ hsettled.le).1 h⟩) ?_
    intro honly q hq hwaits
    have hone : (1 : Int) = 2 :=
      honly ⟨q.state, 1, q.context⟩ ((comes_iff_of_two hways).1.2 hq) hwaits
    omega

theorem reentered_predictAt_leaves :
    ∃ steps, ∀ fuel ≥ steps, ∃ p, (reentered.predictAt fuel { useCache := false } 4
      (.ofTypes [2, 3, 5, 2, 1]) { frames := invocations [14] } ({}, ())).1 = .ok p ∧
        ((p.outcome = .predicted 2 ∧ p.lookahead ≤ 5) ∨
          (p.outcome = .ambiguous 1 [1, 2] ∧ p.lookahead < 5)) := by
  obtain ⟨⟨rules, hrules⟩, _, _, hexit, _, hways, hwalk⟩ := reentered_eq
  obtain ⟨_, hleft, hpredicates⟩ := isBuilt_reentered
  obtain ⟨s, hs, hx⟩ := Except.exists_of_bind hexit
  have hg := isComposed_ofRules hrules
  obtain ⟨body, leave, htransitions, _, steps, h⟩ := predictAt_leaves hg hleft hs hx rfl
    (.ofTypes [2, 3, 5, 2, 1]) { frames := invocations [14] }
    fun _ _ => guarded_startFrontier (hg.isBuilt.isSound.hasNoPredicate hpredicates)
  -- The second way out of the decision is the one to its exit.
  rw [hs] at hways
  have hboth : s.transitions = [⟨2, .epsilon⟩, ⟨6, .epsilon⟩] := Except.ok.inj hways
  obtain ⟨_, hrest⟩ := List.cons.inj (htransitions.symm.trans hboth)
  obtain ⟨rfl, _⟩ := List.cons.inj hrest
  refine ⟨steps, fun fuel hf => (h fuel hf {} ()).1 5 ⟨by decide, ?_⟩⟩
  exact Network.run_of_walk _ hwalk

end Grammar

end AdaptiveLL
