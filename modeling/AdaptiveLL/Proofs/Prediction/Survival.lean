import AdaptiveLL.Proofs.Network.Survival
import AdaptiveLL.Proofs.Prediction.Exactness

/-!
# Predictions take no alternative that dies first

At a decision that is not that of a non-greedy loop, the alternative that is
predicted survives as much of what is ahead as any alternative does, and if there is
none, the last token that is looked at is the first one that no alternative survives
(`Outcome.Heeds`). This does not depend on what the prediction has looked at.

* `Setting.follow_settles`: what is come to with a sound automaton is come to from
  frontier to frontier (`Setting.Settles`).
* `Setting.Settles.heeds`: what is come to from a frontier that tracks what has been
  looked at heeds what the alternatives survive.
* `Grammar.predictAt_heeds`: so does a prediction with a reachable cache.
-/

namespace AdaptiveLL

variable {σ : Type}

/-- An alternative of a decision survives some types. -/
def AltSurvives (net : Network) (decision : State) (outer : List StateId) (w : List Int)
    (alt : Int) : Prop :=
  ∃ (i : Nat) (t : Transition), decision.transitions[i]? = some t ∧ alt = 1 + i ∧
    net.Survives ⟨t.target, outer⟩ w

/-- An outcome that is come to by looking at some of the types ahead heeds what the
    alternatives survive. -/
structure Outcome.Heeds (survives : List Int → Int → Prop) (ahead : List Int) (n : Nat)
    (outcome : Outcome) : Prop where
  taken : ∀ alt, outcome.alt? = some alt → ∀ u, u <+: ahead → ∀ other, survives u other →
    survives u alt
  viable : outcome.alt? = none → outcome = .noViableAlt ∧
    (∀ alt, ¬survives (ahead.take n) alt) ∧ ∀ m, n = m + 1 → ∃ alt, survives (ahead.take m) alt

variable {net : Network} {exit : LoopExit} {decision : State} {outer : List StateId}
  {f g : Frontier} {v w : List Int} {alt : Int}

/-! ## What alternatives survive -/

theorem AltSurvives.of_append (hv : Token.endOfInput ∉ v)
    (h : AltSurvives net decision outer (v ++ w) alt) : AltSurvives net decision outer v alt := by
  obtain ⟨i, t, ht, halt, hsurvives⟩ := h
  exact ⟨i, t, ht, halt, hsurvives.of_append hv⟩

section

variable {id : StateId} {context : List StateId} (hs : net.state id = .ok decision)
  (hk : decision.kind ≠ .ruleStop) (hepsilon : ∀ t ∈ decision.transitions, t.label = .epsilon)

include hs hk hepsilon

/-- What a state that decides survives, one of its alternatives does. -/
theorem exists_altSurvives (h : net.Survives ⟨id, context⟩ w) :
    ∃ alt, AltSurvives net decision context w alt := by
  have hstop : ¬net.IsStop id := Network.not_isStop hs hk
  obtain ⟨q, hstep, hsurvives⟩ := h.exists_freeStep <| Network.not_rests_of_isFree hstop
    fun t ht => by rw [hepsilon t (ht.mem hs)]; rfl
  obtain ⟨t, ht, _, rfl⟩ | ⟨_, _, h, _⟩ := hstep.cases_behind
  · obtain ⟨i, hi⟩ := List.getElem?_of_mem (ht.mem hs)
    rw [Network.behind, hepsilon t (ht.mem hs)] at hsurvives
    exact ⟨1 + i, i, t, hi, rfl, hsurvives⟩
  · exact absurd h hstop

/-- What an alternative survives can be consumed from the state that decides. -/
theorem AltSurvives.exists_run (hw : Token.endOfInput ∉ w)
    (h : AltSurvives net decision context w alt) :
    ∃ q, net.Run ⟨id, context⟩ w q ∧ net.Rests q := by
  obtain ⟨i, t, ht, _, ⟨q, hrun, hrests⟩ | ⟨v, stop, rfl, _⟩⟩ := h
  · have hmem := List.mem_of_getElem? ht
    obtain ⟨target, label⟩ := t
    obtain rfl : label = .epsilon := hepsilon _ hmem
    exact ⟨q, .free (.epsilon ⟨decision, hs, hk, hmem⟩) hrun, hrests⟩
  · exact absurd (List.mem_append_right v List.mem_cons_self) hw

end

namespace Frontier.Tracks

/-- An alternative survives what one of its configurations survives the rest of. -/
theorem altSurvives_iff (hf : f.Tracks net decision outer v) (hv : Token.endOfInput ∉ v) :
    AltSurvives net decision outer (v ++ w) alt ↔
      ∃ c ∈ f.items, c.alt = alt ∧ net.Survives c.point w := by
  constructor
  · rintro ⟨i, t, ht, rfl, h⟩
    obtain ⟨⟨state, context⟩, hrun, hrests, hw⟩ := (Network.survives_append_iff hv).1 h
    obtain ⟨c, hc, hk⟩ := (hf.holds ⟨state, 1 + i, context⟩).2 ⟨hrests, i, t, ht, rfl, hrun⟩
    refine ⟨c, hc, congrArg Config.Key.alt hk, ?_⟩
    rw [Config.point, hk]
    exact hw
  · rintro ⟨c, hc, rfl, hw⟩
    obtain ⟨hrests, i, t, ht, halt, hrun⟩ := (hf.holds c.toKey).1 ⟨c, hc, rfl⟩
    exact ⟨i, t, ht, halt, (Network.survives_append_iff hv).2 ⟨c.point, hrun, hrests, hw⟩⟩

/-- The alternatives that are left are those that survive what has been looked at. -/
theorem altSurvives_self_iff (hf : f.Tracks net decision outer v) (hv : Token.endOfInput ∉ v) :
    AltSurvives net decision outer v alt ↔ ∃ c ∈ f.items, c.alt = alt := by
  have h : AltSurvives net decision outer (v ++ []) alt ↔ _ := hf.altSurvives_iff hv
  rw [List.append_nil] at h
  rw [h]
  refine exists_congr fun c => and_congr_right fun hc => and_iff_left ?_
  exact .inl ⟨c.point, .refl _, ((hf.holds c.toKey).1 ⟨c, hc, rfl⟩).1⟩

/-- Behind the end of the input, too. -/
theorem altSurvives_end_iff (hx : exit.active = false) {fuel : Nat}
    (hf : f.Tracks net decision outer w)
    (h : nextFrontier net exit fuel f Token.endOfInput = .ok g) :
    AltSurvives net decision outer (w ++ [Token.endOfInput]) alt ↔ ∃ c ∈ g.items, c.alt = alt := by
  have holds := hf.holds_next hx h
  constructor
  · rintro ⟨i, t, ht, rfl, ⟨⟨state, context⟩, hrun, hrests⟩ | ⟨v, stop, hv, hstop, hrun⟩⟩
    · obtain ⟨c, hc, hk⟩ := (holds ⟨state, 1 + i, context⟩).2
        (.inl ⟨hrests, i, t, ht, rfl, hrun⟩)
      exact ⟨c, hc, congrArg Config.Key.alt hk⟩
    · obtain rfl := List.append_cancel_right hv
      obtain ⟨c, hc, hk⟩ := (holds ⟨stop, 1 + i, []⟩).2
        (.inr ⟨rfl, ⟨.inl ⟨hstop, rfl⟩, i, t, ht, rfl, hrun⟩, hstop, rfl⟩)
      exact ⟨c, hc, congrArg Config.Key.alt hk⟩
  · rintro ⟨c, hc, rfl⟩
    obtain ⟨hrests, i, t, ht, halt, hrun⟩ | ⟨_, ⟨_, i, t, ht, halt, hrun⟩, hstop, hcontext⟩ :=
      (holds c.toKey).1 ⟨c, hc, rfl⟩
    · exact ⟨i, t, ht, halt, .inl ⟨_, hrun, hrests⟩⟩
    · refine ⟨i, t, ht, halt, .inr ⟨w, c.state, rfl, hstop, ?_⟩⟩
      rwa [Config.Key.point, hcontext] at hrun

end Frontier.Tracks

namespace Setting

/-! ## From frontier to frontier -/

/-- A decision is settled from a frontier on by looking at some of the tokens ahead. -/
inductive Settles (setting : Setting σ) : Bool → Frontier → List Token → Nat → Outcome → Prop
  | here {afterEnd : Bool} {f : Frontier} {tokens : List Token} {outcome : Outcome}
    {hearing hearing' : Hearing σ} :
    setting.settle (.ofFrontier setting.exit afterEnd f) hearing =
      (.ok (some outcome), hearing') → Settles setting afterEnd f tokens 0 outcome
  | later {afterEnd : Bool} {f g : Frontier} {t : Token} {tokens : List Token} {fuel n : Nat}
    {outcome : Outcome} {hearing hearing' : Hearing σ} :
    setting.settle (.ofFrontier setting.exit afterEnd f) hearing = (.ok none, hearing') →
    nextFrontier setting.grammar.toNetwork setting.exit fuel f t.type = .ok g →
    Settles setting (t.type == Token.endOfInput) g tokens n outcome →
      Settles setting afterEnd f (t :: tokens) (n + 1) outcome

variable {setting : Setting σ} {fuel : Nat} {options : PredictOptions}
  {contexts : Set (List StateId)}

section

variable (hsep : Separates setting.grammar.toNetwork setting.exit setting.decision contexts)
  (hstops : ∀ lookahead, options.stops lookahead = false)

include hsep hstops

/-- What is come to by following a sound automaton is come to from frontier to
    frontier. -/
theorem follow_settles (trial : Trial σ) {i : Nat} {n : Node} {f : Frontier}
    (ha : trial.automaton.IsSound setting.grammar.toNetwork setting.exit setting.decision contexts)
    {tokens : List Token} (hlast : OnlyLastEnds tokens) {afterEnd : Bool}
    (hend : afterEnd = true → tokens = []) {stop lookahead stop' lookahead' : Nat}
    (hn : trial.automaton.nodes[i]? = some n) (hmatch : n.Matches setting.exit afterEnd f)
    {outcome : Outcome} (h : (setting.follow fuel options tokens i stop lookahead trial).1 =
      .ok (outcome, stop', lookahead')) :
    ∃ k ≤ tokens.length, setting.Settles afterEnd f tokens k outcome ∧
      stop' = ((tokens.take k).map Token.index).getLastD stop := by
  obtain ⟨trial', hfollow⟩ : ∃ trial', setting.follow fuel options tokens i stop lookahead trial =
      (.ok (outcome, stop', lookahead'), trial') := ⟨_, Prod.ext h rfl⟩
  obtain ⟨settled, hearing, hs, hcases⟩ := follow_cases hfollow
  rw [Automaton.node_eq hn, settle_eq trial ha hn hmatch] at hs
  obtain ⟨_, rfl, hr, _⟩ | ⟨_, hstop, _⟩ | ⟨rfl, _, t, rest, j, trial₁, rfl, hnext, hrest⟩ := hcases
  · cases hr
    exact ⟨0, Nat.zero_le _, .here hs, rfl⟩
  · rw [hstops] at hstop
    cases hstop
  · -- There is a token ahead, so this is not behind the end of the input.
    obtain rfl : afterEnd = false :=
      Bool.eq_false_iff.2 fun he => List.cons_ne_nil t rest (hend he)
    have hopen : setting.exit.LeavesOpen n.frontier := by
      rw [← setting.settle_view false hmatch.2] at hs
      exact leavesOpen_of_settle hs
    obtain ⟨_, _, hnext'⟩ | ⟨_, g, j', a, m, hg, hnext', hsound, hm, hmm⟩ :=
        next_cases { trial with toHearing := hearing } hsep ha hn hmatch hopen t.type <;>
      cases hnext.symm.trans hnext'
    obtain ⟨k, hk, hsettles, hstop⟩ := follow_settles { toHearing := hearing, automaton := a } hsound
      hlast.2 (fun he => hlast.1 he) hm hmm (congrArg Prod.fst hrest)
    refine ⟨k + 1, Nat.succ_le_succ hk, .later hs hg hsettles, ?_⟩
    rw [List.take_succ_cons, List.map_cons, List.getLastD_cons, hstop]
termination_by tokens

/-- What a prediction with a sound automaton comes to is come to from the frontier that
    the decision starts with. -/
theorem run_settles (trial : Trial σ)
    (ha : trial.automaton.IsSound setting.grammar.toNetwork setting.exit setting.decision contexts)
    (ho : setting.outer ∈ contexts) {outcome : Outcome} {stop lookahead : Nat}
    (h : (setting.run fuel options trial).1 = .ok (outcome, stop, lookahead)) :
    ∃ (fuel : Nat) (f : Frontier) (k : Nat),
      startFrontier setting.grammar.toNetwork setting.exit fuel setting.decision setting.outer =
        .ok f ∧ k ≤ setting.input.ahead.length ∧
      setting.Settles false f setting.input.ahead k outcome ∧
      stop = ((setting.input.ahead.take k).map Token.index).getLastD setting.input.position := by
  rw [run, bind_apply] at h
  obtain ⟨fault, _, hs⟩ | ⟨fuel', f, i, a, n, hf, hs, hsound, hn, hmatch⟩ :=
    start_cases trial hsep ha ho
  · rw [hs] at h
    cases h
  · rw [hs] at h
    obtain ⟨k, hk, hsettles, hstop⟩ := follow_settles hsep hstops { trial with automaton := a }
      hsound (onlyLastEnds_throughEnd _) (fun he => absurd he Bool.false_ne_true) hn hmatch h
    exact ⟨fuel', f, k, hf, hk, hsettles, hstop⟩

end

/-! ## What is settled -/

/-- Where a frontier that holds the alternatives that survive some types settles the
    decision, the outcome heeds what they survive, as long as its configurations tell
    which alternatives survive more. -/
theorem heeds_of_settle (hx : setting.exit.active = false) (hf : f.guarded = false)
    {afterEnd : Bool} {hearing hearing' : Hearing σ} {outcome : Outcome}
    (hs : setting.settle (.ofFrontier setting.exit afterEnd f) hearing =
      (.ok (some outcome), hearing')) {survives : List Int → Int → Prop} {v ahead : List Int}
    (hv : v <+: ahead) (hself : ∀ alt, survives v alt ↔ ∃ c ∈ f.items, c.alt = alt)
    (hpart : ∀ u alt, u <+: v → survives v alt → survives u alt)
    (hmore : ∀ u, v ++ u <+: ahead → ∃ live : Point → Prop,
      (∀ alt, survives (v ++ u) alt ↔ ∃ c ∈ f.items, c.alt = alt ∧ live c.point) ∧
        (afterEnd = true → ∀ c ∈ f.items, live c.point))
    (hprev : ∀ m, v.length = m + 1 → ∃ alt, survives (v.take m) alt) :
    outcome.Heeds survives ahead v.length := by
  -- Any alternative that survives has the one that is taken survive as well.
  have takes (live : Point → Prop) (hlive : afterEnd = true → ∀ c ∈ f.items, live c.point)
      {c : Config} (hc : c ∈ f.items) (h : live c.point) : ∃ alt, outcome.alt? = some alt ∧
        ∃ c ∈ f.items, c.alt = alt ∧ live c.point := by
    have hexact := isExact_of_settle hx live hf (fun _ => .rfl) hlive hs
    exact hexact.exists_alt ⟨c, hc, rfl, h⟩
  rw [settle_of_unguarded hf] at hs
  constructor
  case taken =>
    intro alt halt u hu other hother
    rcases List.prefix_or_prefix_of_prefix hv hu with ⟨u, rfl⟩ | hu
    · obtain ⟨live, hsurvives, hlive⟩ := hmore u hu
      obtain ⟨c, hc, _, hlivec⟩ := (hsurvives other).1 hother
      obtain ⟨alt', halt', hsurvives'⟩ := takes live hlive hc hlivec
      obtain rfl : alt' = alt := Option.some.inj (halt'.symm.trans halt)
      exact (hsurvives alt').2 hsurvives'
    · have hne : f.items ≠ [] := by
        intro hnil
        rw [show f.isEmpty = true from List.isEmpty_iff.2 hnil, if_pos rfl] at hs
        cases Except.ok.inj (congrArg Prod.fst hs)
        cases halt
      obtain ⟨c, hc⟩ := List.exists_mem_of_ne_nil _ hne
      obtain ⟨alt', halt', d, hd, hdalt, _⟩ :=
        takes (fun _ => True) (fun _ _ _ => trivial) hc trivial
      obtain rfl : alt' = alt := Option.some.inj (halt'.symm.trans halt)
      exact hpart u alt' hu ((hself alt').2 ⟨d, hd, hdalt⟩)
  case viable =>
    intro hnone
    have hempty : f.items = [] := by
      by_contra hne
      obtain ⟨c, hc⟩ := List.exists_mem_of_ne_nil _ hne
      obtain ⟨alt, halt, _⟩ := takes (fun _ => True) (fun _ _ _ => trivial) hc trivial
      rw [hnone] at halt
      cases halt
    obtain ⟨rest, rfl⟩ := hv
    rw [show f.isEmpty = true from List.isEmpty_iff.2 hempty, if_pos rfl] at hs
    cases Except.ok.inj (congrArg Prod.fst hs)
    refine ⟨rfl, fun alt h => ?_, fun m hm => ?_⟩
    · rw [List.take_left] at h
      obtain ⟨c, hc, _⟩ := (hself alt).1 h
      rw [hempty] at hc
      cases hc
    · rw [List.take_append_of_le_length (by omega)]
      exact hprev m hm

section

variable (hx : setting.exit.active = false) {hearing hearing' : Hearing σ} {outcome : Outcome}
  (hf : f.Tracks setting.grammar.toNetwork setting.decision setting.outer w)
  (hw : Token.endOfInput ∉ w)

include hx hf hw

theorem heeds_of_settle_tracks
    (hs : setting.settle (.ofFrontier setting.exit false f) hearing =
      (.ok (some outcome), hearing')) (ahead : List Int)
    (hprev : ∀ m, w.length = m + 1 → ∃ alt,
      AltSurvives setting.grammar.toNetwork setting.decision setting.outer (w.take m) alt) :
    outcome.Heeds (AltSurvives setting.grammar.toNetwork setting.decision setting.outer)
      (w ++ ahead) w.length := by
  refine heeds_of_settle hx hf.unguarded hs (List.prefix_append w ahead)
    (fun alt => hf.altSurvives_self_iff hw) ?_ (fun u _ => ?_) hprev
  · rintro u alt ⟨rest, rfl⟩ hsurvives
    exact hsurvives.of_append fun hu => hw (List.mem_append_left rest hu)
  · exact ⟨fun p => setting.grammar.toNetwork.Survives p u,
      fun alt => hf.altSurvives_iff hw, fun he => absurd he Bool.false_ne_true⟩

theorem heeds_of_settle_end {fuel : Nat}
    (hg : nextFrontier setting.grammar.toNetwork setting.exit fuel f Token.endOfInput = .ok g)
    (hs : setting.settle (.ofFrontier setting.exit true g) hearing =
      (.ok (some outcome), hearing'))
    (hprev : ∃ alt, AltSurvives setting.grammar.toNetwork setting.decision setting.outer w alt) :
    outcome.Heeds (AltSurvives setting.grammar.toNetwork setting.decision setting.outer)
      (w ++ [Token.endOfInput]) (w.length + 1) := by
  have hlen : (w ++ [Token.endOfInput]).length = w.length + 1 := by simp
  rw [← hlen]
  refine heeds_of_settle hx (hf.isTrivial_next hg).2 hs (List.prefix_refl _)
    (fun alt => hf.altSurvives_end_iff hx hg) (fun u alt hu hsurvives => ?_) (fun u hu => ?_)
    fun m hm => ?_
  · rcases List.prefix_concat_iff.1 hu with rfl | ⟨rest, rfl⟩
    · exact hsurvives
    · rw [List.append_assoc] at hsurvives
      exact hsurvives.of_append fun hu => hw (List.mem_append_left rest hu)
  · -- Nothing is ahead behind the end of the input.
    obtain rfl : u = [] := by
      have hle := hu.length_le
      rw [List.length_append] at hle
      exact List.length_eq_zero_iff.1 (by omega)
    refine ⟨fun _ => True, fun alt => ?_, fun _ _ _ => trivial⟩
    rw [List.append_nil, hf.altSurvives_end_iff hx hg]
    simp only [and_true]
  · obtain rfl : m = w.length := by omega
    rwa [List.take_left]

end

/-- What is come to from a frontier that tracks what has been looked at heeds what the
    alternatives survive. -/
theorem Settles.heeds (hx : setting.exit.active = false) {tokens : List Token}
    (hlast : OnlyLastEnds tokens) {n : Nat} {outcome : Outcome}
    (h : setting.Settles false f tokens n outcome)
    (hf : f.Tracks setting.grammar.toNetwork setting.decision setting.outer w)
    (hw : Token.endOfInput ∉ w) (hprev : ∀ m, w.length = m + 1 → ∃ alt,
      AltSurvives setting.grammar.toNetwork setting.decision setting.outer (w.take m) alt) :
    outcome.Heeds (AltSurvives setting.grammar.toNetwork setting.decision setting.outer)
      (w ++ tokens.map Token.type) (w.length + n) := by
  induction tokens generalizing f w n with
  | nil =>
    cases h with
    | here hs => exact heeds_of_settle_tracks hx hf hw hs _ hprev
  | cons t rest ih =>
    cases h with
    | here hs => exact heeds_of_settle_tracks hx hf hw hs _ hprev
    | @later _ _ g _ _ fuel n _ _ _ hs hg h =>
      -- The frontier leaves the decision open, so an alternative is left.
      have hleft : ∃ alt,
          AltSurvives setting.grammar.toNetwork setting.decision setting.outer w alt := by
        rw [settle_of_unguarded hf.unguarded] at hs
        have hnone := Except.ok.inj (congrArg Prod.fst hs)
        split at hnone
        · cases hnone
        · next hne =>
          obtain ⟨c, hc⟩ := List.exists_mem_of_ne_nil f.items fun hnil =>
            hne (List.isEmpty_iff.2 hnil)
          exact ⟨c.alt, (hf.altSurvives_self_iff hw).2 ⟨c, hc, rfl⟩⟩
      by_cases htype : t.type = Token.endOfInput
      · obtain rfl := hlast.1 (beq_iff_eq.2 htype)
        rw [htype] at hg h
        rw [beq_self_eq_true] at h
        cases h with
        | here hs =>
          rw [List.map_cons, htype]
          exact heeds_of_settle_end hx hf hw hg hs hleft
      · rw [beq_false_of_ne htype] at h
        have hlen : w.length + (n + 1) = (w ++ [t.type]).length + n := by
          rw [List.length_append, List.length_singleton]
          omega
        rw [List.map_cons, List.append_cons, hlen]
        refine ih hlast.2 h (hf.next hx htype hg) ?_ fun m hm => ?_
        · rw [List.mem_append, List.mem_singleton]
          exact fun hmem => hmem.elim hw fun he => htype he.symm
        · obtain rfl : m = w.length := by
            rw [List.length_append, List.length_singleton] at hm
            omega
          rwa [List.take_left]

end Setting

namespace Grammar

variable {g : Grammar σ} {fuel : Nat} {options : PredictOptions} {id : StateId} {s : State}
  {input : Input} {stack : Stack} {cache : Cache} {host : σ}

/-- A prediction with a reachable cache heeds what the alternatives survive, where no
    predicates decide and the decision is not that of a non-greedy loop. -/
theorem predictAt_heeds (hg : g.IsBuilt) (hpredicate : g.toNetwork.HasNoPredicate)
    (hs : g.state id = .ok s) (hgreedy : g.toNetwork.IsGreedyAt id)
    (hstops : ∀ lookahead, options.stops lookahead = false)
    (hcache : cache.IsReachable g fun _ _ => True) {p : Prediction}
    (hp : (g.predictAt fuel options id input stack (cache, host)).1 = .ok p) :
    ∃ n ≤ input.ahead.length,
      p.outcome.Heeds (AltSurvives g.toNetwork s stack.context) (input.ahead.map Token.type) n ∧
      p.stop = ((input.ahead.take n).map Token.index).getLastD input.position := by
  cases hset : g.setting id input stack with
  | error fault =>
    rw [predictAt_of_error hset] at hp
    cases hp
  | ok setting =>
    obtain ⟨rfl, hstate, hnumber, hexit, houter, rfl⟩ := setting_eq_ok hset
    obtain rfl := Except.ok.inj (hstate.symm.trans hs)
    have hx := hgreedy _ _ hstate hexit
    have hsep : Separates setting.grammar.toNetwork setting.exit setting.decision
        (contextsAt (fun _ _ => True) id) := separates_of_inactive hx
    obtain ⟨a, ha, hsound⟩ := (hcache.isSound hg.isSound).exists_automaton hg.isSound hstate hnumber
      hexit hsep options
    rw [predictAt_of_ok hset ha] at hp
    obtain ⟨⟨outcome, stop, lookahead⟩, hrun, rfl⟩ := Except.exists_of_map hp
    obtain ⟨k, f, n, hf, hn, hsettles, hstop⟩ := Setting.run_settles hsep hstops _ hsound
      ⟨stack, trivial, houter.symm⟩ hrun
    have htracks := tracks_startFrontier hx hf (guarded_startFrontier hpredicate hf)
    have hheeds := hsettles.heeds hx (onlyLastEnds_throughEnd _) htracks List.not_mem_nil
      fun m hm => by cases hm
    rw [List.length_nil, Nat.zero_add, houter] at hheeds
    exact ⟨n, hn, hheeds, hstop⟩

end Grammar

end AdaptiveLL
