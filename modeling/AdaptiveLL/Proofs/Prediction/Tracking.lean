import AdaptiveLL.Proofs.Prediction.Exploration
import AdaptiveLL.Proofs.Prediction.Sharing

/-!
# What a frontier stands for

The frontiers of a decision that is not that of a non-greedy loop stand for its
alternatives: after a word, the frontier holds exactly the points of rest that
the alternatives come to by this word (`Frontier.Tracks`). It does so at the start
(`tracks_startFrontier`), and every token keeps it so (`Frontier.Tracks.next`), as long
as no guards are collected.

So what remains of a word is accepted by an alternative if and only if it is
accepted where some configuration of the alternative stands
(`Frontier.Tracks.altAccepts_iff`). Behind the end of the input the configurations that
are left stand where their alternatives have accepted (`Frontier.Tracks.altAccepts_end_iff`).
-/

namespace AdaptiveLL

variable (net : Network) (exit : LoopExit) (decision : State) (outer : List StateId)

/-- An alternative of a decision comes to a point by a word. -/
def Comes (w : List Int) (k : Config.Key) : Prop :=
  ∃ (i : Nat) (t : Transition), decision.transitions[i]? = some t ∧ k.alt = 1 + i ∧
    net.Run ⟨t.target, outer⟩ w k.point

/-- An alternative of a decision comes to a point of rest by a word. -/
def Arrives (w : List Int) (k : Config.Key) : Prop :=
  net.Rests k.point ∧ ∃ (i : Nat) (t : Transition), decision.transitions[i]? = some t ∧
    k.alt = 1 + i ∧ net.Run ⟨t.target, outer⟩ w k.point

/-- An alternative of a decision accepts a word. -/
def AltAccepts (w : List Int) (alt : Int) : Prop :=
  ∃ (i : Nat) (t : Transition), decision.transitions[i]? = some t ∧ alt = 1 + i ∧
    net.Accepts ⟨t.target, outer⟩ w

/-- No alternative of a decision consumes anything behind the end of the input. -/
def EndsWithInput : Prop :=
  ∀ t ∈ decision.transitions, ∀ v w q,
    net.Run ⟨t.target, outer⟩ (v ++ Token.endOfInput :: w) q → w = []

/-- A frontier holds the points of rest that alternatives come to by a word, under
    trivial guards. -/
structure Frontier.Tracks (f : Frontier) (w : List Int) : Prop where
  holds : ∀ k, f.Holds k ↔ Arrives net decision outer w k
  trivial : ∀ c ∈ f.items, c.guard.isTrivial = true
  unguarded : f.guarded = false

variable {net exit decision outer} {v w : List Int}

/-- Where no transition matches the end of the input, nothing is consumed behind it. -/
theorem endsWithInput_of_not_accepts
    (h : ∀ id t, net.HasTransition id t → t.label.accepts Token.endOfInput = false) :
    EndsWithInput net decision outer := by
  intro t _ v w q hrun
  obtain ⟨_, _, hend⟩ := Network.run_append_iff.1 hrun
  obtain ⟨id, _, t', _, ht', ha, _⟩ := Network.run_cons_iff.1 hend
  rw [h id t' ht'] at ha
  cases ha

theorem altAccepts_append_iff {alt : Int} : AltAccepts net decision outer (v ++ w) alt ↔
    ∃ k, Arrives net decision outer v k ∧ k.alt = alt ∧ net.Accepts k.point w := by
  constructor
  · rintro ⟨i, t, ht, rfl, h⟩
    obtain ⟨⟨state, context⟩, hrun, hrests, hw⟩ := Network.accepts_append_iff.1 h
    exact ⟨⟨state, 1 + i, context⟩, ⟨hrests, i, t, ht, rfl, hrun⟩, rfl, hw⟩
  · rintro ⟨k, ⟨hrests, i, t, ht, halt, hrun⟩, rfl, hw⟩
    exact ⟨i, t, ht, halt, Network.accepts_append_iff.2 ⟨k.point, hrun, hrests, hw⟩⟩

/-! ## Guards -/

namespace Frontier

theorem isTrivial_of_mem_add {f : Frontier} {c : Config}
    (hf : ∀ d ∈ f.items, d.guard.isTrivial = true) (hc : c.guard.isTrivial = true) :
    ∀ d ∈ (f.add c).items, d.guard.isTrivial = true := by
  intro d hd
  rw [add] at hd
  split at hd
  · -- Joined with whatever guard, a trivial one stays trivial.
    obtain ⟨e, he, rfl⟩ := List.mem_map.1 hd
    rw [joinGuard]
    split
    · dsimp only
      rw [Guard.or, if_pos (hf e he)]
      exact hf e he
    · exact hf e he
  · rcases List.mem_append.1 hd with hd | hd
    · exact hf d hd
    · rwa [List.mem_singleton.1 hd]

theorem isTrivial_of_mem_foldl_add {l : List Config} {f : Frontier}
    (hf : ∀ d ∈ f.items, d.guard.isTrivial = true) (hl : ∀ c ∈ l, c.guard.isTrivial = true) :
    ∀ d ∈ (l.foldl add f).items, d.guard.isTrivial = true := by
  induction l generalizing f with
  | nil => exact hf
  | cons c l ih =>
    obtain ⟨hc, hl⟩ := List.forall_mem_cons.1 hl
    exact ih (isTrivial_of_mem_add hf hc) hl

end Frontier

/-- Closures that collect no predicates leave guards as they are. -/
theorem guard_eq_of_follows {collect : Bool} (hc : collect = false ∨ net.HasNoPredicate)
    {c d : Config} (h : Relation.ReflTransGen (Follows net exit collect) c d) :
    d.guard = c.guard := by
  induction h with
  | refl => rfl
  | tail _ hf ih =>
    obtain hg | ⟨t, p, hcollect, ht, hl, _⟩ := hf.guard
    · rw [hg, ih]
    · rcases hc with rfl | hnone
      · cases hcollect
      · exact absurd hl (hnone _ t ht p)

namespace Search

variable {search : Search}

theorem isTrivial_of_guarded_eq_false (h : search.frontier.guarded = false) :
    ∀ c ∈ search.frontier.items, c.guard.isTrivial = true := by
  rw [guarded_frontier] at h
  simpa using h

theorem isTrivial_frontier (h : ∀ c ∈ search.kept, c.guard.isTrivial = true) :
    (∀ c ∈ search.frontier.items, c.guard.isTrivial = true) ∧ search.frontier.guarded = false := by
  have htrivial : ∀ c ∈ search.frontier.items, c.guard.isTrivial = true := by
    intro c hc
    rw [frontier, Frontier.ofList_eq_foldl] at hc
    exact Frontier.isTrivial_of_mem_foldl_add (f := {}) (List.forall_mem_nil _)
      (fun d hd => h d (List.mem_reverse.1 hd)) c ((Frontier.sortByAlt_perm _).mem_iff.1 hc)
  refine ⟨htrivial, ?_⟩
  rw [guarded_frontier]
  simpa using htrivial

/-- Closures that collect no predicates keep guards trivial. -/
theorem Extends.isTrivial {collect : Bool} (hc : collect = false ∨ net.HasNoPredicate)
    {roots ends new : List Config} (h : Search.Extends net exit collect roots ends new {} search)
    (hroots : ∀ r ∈ roots, r.guard.isTrivial = true)
    (hends : ∀ d ∈ ends, d.guard.isTrivial = true) :
    ∀ c ∈ search.kept, c.guard.isTrivial = true := by
  intro c hkept
  rcases (h.kept c).1 hkept with hnil | ⟨hnew, _⟩ | hd
  · cases hnil
  · obtain ⟨r, hr, hrun⟩ := h.origin c hnew
    rw [guard_eq_of_follows hc hrun]
    exact hroots r hr
  · exact hends c hd

end Search

/-! ## Along a word -/

/-- The frontier that a decision starts with holds the points of rest that alternatives come
    to without a token. -/
theorem holds_startFrontier_iff (hx : exit.active = false) {fuel : Nat} {f : Frontier}
    (h : startFrontier net exit fuel decision outer = .ok f) {k : Config.Key} :
    f.Holds k ↔ Arrives net decision outer [] k := by
  obtain ⟨search, hs, h⟩ := Except.exists_of_bind h
  cases h
  obtain ⟨roots, new, hnew, hroots⟩ := startFrom_extends hs
  rw [hnew.holds_iff hx]
  constructor
  · rintro (⟨r, hr, halt, hreach, hrests⟩ | ⟨_, ⟨⟩, _⟩)
    obtain ⟨i, t, ht, rfl⟩ := (hroots r).1 hr
    exact ⟨hrests, i, t, ht, halt.symm, Network.run_nil_iff.2 hreach⟩
  · rintro ⟨hrests, i, t, ht, halt, hrun⟩
    exact .inl ⟨_, (hroots _).2 ⟨i, t, ht, rfl⟩, halt.symm, Network.run_nil_iff.1 hrun, hrests⟩

/-- The frontier that a decision starts with tracks the empty word. -/
theorem tracks_startFrontier (hx : exit.active = false) {fuel : Nat} {f : Frontier}
    (h : startFrontier net exit fuel decision outer = .ok f) (hf : f.guarded = false) :
    f.Tracks net decision outer [] := by
  refine ⟨fun k => holds_startFrontier_iff hx h, ?_, hf⟩
  obtain ⟨search, _, h⟩ := Except.exists_of_bind h
  cases h
  exact Search.isTrivial_of_guarded_eq_false hf

/-- Without predicates, a decision starts without guards. -/
theorem guarded_startFrontier (hnet : net.HasNoPredicate) {fuel : Nat} {f : Frontier}
    (h : startFrontier net exit fuel decision outer = .ok f) : f.guarded = false := by
  obtain ⟨search, hs, h⟩ := Except.exists_of_bind h
  cases h
  obtain ⟨roots, new, hnew, hroots⟩ := startFrom_extends hs
  refine (Search.isTrivial_frontier (hnew.isTrivial (.inr hnet) (fun r hr => ?_) nofun)).2
  obtain ⟨i, t, _, rfl⟩ := (hroots r).1 hr
  rfl

/-- The points that are come to by one token more are those that some configurations come to by
    it, if these stand where alternatives come to, and wherever such a one waits. -/
theorem comes_append_iff {configs : List Config}
    (hsound : ∀ c ∈ configs, Comes net decision outer w c.toKey)
    (hall : ∀ k, Comes net decision outer w k → net.Waits k.point →
      ∃ c ∈ configs, c.toKey = k) {type : Int} {k : Config.Key} :
    Comes net decision outer (w ++ [type]) k ↔
      ∃ c ∈ configs, ∃ r, Consumes net type c r ∧ r.alt = k.alt ∧
        net.Reaches r.point k.point := by
  constructor
  · rintro ⟨i, t₀, ht₀, halt, hrun⟩
    obtain ⟨q, hrun, hcons⟩ := Network.run_append_iff.1 hrun
    obtain ⟨id, context, t, hreach, ht, ha, hnil⟩ := Network.run_cons_iff.1 hcons
    -- Before it consumes the token, the run waits for one.
    have hrun' := hrun.trans (Network.run_nil_iff.2 hreach)
    rw [List.append_nil] at hrun'
    obtain ⟨c, hc, hk⟩ := hall ⟨id, k.alt, context⟩ ⟨i, t₀, ht₀, halt, hrun'⟩
      (Network.waits_of_accepts ht ha)
    obtain ⟨⟨state, alt, context'⟩, guard, depth, left⟩ := c
    cases hk
    exact ⟨_, hc, _, ⟨t, ht, ha, rfl⟩, rfl, Network.run_nil_iff.1 hnil⟩
  · rintro ⟨c, hc, r, ⟨t, ht, ha, rfl⟩, halt, hreach⟩
    obtain ⟨i, t₀, ht₀, halt₀, hrun⟩ := hsound c hc
    refine ⟨i, t₀, ht₀, halt.symm.trans halt₀, ?_⟩
    exact hrun.trans (Network.run_cons_iff.2
      ⟨c.state, c.context, t, .refl, ht, ha, Network.run_nil_iff.2 hreach⟩)

/-- The points of rest that are come to by one token more are those that the configurations of a
    frontier come to by it, if it holds the points of rest that are come to before. -/
theorem arrives_append_iff {f : Frontier}
    (hf : ∀ k, f.Holds k ↔ Arrives net decision outer w k) {type : Int} {k : Config.Key} :
    Arrives net decision outer (w ++ [type]) k ↔
      ∃ c ∈ f.items, ∃ r, Consumes net type c r ∧ r.alt = k.alt ∧
        net.Reaches r.point k.point ∧ net.Rests k.point := by
  have hcomes : Comes net decision outer (w ++ [type]) k ↔ _ :=
    comes_append_iff (fun c hc => ((hf c.toKey).1 ⟨c, hc, rfl⟩).2)
      (fun k hk hwaits => (hf k).2 ⟨.inr hwaits, hk⟩)
  show _ ∧ Comes net decision outer (w ++ [type]) k ↔ _
  rw [hcomes]
  constructor
  · rintro ⟨hrests, c, hc, r, hr, halt, hreach⟩
    exact ⟨c, hc, r, hr, halt, hreach, hrests⟩
  · rintro ⟨c, hc, r, hr, halt, hreach, hrests⟩
    exact ⟨hrests, c, hc, r, hr, halt, hreach⟩

/-- A token leads a frontier to the points of rest that its configurations come to by it; by the end
    of the input, the ends of rules that have no caller stay. -/
theorem holds_nextFrontier_iff (hx : exit.active = false) {fuel : Nat} {type : Int}
    {f g : Frontier} (h : nextFrontier net exit fuel f type = .ok g) {k : Config.Key} :
    g.Holds k ↔ (∃ c ∈ f.items, ∃ r, Consumes net type c r ∧ r.alt = k.alt ∧
        net.Reaches r.point k.point ∧ net.Rests k.point) ∨
      (type = Token.endOfInput ∧ f.Holds k ∧ net.IsStop k.state ∧ k.context = []) := by
  obtain ⟨search, hs, h⟩ := Except.exists_of_bind h
  cases h
  obtain ⟨roots, ends, new, hnew, hroots, hends⟩ := advanceAll_extends hs
  rw [hnew.holds_iff hx]
  refine or_congr ?_ ?_
  · constructor
    · rintro ⟨r, hr, halt, hreach, hrests⟩
      obtain ⟨c, hc, hcr⟩ := (hroots r).1 hr
      exact ⟨c, hc, r, hcr, halt, hreach, hrests⟩
    · rintro ⟨c, hc, r, hcr, halt, hreach, hrests⟩
      exact ⟨r, (hroots r).2 ⟨c, hc, hcr⟩, halt, hreach, hrests⟩
  · constructor
    · rintro ⟨d, hd, rfl⟩
      obtain ⟨hd, hend, hstop, hcontext, _⟩ := (hends d).1 hd
      exact ⟨hend, ⟨d, hd, rfl⟩, hstop, hcontext⟩
    · rintro ⟨hend, ⟨d, hd, rfl⟩, hstop, hcontext⟩
      exact ⟨d, (hends d).2 ⟨hd, hend, hstop, hcontext, isAtEnd_of_inactive hx d⟩, rfl⟩

theorem Frontier.Tracks.holds_next (hx : exit.active = false) {fuel : Nat} {type : Int}
    {f g : Frontier} (hf : f.Tracks net decision outer w)
    (h : nextFrontier net exit fuel f type = .ok g) (k : Config.Key) :
    g.Holds k ↔ Arrives net decision outer (w ++ [type]) k ∨
      (type = Token.endOfInput ∧ Arrives net decision outer w k ∧ net.IsStop k.state ∧
        k.context = []) := by
  rw [holds_nextFrontier_iff hx h, arrives_append_iff hf.holds, hf.holds]

/-- Behind a token no predicates are collected, so guards stay trivial. -/
theorem isTrivial_nextFrontier {fuel : Nat} {type : Int} {f g : Frontier}
    (hf : ∀ c ∈ f.items, c.guard.isTrivial = true)
    (h : nextFrontier net exit fuel f type = .ok g) :
    (∀ c ∈ g.items, c.guard.isTrivial = true) ∧ g.guarded = false := by
  obtain ⟨search, hs, h⟩ := Except.exists_of_bind h
  cases h
  obtain ⟨roots, ends, new, hnew, hroots, hends⟩ := advanceAll_extends hs
  refine Search.isTrivial_frontier (hnew.isTrivial (.inl rfl) (fun r hr => ?_) fun d hd => ?_)
  · obtain ⟨c, hc, t, _, _, rfl⟩ := (hroots r).1 hr
    exact hf c hc
  · exact hf d ((hends d).1 hd).1

theorem Frontier.Tracks.isTrivial_next {fuel : Nat} {type : Int} {f g : Frontier}
    (hf : f.Tracks net decision outer w) (h : nextFrontier net exit fuel f type = .ok g) :
    (∀ c ∈ g.items, c.guard.isTrivial = true) ∧ g.guarded = false :=
  isTrivial_nextFrontier hf.trivial h

/-- A token that does not end the input leads to a frontier that tracks one token
    more. -/
theorem Frontier.Tracks.next (hx : exit.active = false) {fuel : Nat} {type : Int}
    {f g : Frontier} (hf : f.Tracks net decision outer w) (htype : type ≠ Token.endOfInput)
    (h : nextFrontier net exit fuel f type = .ok g) :
    g.Tracks net decision outer (w ++ [type]) where
  holds k := by
    rw [hf.holds_next hx h, or_iff_left fun hend => htype hend.1]
  trivial := (hf.isTrivial_next h).1
  unguarded := (hf.isTrivial_next h).2

/-! ## What alternatives accept -/

namespace Frontier.Tracks

variable {f g : Frontier} {alt : Int}

/-- An alternative accepts what one of its configurations accepts the rest of. -/
theorem altAccepts_iff (hf : f.Tracks net decision outer v) :
    AltAccepts net decision outer (v ++ w) alt ↔
      ∃ c ∈ f.items, c.alt = alt ∧ net.Accepts c.point w := by
  rw [altAccepts_append_iff]
  constructor
  · rintro ⟨k, hk, rfl, hw⟩
    obtain ⟨c, hc, rfl⟩ := (hf.holds k).2 hk
    exact ⟨c, hc, rfl, hw⟩
  · rintro ⟨c, hc, rfl, hw⟩
    exact ⟨c.toKey, (hf.holds _).1 ⟨c, hc, rfl⟩, rfl, hw⟩

/-- Behind the end of the input, the alternatives of the configurations that are left
    have accepted it: nothing more is consumed, so a point of rest is the end of a
    rule. -/
theorem altAccepts_end_iff (hx : exit.active = false) (hend : EndsWithInput net decision outer)
    (hmatch : net.IsMatchable) {fuel : Nat} (hf : f.Tracks net decision outer w)
    (h : nextFrontier net exit fuel f Token.endOfInput = .ok g) :
    AltAccepts net decision outer w alt ↔ ∃ c ∈ g.items, c.alt = alt := by
  have holds := hf.holds_next hx h
  constructor
  · rintro ⟨i, t, ht, rfl, stop, hstop, hrun⟩
    have hrests : net.Rests ⟨stop, []⟩ := .inl ⟨hstop, rfl⟩
    have hg : g.Holds ⟨stop, 1 + i, []⟩ := by
      rw [holds]
      rcases hrun with hrun | hrun
      · exact .inr ⟨rfl, ⟨hrests, i, t, ht, rfl, hrun⟩, hstop, rfl⟩
      · exact .inl ⟨hrests, i, t, ht, rfl, hrun⟩
    obtain ⟨c, hc, hk⟩ := hg
    exact ⟨c, hc, congrArg Config.Key.alt hk⟩
  · rintro ⟨c, hc, rfl⟩
    obtain ⟨hrests, i, t, ht, halt, hrun⟩ | ⟨_, ⟨_, i, t, ht, halt, hrun⟩, hstop, hcontext⟩ :=
      (holds c.toKey).1 ⟨c, hc, rfl⟩
    · -- No token can be consumed any more, so the run rests at the end of a rule.
      rcases hrests with ⟨hstop, hcontext⟩ | ⟨t', ht', hfree⟩
      · refine ⟨i, t, ht, halt, c.state, hstop, .inr ?_⟩
        rwa [Config.Key.point, show c.context = [] from hcontext] at hrun
      · obtain ⟨type, ha⟩ := hmatch _ _ ht' hfree
        have hmore := hrun.trans (.token ht' ha (.refl ⟨t'.target, c.context⟩))
        rw [List.append_assoc] at hmore
        cases hend t (List.mem_of_getElem? ht) _ _ _ hmore
    · refine ⟨i, t, ht, halt, c.state, hstop, .inl ?_⟩
      rwa [Config.Key.point, hcontext] at hrun

/-- In a network that is closed, configurations stand at states that exist. -/
theorem isIn (hnet : net.IsClosed) (houter : ∀ id ∈ outer, net.HasState id)
    (hdecision : ∀ t ∈ decision.transitions, net.HasState t.target)
    (hf : f.Tracks net decision outer w) : ∀ c ∈ f.items, net.IsIn c.point := by
  intro c hc
  obtain ⟨_, i, t, ht, _, hrun⟩ := (hf.holds c.toKey).1 ⟨c, hc, rfl⟩
  exact hrun.isIn hnet ⟨hdecision t (List.mem_of_getElem? ht), houter⟩

end Frontier.Tracks

end AdaptiveLL
