import AdaptiveLL.Proofs.Prediction.Guarding
import AdaptiveLL.Proofs.Prediction.Tracking

/-!
# Predicates as guards

A prediction carries the predicates of its own invocation as guards and looks at them
only when a frontier has to be settled. What it then drops is what a simulation would
have dropped on the way (`siftedAfter`) that does not cross a predicate of the invocation
unless it may hold (`Network.ReachesUnder`).

This is so where the invocation is not *reentered* at a predicate
(`Network.Reenters`): the caller of an invocation may call its rule again, and so come,
in the same context, to where the invocation stands itself. The predicates there do not
count in the new invocation, but a closure that has been there already does not notice
(`Grammar.revisited_drops`).
-/

namespace AdaptiveLL

open Relation

namespace Network

/-- A step that consumes nothing, and crosses only predicates that are open where they
    are crossed. -/
inductive GatedStep (net : Network) (gate : Point → Int → Prop) : Point → Point → Prop
  | epsilon {id target : StateId} {context : List StateId} :
    net.HasTransition id ⟨target, .epsilon⟩ → GatedStep net gate ⟨id, context⟩ ⟨target, context⟩
  | predicate {id target : StateId} {index : Int} {context : List StateId} :
    net.HasTransition id ⟨target, .predicate index⟩ → gate ⟨id, context⟩ index →
      GatedStep net gate ⟨id, context⟩ ⟨target, context⟩
  | action {id target : StateId} {index : Int} {context : List StateId} :
    net.HasTransition id ⟨target, .action index⟩ →
      GatedStep net gate ⟨id, context⟩ ⟨target, context⟩
  | call {id target follow : StateId} {rule : RuleId} {context : List StateId} :
    net.HasTransition id ⟨target, .call rule follow⟩ →
      GatedStep net gate ⟨id, context⟩ ⟨target, follow :: context⟩
  | exit {id follow : StateId} {s : State} {context : List StateId} :
    net.state id = .ok s → s.kind = .ruleStop →
      GatedStep net gate ⟨id, follow :: context⟩ ⟨follow, context⟩

variable {net : Network} {gate gate' : Point → Int → Prop} {p q : Point}

theorem GatedStep.freeStep (h : net.GatedStep gate p q) : net.FreeStep p q := by
  cases h with
  | epsilon ht => exact .epsilon ht
  | predicate ht _ => exact .predicate ht
  | action ht => exact .action ht
  | call ht => exact .call ht
  | exit hs hk => exact .exit hs hk

/-- A step is gated if the predicates where it begins are open. -/
theorem FreeStep.gated (h : net.FreeStep p q)
    (hg : ∀ index target, net.HasTransition p.state ⟨target, .predicate index⟩ → gate p index) :
    net.GatedStep gate p q := by
  cases h with
  | epsilon ht => exact .epsilon ht
  | predicate ht => exact .predicate ht (hg _ _ ht)
  | action ht => exact .action ht
  | call ht => exact .call ht
  | exit hs hk => exact .exit hs hk

/-- With more calls open around it, a step is gated by what is open there. -/
theorem GatedStep.extend (h : net.GatedStep gate p q) {outer : List StateId}
    (hg : ∀ index, gate p index → gate' (p.extend outer) index) :
    net.GatedStep gate' (p.extend outer) (q.extend outer) := by
  cases h with
  | epsilon ht => exact .epsilon ht
  | predicate ht hp => exact .predicate ht (hg _ hp)
  | action ht => exact .action ht
  | call ht => exact .call ht
  | exit hs hk => exact .exit hs hk

variable (net) (may : Int → Bool)

/-- An invocation goes on to a point without a token: of the predicates that it crosses
    itself, and not in its calls, all may hold. -/
abbrev Proceeds : Point → Point → Prop :=
  ReflTransGen (net.GatedStep fun p index => p.context = [] → may index = true)

/-- From a state of an invocation on, it is left and its callers come to a point without
    a token. -/
def LeavesTo (start : StateId) (outer : List StateId) (q : Point) : Prop :=
  ∃ stop follow rest, net.Proceeds may ⟨start, []⟩ ⟨stop, []⟩ ∧ net.IsStop stop ∧
    outer = follow :: rest ∧ net.Reaches ⟨follow, rest⟩ q

/-- From a state of an invocation on, a point is come to without a token: of the
    predicates that the invocation crosses itself before it is left, all may hold. -/
def ReachesUnder (start : StateId) (outer : List StateId) (q : Point) : Prop :=
  (∃ q₀, net.Proceeds may ⟨start, []⟩ q₀ ∧ q = q₀.extend outer) ∨ net.LeavesTo may start outer q

/-- A predicate of an invocation is come to both by the invocation itself and, in the same
    context, after it has been left. -/
def Reenters (start : StateId) (outer : List StateId) : Prop :=
  ∃ id target index, net.HasTransition id ⟨target, .predicate index⟩ ∧
    net.Reaches ⟨start, []⟩ ⟨id, []⟩ ∧ net.LeavesTo (fun _ => true) start outer ⟨id, outer⟩

variable {net may} {start : StateId} {outer : List StateId}

theorem LeavesTo.ungated (h : net.LeavesTo may start outer q) :
    net.LeavesTo (fun _ => true) start outer q := by
  obtain ⟨stop, follow, rest, hrun, hstop, ho, hreach⟩ := h
  have hungated : net.Proceeds (fun _ => true) ⟨start, []⟩ ⟨stop, []⟩ :=
    ReflTransGen.mono (fun _ _ hs => hs.freeStep.gated fun _ _ _ _ => rfl) _ _ hrun
  exact ⟨stop, follow, rest, hungated, hstop, ho, hreach⟩

theorem LeavesTo.tail {r : Point} (h : net.LeavesTo may start outer q) (hs : net.FreeStep q r) :
    net.LeavesTo may start outer r := by
  obtain ⟨stop, follow, rest, hrun, hstop, ho, hreach⟩ := h
  exact ⟨stop, follow, rest, hrun, hstop, ho, hreach.tail hs⟩

/-- Nothing is reentered behind the outermost invocation. -/
theorem not_reenters_nil : ¬net.Reenters start [] := by
  rintro ⟨_, _, _, _, _, _, _, _, _, _, ⟨⟩, _⟩

end Network

variable {net : Network} {exit : LoopExit} {collect : Bool} {may : Int → Bool}

/-! ## One step of a closure -/

/-- A predicate is collected by a closure where a configuration stands. -/
def Config.Collects (collect : Bool) (c : Config) : Prop :=
  collect = true ∧ c.depth = 0 ∧ c.left = false

/-- A step is followed under a guard that still holds, if the predicate that is collected
    on it does. -/
theorem exists_follows_holds (hx : exit.active = false) {c : Config} {q : Point}
    (hc : c.guard.holds may = true)
    (h : net.GatedStep (fun _ index => c.Collects collect → may index = true) c.point q) :
    ∃ d, Follows net exit collect c d ∧ d.point = q ∧ d.guard.holds may = true := by
  obtain ⟨⟨state, alt, context⟩, guard, depth, left⟩ := c
  cases h with
  | epsilon ht => exact ⟨_, follows_of_freeStep ht rfl, rfl, hc⟩
  | action ht => exact ⟨_, follows_of_freeStep ht rfl, rfl, hc⟩
  | call ht => exact ⟨_, follows_of_freeStep ht rfl, rfl, hc⟩
  | exit hs hk =>
    exact ⟨_, follows_returned (c := ⟨⟨state, alt, _ :: _⟩, guard, depth, left⟩) hs hk rfl
      (isAtEnd_of_inactive hx _), rfl, hc⟩
  | predicate ht hp =>
    refine ⟨_, follows_of_freeStep ht rfl, rfl, ?_⟩
    dsimp only
    split
    · next hcollects =>
      simp only [Bool.and_eq_true, beq_iff_eq, Bool.not_eq_true'] at hcollects
      exact Guard.holds_require.2 ⟨hc, hp ⟨hcollects.1.1, hcollects.1.2, hcollects.2⟩⟩
    · exact hc

/-- A step of a search is followed to a configuration that is looked at, under a guard that
    still holds. -/
theorem Search.Extends.exists_next (hx : exit.active = false) {roots ends new : List Config}
    {search : Search} (h : Search.Extends net exit collect roots ends new {} search) {c : Config}
    (hc : c ∈ new) (hholds : c.guard.holds may = true) {q : Point}
    (hq : net.GatedStep (fun _ index => c.Collects collect → may index = true) c.point q) :
    ∃ d ∈ new, d.alt = c.alt ∧ d.point = q ∧ d.guard.holds may = true := by
  obtain ⟨d, hd, rfl, hd'⟩ := exists_follows_holds hx hholds hq
  obtain ⟨d', hnew, hsame⟩ := h.exists_same (h.closed c hc d hd)
  obtain ⟨hkey, hguard⟩ := Bool.and_eq_true_iff.1 hsame
  rw [beq_iff_eq] at hkey hguard
  exact ⟨d', hnew, (congrArg Config.Key.alt hkey).trans hd.alt,
    congrArg Config.Key.point hkey, hguard ▸ hd'⟩

/-! ## The start -/

/-- Where a configuration stands that an alternative of a decision comes to, and under
    which predicates it has done so: within the invocation that predicts, or behind it. -/
inductive Config.ArisesUnder (net : Network) (may : Int → Bool) (start : StateId)
    (outer : List StateId) (c : Config) : Prop
  | within (calls : List StateId) : c.left = false → c.depth = calls.length →
    c.context = calls ++ outer → net.Reaches ⟨start, []⟩ ⟨c.state, calls⟩ →
    (c.guard.holds may = true → net.Proceeds may ⟨start, []⟩ ⟨c.state, calls⟩) →
      ArisesUnder net may start outer c
  | behind : c.left = true → (c.guard.holds may = true → net.LeavesTo may start outer c.point) →
      ArisesUnder net may start outer c

variable {start : StateId} {outer : List StateId} {alt : Int}

theorem Config.ArisesUnder.root :
    Config.ArisesUnder net may start outer { state := start, alt, context := outer } :=
  .within [] rfl rfl rfl .refl fun _ => .refl

/-- A guard that holds behind a free transition has held before it, and holds of a predicate
    that is collected on it. -/
theorem holds_of_freeStep {c d : Config} {t : Transition} (hd : freeStep collect c t = some d)
    (h : d.guard.holds may = true) : c.guard.holds may = true ∧
      ∀ index, t.label = .predicate index → c.Collects collect → may index = true := by
  obtain ⟨target, label⟩ := t
  cases label with
  | predicate index =>
    cases hd
    dsimp only at h
    split at h
    · refine ⟨(Guard.holds_require.1 h).1, ?_⟩
      rintro _ ⟨⟩ _
      exact (Guard.holds_require.1 h).2
    · next hnot =>
      refine ⟨h, ?_⟩
      rintro _ ⟨⟩ ⟨rfl, hdepth, hleft⟩
      simp [hdepth, hleft] at hnot
  | epsilon | action | call =>
    cases hd
    refine ⟨h, ?_⟩
    rintro _ ⟨⟩
  | _ => cases hd

/-- What a free transition does to the calls that are open, whatever is below them. -/
theorem exists_pushed_of_freeStep {c d : Config} {t : Transition}
    (hd : freeStep collect c t = some d) (ht : net.HasTransition c.state t) :
    ∃ pushed : List StateId, d.context = pushed ++ c.context ∧
      d.depth = c.depth + pushed.length ∧ d.left = c.left ∧
      ∀ (calls : List StateId) (gate : Point → Int → Prop),
        (∀ index, t.label = .predicate index → gate ⟨c.state, calls⟩ index) →
          net.GatedStep gate ⟨c.state, calls⟩ ⟨d.state, pushed ++ calls⟩ := by
  obtain ⟨target, label⟩ := t
  cases label with
  | epsilon =>
    cases hd
    exact ⟨[], rfl, by simp, rfl, fun _ _ _ => .epsilon ht⟩
  | action index =>
    cases hd
    exact ⟨[], rfl, by simp, rfl, fun _ _ _ => .action ht⟩
  | predicate index =>
    cases hd
    exact ⟨[], rfl, by simp, rfl, fun _ _ hg => .predicate ht (hg index rfl)⟩
  | call rule follow =>
    cases hd
    exact ⟨[follow], rfl, rfl, rfl, fun _ _ _ => .call ht⟩
  | _ => cases hd

theorem Config.ArisesUnder.follows {c d : Config} (h : c.ArisesUnder net may start outer)
    (hd : Follows net exit true c d) : d.ArisesUnder net may start outer := by
  obtain ⟨t, ht, hstep⟩ | ⟨follow, context, ⟨s, hs, hk⟩, hc, _, rfl⟩ := hd.cases
  · -- Within the invocation, exactly its own predicates are collected.
    obtain ⟨pushed, hcontext, hdepth, hleft, hgated⟩ := exists_pushed_of_freeStep hstep ht
    cases h with
    | within calls hl hlen hcalls hreach hproceeds =>
      refine .within (pushed ++ calls) (hleft.trans hl) ?_ ?_ ?_ fun hg => ?_
      · rw [hdepth, hlen, List.length_append, Nat.cast_add, add_comm]
      · rw [hcontext, hcalls, List.append_assoc]
      · exact hreach.tail (hgated calls (fun _ _ => True) fun _ _ => trivial).freeStep
      · obtain ⟨hholds, hcollects⟩ := holds_of_freeStep hstep hg
        refine (hproceeds hholds).tail (hgated calls _ fun index hl' hnil => ?_)
        have hnil : calls = [] := hnil
        exact hcollects index hl' ⟨rfl, by rw [hlen, hnil]; rfl, hl⟩
    | behind hl hleaves =>
      exact .behind (hleft.trans hl) fun hg =>
        (hleaves (holds_of_freeStep hstep hg).1).tail hd.freeStep
  · cases h with
    | behind hl hleaves =>
      refine .behind ?_ fun hg => (hleaves hg).tail hd.freeStep
      rw [Config.returned, hl, Bool.true_or]
    | within calls hl hlen hcalls hreach hproceeds =>
      rw [hcalls] at hc
      cases calls with
      | nil =>
        -- The invocation returns to its caller.
        refine .behind ?_ fun hg =>
          ⟨c.state, follow, context, hproceeds hg, ⟨s, hs, hk⟩, hc, .refl⟩
        simp [Config.returned, hlen]
      | cons call calls =>
        obtain ⟨rfl, rfl⟩ := List.cons.inj hc
        refine .within calls ?_ ?_ rfl (hreach.tail (.exit hs hk)) fun hg =>
          (hproceeds hg).tail (.exit hs hk)
        · simp [Config.returned, hl, hlen]
        · simp [Config.returned, hlen]

theorem arisesUnder_of_follows {c d : Config} (hc : c.ArisesUnder net may start outer)
    (h : ReflTransGen (Follows net exit true) c d) : d.ArisesUnder net may start outer := by
  induction h with
  | refl => exact hc
  | tail _ hf ih => exact ih.follows hf

theorem alt_eq_of_follows {c d : Config} (h : ReflTransGen (Follows net exit collect) c d) :
    d.alt = c.alt := by
  induction h with
  | refl => rfl
  | tail _ hf ih => exact hf.alt.trans ih

theorem Config.ArisesUnder.reachesUnder {c : Config} (h : c.ArisesUnder net may start outer)
    (hg : c.guard.holds may = true) : net.ReachesUnder may start outer c.point := by
  cases h with
  | within calls _ _ hcalls _ hproceeds =>
    refine .inl ⟨_, hproceeds hg, ?_⟩
    rw [Config.point, Config.Key.point, hcalls]
    rfl
  | behind _ hleaves => exact .inr (hleaves hg)

/-- Predicates are collected only where the invocation itself stands. -/
theorem Config.ArisesUnder.of_collects {c : Config} (h : c.ArisesUnder net may start outer)
    (hc : c.Collects collect) :
    c.context = outer ∧ net.Reaches ⟨start, []⟩ ⟨c.state, []⟩ := by
  obtain ⟨_, hdepth, hleft⟩ := hc
  cases h with
  | behind hl =>
    rw [hleft] at hl
    cases hl
  | within calls _ hlen hcalls hreach =>
    obtain rfl : calls = [] := List.length_eq_zero_iff.1 (by omega)
    exact ⟨hcalls, hreach⟩

section

variable {roots new : List Config} {search : Search} {q : Point} (hx : exit.active = false)
  (h : Search.Extends net exit true roots [] new {} search)
  (hnew : ∀ c ∈ new, c.alt = alt → c.ArisesUnder net may start outer)
  (hroot : { state := start, alt, context := outer } ∈ roots)
include hx h hnew hroot

/-- What the invocation proceeds to is come to under a guard that holds: no predicate is
    collected that it does not cross. -/
theorem exists_new_of_proceeds (hq : net.Proceeds may ⟨start, []⟩ q) :
    ∃ c ∈ new, c.alt = alt ∧ c.point = q.extend outer ∧ c.guard.holds may = true := by
  induction hq with
  | refl =>
    obtain ⟨c, hc, hsame⟩ := h.exists_same (h.roots _ hroot)
    obtain ⟨hkey, hguard⟩ := Bool.and_eq_true_iff.1 hsame
    rw [beq_iff_eq] at hkey hguard
    refine ⟨c, hc, congrArg Config.Key.alt hkey, congrArg Config.Key.point hkey, ?_⟩
    rw [hguard]
    rfl
  | @tail p q _ hs ih =>
    obtain ⟨c, hc, halt, hpoint, hg⟩ := ih
    have hgated : net.GatedStep (fun _ index => c.Collects true → may index = true) c.point
        (q.extend outer) := by
      rw [hpoint]
      refine hs.extend fun index hopen hcollects => hopen ?_
      have hcontext : c.context = p.context ++ outer := congrArg Point.context hpoint
      rw [((hnew c hc halt).of_collects hcollects).1] at hcontext
      exact List.append_left_eq_self.1 hcontext.symm
    obtain ⟨d, hd, hdalt, hdpoint, hdg⟩ := h.exists_next hx hc hg hgated
    exact ⟨d, hd, hdalt.trans halt, hdpoint, hdg⟩

/-- What is come to behind the invocation is come to under a guard that holds: if a
    predicate is collected there, the invocation is reentered. -/
theorem exists_new_of_leavesTo (hre : ¬net.Reenters start outer)
    (hq : net.LeavesTo may start outer q) :
    ∃ c ∈ new, c.alt = alt ∧ c.point = q ∧ c.guard.holds may = true := by
  obtain ⟨stop, follow, rest, hrun, ⟨s, hs, hk⟩, ho, hreach⟩ := hq
  induction hreach with
  | refl =>
    obtain ⟨c, hc, halt, hpoint, hg⟩ := exists_new_of_proceeds hx h hnew hroot hrun
    have hexit : net.GatedStep (fun _ index => c.Collects true → may index = true) c.point
        ⟨follow, rest⟩ := by
      rw [hpoint, ho]
      exact .exit hs hk
    obtain ⟨d, hd, hdalt, hdpoint, hdg⟩ := h.exists_next hx hc hg hexit
    exact ⟨d, hd, hdalt.trans halt, hdpoint, hdg⟩
  | @tail p q hp hstep ih =>
    obtain ⟨c, hc, halt, rfl, hg⟩ := ih
    have hgated : net.GatedStep (fun _ index => c.Collects true → may index = true) c.point q := by
      refine hstep.gated fun index target ht hcollects => (hre ?_).elim
      obtain ⟨hcontext, hinside⟩ := (hnew c hc halt).of_collects hcollects
      have hleave : net.LeavesTo may start outer c.point :=
        ⟨stop, follow, rest, hrun, ⟨s, hs, hk⟩, ho, hp⟩
      refine ⟨c.state, target, index, ht, hinside, ?_⟩
      rw [Config.point, Config.Key.point, hcontext] at hleave
      exact hleave.ungated
    obtain ⟨d, hd, hdalt, hdpoint, hdg⟩ := h.exists_next hx hc hg hgated
    exact ⟨d, hd, hdalt.trans halt, hdpoint, hdg⟩

end

variable {decision : State}

/-- Some alternative of a decision comes to a point of rest without a token, where all
    predicates may hold that its invocation crosses itself on the way. -/
def ArrivesUnder (net : Network) (may : Int → Bool) (decision : State) (outer : List StateId)
    (k : Config.Key) : Prop :=
  net.Rests k.point ∧ ∃ (i : Nat) (t : Transition), decision.transitions[i]? = some t ∧
    k.alt = 1 + i ∧ net.ReachesUnder may t.target outer k.point

/-- A decision starts with guards that hold where an alternative comes under its predicates. -/
theorem permits_startFrontier_iff (hx : exit.active = false)
    (hre : ∀ t ∈ decision.transitions, ¬net.Reenters t.target outer) {fuel : Nat} {f : Frontier}
    (h : startFrontier net exit fuel decision outer = .ok f) {k : Config.Key} :
    f.Permits may k ↔ ArrivesUnder net may decision outer k := by
  obtain ⟨search, hs, h⟩ := Except.exists_of_bind h
  cases h
  obtain ⟨roots, new, hext, hroots⟩ := startFrom_extends hs
  have hover : ∀ c ∈ search.kept, c.guard.IsOver net := by
    refine hext.isOver (fun r hr => ?_) nofun
    obtain ⟨i, t, _, rfl⟩ := (hroots r).1 hr
    exact Guard.isOver_trivial net
  have harises {i : Nat} {t : Transition} (ht : decision.transitions[i]? = some t) :
      ∀ c ∈ new, c.alt = 1 + i → c.ArisesUnder net may t.target outer := by
    intro c hc halt
    obtain ⟨r, hr, hrun⟩ := hext.origin c hc
    obtain ⟨j, t', ht', rfl⟩ := (hroots r).1 hr
    -- The alternative tells the root.
    have hji : (1 : Int) + j = 1 + i := (alt_eq_of_follows hrun).symm.trans halt
    obtain rfl : j = i := by omega
    cases ht.symm.trans ht'
    exact arisesUnder_of_follows .root hrun
  rw [Search.permits_frontier_iff fun c hc => (hover c hc).isAscending]
  constructor
  · rintro ⟨c, hc, rfl, hg⟩
    obtain hnil | ⟨hmem, hkept⟩ | hnil := (hext.kept c).1 hc
    · cases hnil
    · obtain ⟨r, hr, hrun⟩ := hext.origin c hmem
      obtain ⟨i, t, ht, rfl⟩ := (hroots r).1 hr
      have halt : c.alt = 1 + i := alt_eq_of_follows hrun
      have hreach := (harises ht c hmem halt).reachesUnder hg
      exact ⟨(isKept_iff_rests hx).1 hkept, i, t, ht, halt, hreach⟩
    · cases hnil
  · rintro ⟨hrests, i, t, ht, halt, hq⟩
    have hroot := (hroots _).2 ⟨i, t, ht, rfl⟩
    have hno := hre t (List.mem_of_getElem? ht)
    obtain ⟨c, hc, hcalt, hpoint, hg⟩ : ∃ c ∈ new, c.alt = 1 + i ∧ c.point = k.point ∧
        c.guard.holds may = true := by
      obtain ⟨q₀, hq₀, he⟩ | hq := hq
      · rw [he]
        exact exists_new_of_proceeds hx hext (harises ht) hroot hq₀
      · exact exists_new_of_leavesTo hx hext (harises ht) hroot hno hq
    exact ⟨c, (hext.kept c).2 (.inr (.inl ⟨hc, (isKept_iff_rests hx).2 (hpoint ▸ hrests)⟩)),
      Config.Key.eq_of_point (hcalt.trans halt.symm) hpoint, hg⟩

/-! ## Along a word -/

/-- Where a simulation comes to by a token. By the end of the input, the ends of rules that
    have no caller stay. -/
def siftedNext (net : Network) (type : Int) (S : Set Config.Key) : Set Config.Key :=
  {k | (net.Rests k.point ∧ ∃ k₀ ∈ S, k₀.alt = k.alt ∧ ∃ t, net.HasTransition k₀.state t ∧
      t.label.accepts type = true ∧ net.Reaches ⟨t.target, k₀.context⟩ k.point) ∨
    (type = Token.endOfInput ∧ k ∈ S ∧ net.IsStop k.state ∧ k.context = [])}

/-- Where a simulation stands after a word that drops what fails at the start. -/
def siftedAfter (net : Network) (may : Int → Bool) (decision : State) (outer : List StateId)
    (w : List Int) : Set Config.Key :=
  w.foldl (fun S type => siftedNext net type S) {k | ArrivesUnder net may decision outer k}

/-- The frontier that a word leads to. -/
def frontierAfter (net : Network) (exit : LoopExit) (fuel : Nat) (decision : State)
    (outer : List StateId) (w : List Int) : Except Fault Frontier := do
  let f ← startFrontier net exit fuel decision outer
  w.foldlM (nextFrontier net exit fuel) f

/-- Behind a token, where no predicates are collected, guards stay as they are. -/
theorem exists_new_of_reaches (hx : exit.active = false) {roots ends new : List Config}
    {search : Search} (h : Search.Extends net exit false roots ends new {} search) {r : Config}
    (hr : r ∈ roots) (hg : r.guard.holds may = true) {q : Point} (hq : net.Reaches r.point q) :
    ∃ c ∈ new, c.alt = r.alt ∧ c.point = q ∧ c.guard.holds may = true := by
  induction hq with
  | refl =>
    obtain ⟨c, hc, hsame⟩ := h.exists_same (h.roots r hr)
    obtain ⟨hkey, hguard⟩ := Bool.and_eq_true_iff.1 hsame
    rw [beq_iff_eq] at hkey hguard
    exact ⟨c, hc, congrArg Config.Key.alt hkey, congrArg Config.Key.point hkey, hguard ▸ hg⟩
  | tail _ hs ih =>
    obtain ⟨c, hc, halt, rfl, hcg⟩ := ih
    have hcollects : ¬c.Collects false := fun hcollects => Bool.false_ne_true hcollects.1
    obtain ⟨d, hd, hdalt, hdpoint, hdg⟩ := h.exists_next hx hc hcg
      (hs.gated fun _ _ _ hc => absurd hc hcollects)
    exact ⟨d, hd, hdalt.trans halt, hdpoint, hdg⟩

/-- A frontier that stands for a simulation: it has the keys there under guards that hold, and
    what it holds makes sense in the network. -/
structure Frontier.Sifts (f : Frontier) (net : Network) (may : Int → Bool)
    (S : Set Config.Key) : Prop where
  permits : ∀ k, f.Permits may k ↔ k ∈ S
  isOver : ∀ c ∈ f.items, c.guard.IsOver net
  isIn : ∀ c ∈ f.items, net.IsIn c.point

/-- A decision starts with a frontier that stands for what its alternatives come to under their
    predicates. -/
theorem sifts_startFrontier (hnet : net.IsClosed) (hx : exit.active = false)
    (hdecision : ∀ t ∈ decision.transitions, net.IsIn ⟨t.target, outer⟩)
    (hre : ∀ t ∈ decision.transitions, ¬net.Reenters t.target outer) {fuel : Nat} {f : Frontier}
    (h : startFrontier net exit fuel decision outer = .ok f) :
    f.Sifts net may {k | ArrivesUnder net may decision outer k} :=
  ⟨fun _ => permits_startFrontier_iff hx hre h, isOver_startFrontier h,
    isIn_startFrontier hnet hdecision h⟩

/-- A token leads a frontier to what the simulation comes to by it. -/
theorem Frontier.Sifts.next (hnet : net.IsClosed) (hx : exit.active = false) {f g : Frontier}
    {S : Set Config.Key} (hf : f.Sifts net may S) {fuel : Nat} {type : Int}
    (h : nextFrontier net exit fuel f type = .ok g) : g.Sifts net may (siftedNext net type S) := by
  refine ⟨fun k => ?_, isOver_nextFrontier hf.isOver h, isIn_nextFrontier hnet hf.isIn h⟩
  obtain ⟨search, hs, h⟩ := Except.exists_of_bind h
  cases h
  obtain ⟨roots, ends, new, hext, hroots, hends⟩ := advanceAll_extends hs
  have hover : ∀ c ∈ search.kept, c.guard.IsOver net := by
    refine hext.isOver (fun r hr => ?_) fun d hd => hf.isOver d ((hends d).1 hd).1
    obtain ⟨c, hc, t, _, _, rfl⟩ := (hroots r).1 hr
    exact hf.isOver c hc
  rw [Search.permits_frontier_iff fun c hc => (hover c hc).isAscending]
  constructor
  · rintro ⟨c, hc, rfl, hg⟩
    rcases (hext.kept c).1 hc with hnil | ⟨hnew, hkept⟩ | hend
    · cases hnil
    · obtain ⟨r, hr, hrun⟩ := hext.origin c hnew
      obtain ⟨c₀, hc₀, t, ht, ha, rfl⟩ := (hroots r).1 hr
      rw [guard_eq_of_follows (.inl rfl) hrun] at hg
      have hreach : net.Reaches ⟨t.target, c₀.context⟩ c.point :=
        hrun.lift Config.point fun _ _ hs => hs.freeStep
      exact .inl ⟨(isKept_iff_rests hx).1 hkept, c₀.toKey, (hf.permits _).1 ⟨c₀, hc₀, rfl, hg⟩,
        (alt_eq_of_follows hrun).symm, t, ht, ha, hreach⟩
    · obtain ⟨hd, hend, hstop, hcontext, _⟩ := (hends c).1 hend
      exact .inr ⟨hend, (hf.permits _).1 ⟨c, hd, rfl, hg⟩, hstop, hcontext⟩
  · rintro (⟨hrests, k₀, hk₀, halt, t, ht, ha, hreach⟩ | ⟨hend, hk, hstop, hcontext⟩)
    · obtain ⟨c₀, hc₀, rfl, hg⟩ := (hf.permits _).2 hk₀
      obtain ⟨c, hc, hcalt, hpoint, hcg⟩ := exists_new_of_reaches hx hext
        ((hroots _).2 ⟨c₀, hc₀, t, ht, ha, rfl⟩) hg hreach
      exact ⟨c, (hext.kept c).2 (.inr (.inl ⟨hc, (isKept_iff_rests hx).2 (hpoint ▸ hrests)⟩)),
        Config.Key.eq_of_point (hcalt.trans halt) hpoint, hcg⟩
    · obtain ⟨c, hc, rfl, hg⟩ := (hf.permits _).2 hk
      exact ⟨c, (hext.kept c).2 (.inr (.inr ((hends c).2
        ⟨hc, hend, hstop, hcontext, isAtEnd_of_inactive hx c⟩))), rfl, hg⟩

/-- With enough fuel, a word leads a frontier to one other, of which holds what holds of the first one
    and is kept by every token. -/
theorem exists_foldlM_nextFrontier (hnet : net.IsClosed) (hleft : ¬net.IsLeftRecursive)
    {P : List Int → Frontier → Prop} (hnext : ∀ v type fuel f g, P v f →
      nextFrontier net exit fuel f type = .ok g → P (v ++ [type]) g) {f : Frontier} (hf : P [] f)
    (hin : ∀ c ∈ f.items, net.IsIn c.point) (w : List Int) :
    ∃ steps g, (∀ fuel ≥ steps, w.foldlM (nextFrontier net exit fuel) f = .ok g) ∧ P w g ∧
      ∀ c ∈ g.items, net.IsIn c.point := by
  induction w using List.reverseRecOn with
  | nil => exact ⟨0, f, fun _ _ => rfl, hf, hin⟩
  | append_singleton v type ih =>
    obtain ⟨n, g, hg, hv, hgin⟩ := ih
    obtain ⟨m, g', hg'⟩ := exists_nextFrontier hnet hleft type hgin
    refine ⟨max n m, g', fun fuel hfuel => ?_, hnext v type m g g' hv (hg' m le_rfl),
      isIn_nextFrontier hnet hgin (hg' m le_rfl)⟩
    rw [List.foldlM_append, hg fuel ((le_max_left n m).trans hfuel), Except.ok_bind_eq,
      List.foldlM_cons, hg' fuel ((le_max_right n m).trans hfuel)]
    rfl

/-- With enough fuel, a word leads a frontier to what the simulation comes to by it. -/
theorem Frontier.Sifts.exists_after (hnet : net.IsClosed) (hleft : ¬net.IsLeftRecursive)
    (hx : exit.active = false) {f : Frontier} {S : Set Config.Key} (hf : f.Sifts net may S)
    (w : List Int) : ∃ steps g, (∀ fuel ≥ steps, w.foldlM (nextFrontier net exit fuel) f = .ok g) ∧
      g.Sifts net may (w.foldl (fun S type => siftedNext net type S) S) := by
  let P (v : List Int) (g : Frontier) : Prop :=
    g.Sifts net may (v.foldl (fun S type => siftedNext net type S) S)
  have hnext (v : List Int) (type : Int) (fuel : Nat) (g g' : Frontier) (hg : P v g)
      (h : nextFrontier net exit fuel g type = .ok g') : P (v ++ [type]) g' := by
    dsimp only [P]
    rw [List.foldl_concat]
    exact hg.next hnet hx h
  obtain ⟨steps, g, hg, hsifts, _⟩ := exists_foldlM_nextFrontier hnet hleft hnext hf hf.isIn w
  exact ⟨steps, g, hg, hsifts⟩

end AdaptiveLL
