import AdaptiveLL.Network.Run
import Mathlib.Data.Set.Finite.Lattice
import Mathlib.Logic.Relation
import Mathlib.Order.Preorder.Finite
import Mathlib.Order.WellFounded

/-!
# Left recursion

What a network can do without consuming a token (`Network.Reaches`). A network is
*left recursive* if a state can be come back to in this way by calls that are
still open (`Network.IsLeftRecursive`); it has a *free cycle* if a state can be
come back to at all (`Network.HasFreeCycle`).

* `Reaches.cut`: what is at the bottom of the stack is either left alone or
  popped.
* `finite_reaches`: without left recursion, finitely many points are reached
  from a point. Along the open calls, no state occurs twice, so the stack cannot
  grow for ever.
* `acc_freeStep`: without left recursion, a run that consumes nothing ends if it
  does on each level, where calls are skipped from which it returns.
* `wellFounded_freeStep`: so without free cycles, there is no infinite run that
  consumes nothing.
-/

namespace AdaptiveLL.Network

open Relation

variable (net : Network)

/-- Some state is come back to without a token, by calls that are still open. -/
def IsLeftRecursive : Prop :=
  ∃ id calls, calls ≠ [] ∧ net.Run ⟨id, []⟩ [] ⟨id, calls⟩

/-- Some state is come back to without a token, by one step at least. -/
def HasFreeCycle : Prop :=
  ∃ id calls p, net.FreeStep ⟨id, []⟩ p ∧ net.Run p [] ⟨id, calls⟩

/-- A point is reached from another one without a token. -/
abbrev Reaches : Point → Point → Prop :=
  ReflTransGen net.FreeStep

variable {net}

/-- A run that consumes nothing is a sequence of free steps. -/
theorem run_nil_iff {p q : Point} : net.Run p [] q ↔ net.Reaches p q := by
  constructor
  · intro h
    generalize hw : ([] : List Int) = w at h
    induction h with
    | refl _ => exact .refl
    | free hs _ ih => exact .head hs (ih hw)
    | token => cases hw
  · intro h
    induction h using ReflTransGen.head_induction_on with
    | refl => exact .refl _
    | head hs _ ih => exact .free hs ih

/-- A network without free cycles is not left recursive. -/
theorem not_isLeftRecursive (h : ¬net.HasFreeCycle) : ¬net.IsLeftRecursive := by
  rintro ⟨id, calls, hne, hrun⟩
  cases hrun with
  | refl => exact hne rfl
  | free hs hrun => exact h ⟨_, _, _, hs, hrun⟩

/-! ## Finitely many states and transitions -/

/-- The states of a network are numbered from zero on. -/
theorem state_eq_ok_iff {id : StateId} {s : State} :
    net.state id = .ok s ↔ ∃ n : Nat, id = n ∧ net.states[n]? = some s := by
  rw [state, numbered?]
  by_cases h : id < 0
  · rw [if_pos h]
    exact ⟨nofun, fun ⟨n, hn, _⟩ => absurd (hn ▸ h) (Int.not_lt.2 (Int.natCast_nonneg n))⟩
  · obtain ⟨n, rfl⟩ := Int.eq_ofNat_of_zero_le (Int.not_lt.1 h)
    rw [if_neg h, Int.toNat_natCast]
    cases hs : net.states[n]? with
    | none => exact ⟨nofun, fun ⟨m, hm, hs'⟩ => by rw [← Int.ofNat.inj hm, hs] at hs'; cases hs'⟩
    | some s' =>
      constructor
      · rintro ⟨⟩
        exact ⟨n, rfl, hs⟩
      · rintro ⟨m, hm, hs'⟩
        rw [← Int.ofNat.inj hm, hs] at hs'
        rw [Option.some.inj hs']

theorem finite_states (net : Network) : {id | ∃ s, net.state id = .ok s}.Finite := by
  refine ((Set.finite_lt_nat net.states.size).image Int.ofNat).subset ?_
  rintro id ⟨s, hs⟩
  obtain ⟨n, rfl, hn⟩ := state_eq_ok_iff.1 hs
  exact ⟨n, (Array.getElem?_eq_some_iff.1 hn).1, rfl⟩

theorem finite_transitions (net : Network) (id : StateId) :
    {t | net.HasTransition id t}.Finite := by
  by_cases h : ∃ s, net.state id = .ok s
  · obtain ⟨s, hs⟩ := h
    refine s.transitions.finite_toSet.subset ?_
    rintro t ⟨s', hs', _, ht⟩
    rw [hs] at hs'
    cases hs'
    exact ht
  · refine Set.finite_empty.subset ?_
    rintro t ⟨s, hs, _⟩
    exact h ⟨s, hs⟩

/-- The point behind a transition, which returns to a state if it calls a rule. -/
def behind (t : Transition) (context : List StateId) : Point :=
  match t.label with
  | .call _ follow => ⟨t.target, follow :: context⟩
  | _ => ⟨t.target, context⟩

/-- Finitely many points are one free step away. -/
theorem finite_freeStep (p : Point) : {q | net.FreeStep p q}.Finite := by
  have hbehind := (finite_transitions net p.state).image (behind · p.context)
  have hreturn := Set.finite_singleton (Point.mk (p.context.headD 0) p.context.tail)
  refine (hbehind.union hreturn).subset ?_
  rintro q (ht | ht | ht | ht | ⟨_, _⟩)
  · exact .inl ⟨_, ht, rfl⟩
  · exact .inl ⟨_, ht, rfl⟩
  · exact .inl ⟨_, ht, rfl⟩
  · exact .inl ⟨_, ht, rfl⟩
  · exact .inr rfl

/-- A point from which a free step is made is at a state of the network. -/
theorem FreeStep.exists_state {p q : Point} (h : net.FreeStep p q) :
    ∃ s, net.state p.state = .ok s := by
  rcases h with ⟨s, hs, _⟩ | ⟨s, hs, _⟩ | ⟨s, hs, _⟩ | ⟨s, hs, _⟩ | ⟨hs, _⟩ <;> exact ⟨_, hs⟩

/-- A transitive relation on states is well founded downwards if it leads from
    states of the network only and back to none of them. -/
theorem wellFounded_of_irrefl (net : Network) {r : StateId → StateId → Prop}
    (htrans : ∀ a b c, r a b → r b c → r a c) (hirrefl : ∀ a, ¬r a a)
    (hstate : ∀ a b, r a b → ∃ s, net.state a = .ok s) :
    WellFounded fun b a => r a b := by
  rw [wellFounded_iff_isEmpty_descending_chain]
  refine ⟨fun ⟨f, hf⟩ => ?_⟩
  -- There are finitely many states, so an infinite chain comes back to one of them.
  have hmem (n : ℕ) : f n ∈ {id | ∃ s, net.state id = .ok s} := hstate _ _ (hf n)
  obtain ⟨m, n, hmn, heq⟩ := Set.Finite.exists_lt_map_eq_of_forall_mem hmem (finite_states net)
  have hchain (k : ℕ) : r (f m) (f (m + k + 1)) := by
    induction k with
    | zero => exact hf m
    | succ k ih => exact htrans _ _ _ ih (hf _)
  obtain ⟨k, rfl⟩ := Nat.exists_eq_add_of_lt hmn
  exact hirrefl _ (heq ▸ hchain k)

/-! ## The bottom of the stack -/

theorem Reaches.extend {p q : Point} (h : net.Reaches p q) (outer : List StateId) :
    net.Reaches (p.extend outer) (q.extend outer) := by
  induction h with
  | refl => exact .refl
  | tail _ hs ih => exact ih.tail (hs.extend outer)

/-- A free step leaves the bottom of the stack alone, unless it pops it. -/
theorem FreeStep.cut {id : StateId} {calls outer : List StateId} {q : Point}
    (h : net.FreeStep ⟨id, calls ++ outer⟩ q) :
    (∃ calls', q.context = calls' ++ outer ∧ net.FreeStep ⟨id, calls⟩ ⟨q.state, calls'⟩) ∨
      (∃ follow rest s, calls = [] ∧ outer = follow :: rest ∧ net.state id = .ok s ∧
        s.kind = .ruleStop ∧ q = ⟨follow, rest⟩) := by
  generalize hc : calls ++ outer = context at h
  cases h with
  | epsilon h => exact .inl ⟨calls, hc.symm, .epsilon h⟩
  | predicate h => exact .inl ⟨calls, hc.symm, .predicate h⟩
  | action h => exact .inl ⟨calls, hc.symm, .action h⟩
  | call h => exact .inl ⟨_ :: calls, by rw [← hc]; rfl, .call h⟩
  | exit hs hk =>
    cases calls with
    | nil => exact .inr ⟨_, _, _, rfl, hc, hs, hk, rfl⟩
    | cons follow calls =>
      obtain ⟨rfl, rfl⟩ := List.cons.inj hc
      exact .inl ⟨calls, rfl, .exit hs hk⟩

/-- A run that consumes nothing leaves the bottom of the stack alone, unless it
    comes to the stop of the rule it began in and pops it. -/
theorem Reaches.cut {id : StateId} {calls outer : List StateId} {q : Point}
    (h : net.Reaches ⟨id, calls ++ outer⟩ q) :
    (∃ calls', q.context = calls' ++ outer ∧ net.Reaches ⟨id, calls⟩ ⟨q.state, calls'⟩) ∨
      (∃ follow rest stop s, outer = follow :: rest ∧ net.state stop = .ok s ∧
        s.kind = .ruleStop ∧ net.Reaches ⟨id, calls⟩ ⟨stop, []⟩ ∧
        net.Reaches ⟨follow, rest⟩ q) := by
  induction h with
  | refl => exact .inl ⟨calls, rfl, .refl⟩
  | @tail q r _ hs ih =>
    obtain ⟨calls', hq, hrun⟩ | ⟨follow, rest, stop, s, ho, hst, hk, hrun, hrest⟩ := ih
    · obtain ⟨state, context⟩ := q
      obtain rfl : context = calls' ++ outer := hq
      obtain ⟨calls'', hr, hs'⟩ | ⟨follow, rest, s, rfl, ho, hst, hk, rfl⟩ := hs.cut
      · exact .inl ⟨calls'', hr, hrun.tail hs'⟩
      · exact .inr ⟨follow, rest, state, s, ho, hst, hk, hrun, .refl⟩
    · exact .inr ⟨follow, rest, stop, s, ho, hst, hk, hrun, hrest.tail hs⟩

/-! ## Without left recursion -/

/-- A run that consumes nothing and ends in open calls has made the first of them
    at some point, and has gone on above it. -/
theorem Reaches.lastCall {id : StateId} {q : Point} (h : net.Reaches ⟨id, []⟩ q) :
    q.context = [] ∨ ∃ caller target follow rule calls, q.context = calls ++ [follow] ∧
      net.Reaches ⟨id, []⟩ ⟨caller, []⟩ ∧ net.HasTransition caller ⟨target, .call rule follow⟩ ∧
      net.Reaches ⟨target, []⟩ ⟨q.state, calls⟩ := by
  induction h with
  | refl => exact .inl rfl
  | @tail q r hq hs ih =>
    obtain ⟨state, context⟩ := q
    obtain hnil | ⟨caller, target, follow, rule, calls, hc, hcaller, ht, hcallee⟩ := ih
    · obtain rfl : context = [] := hnil
      cases hs with
      | epsilon => exact .inl rfl
      | predicate => exact .inl rfl
      | action => exact .inl rfl
      | call ht => exact .inr ⟨state, _, _, _, [], rfl, hq, ht, .refl⟩
    · obtain rfl : context = calls ++ [follow] := hc
      obtain ⟨calls', hr, hs'⟩ | ⟨follow', rest, s, rfl, ho, _, _, rfl⟩ := hs.cut
      · exact .inr ⟨caller, target, follow, rule, calls', hr, hcaller, ht, hcallee.tail hs'⟩
      · exact .inl (List.cons.inj ho).2.symm

/-- A state is reached by calls that are still open. -/
def CallsInto (net : Network) (id target : StateId) : Prop :=
  ∃ calls, calls ≠ [] ∧ net.Reaches ⟨id, []⟩ ⟨target, calls⟩

theorem wellFounded_callsInto (h : ¬net.IsLeftRecursive) :
    WellFounded fun target id => net.CallsInto id target := by
  refine wellFounded_of_irrefl net ?_ ?_ ?_
  · -- What is reached above some calls is reached above more of them.
    rintro a b c ⟨calls, hne, hab⟩ ⟨calls', _, hbc⟩
    exact ⟨calls' ++ calls, by simp [hne], hab.trans (hbc.extend calls)⟩
  · rintro a ⟨calls, hne, ha⟩
    exact h ⟨a, calls, hne, run_nil_iff.2 ha⟩
  · rintro a b ⟨calls, hne, hab⟩
    obtain heq | ⟨q, hs, _⟩ := hab.cases_head
    · exact absurd (congrArg Point.context heq).symm hne
    · exact hs.exists_state

/-- The states that the transitions of a network lead to, at once or after a call. -/
def successors (net : Network) : Set StateId :=
  {b | ∃ a t, net.HasTransition a t ∧ (t.target = b ∨ ∃ r, t.label = .call r b)}

theorem finite_successors : net.successors.Finite := by
  have hlabel (l : Label) : {b | ∃ r, l = .call r b}.Finite := by
    refine Set.Subsingleton.finite ?_
    rintro b ⟨_, hb⟩ c ⟨_, hc⟩
    rw [hb] at hc
    cases hc
    rfl
  have hstates := finite_states net
  refine (hstates.biUnion fun a _ => (finite_transitions net a).biUnion fun t _ =>
    (Set.finite_singleton t.target).union (hlabel t.label)).subset ?_
  rintro b ⟨a, t, ⟨s, hs, ht⟩, hb⟩
  exact Set.mem_biUnion (⟨s, hs⟩ : ∃ s, net.state a = .ok s)
    (Set.mem_biUnion ⟨s, hs, ht⟩ (hb.imp Eq.symm fun h => h))

/-- Finitely many states are reached with no call open. -/
theorem finite_level (net : Network) (id : StateId) :
    {target | net.Reaches ⟨id, []⟩ ⟨target, []⟩}.Finite := by
  -- Calls may be open on the way, so the states they return to are looked at as well.
  suffices hall : ∀ q, net.Reaches ⟨id, []⟩ q →
      q.state ∈ insert id net.successors ∧ ∀ f ∈ q.context, f ∈ insert id net.successors by
    exact (finite_successors.insert id).subset fun b hb => (hall _ hb).1
  intro q hq
  induction hq with
  | refl => exact ⟨.inl rfl, nofun⟩
  | tail _ hs ih =>
    cases hs with
    | epsilon ht => exact ⟨.inr ⟨_, _, ht, .inl rfl⟩, ih.2⟩
    | predicate ht => exact ⟨.inr ⟨_, _, ht, .inl rfl⟩, ih.2⟩
    | action ht => exact ⟨.inr ⟨_, _, ht, .inl rfl⟩, ih.2⟩
    | call ht =>
      exact ⟨.inr ⟨_, _, ht, .inl rfl⟩,
        List.forall_mem_cons.2 ⟨.inr ⟨_, _, ht, .inr ⟨_, rfl⟩⟩, ih.2⟩⟩
    | exit => exact ⟨ih.2 _ List.mem_cons_self, fun f hf => ih.2 f (List.mem_cons_of_mem _ hf)⟩

theorem finite_reaches_nil (h : ¬net.IsLeftRecursive) (id : StateId) :
    {q | net.Reaches ⟨id, []⟩ q}.Finite := by
  induction id using (wellFounded_callsInto h).induction with
  | h id ih =>
  -- A point is reached with no call open, or within the first call that is.
  let within (t : Transition) : Set Point :=
    {q | ∃ r f calls, t.label = .call r f ∧ q.context = calls ++ [f] ∧
      net.Reaches ⟨t.target, []⟩ ⟨q.state, calls⟩}
  have hwithin (a : StateId) (ha : net.Reaches ⟨id, []⟩ ⟨a, []⟩) (t : Transition)
      (ht : net.HasTransition a t) : (within t).Finite := by
    obtain ⟨target, label⟩ := t
    by_cases hl : ∃ r f, label = .call r f
    · obtain ⟨r, f, rfl⟩ := hl
      have hcall : net.CallsInto id target := ⟨[f], by simp, ha.tail (.call ht)⟩
      refine ((ih target hcall).image fun q => ⟨q.state, q.context ++ [f]⟩).subset ?_
      rintro ⟨state, context⟩ ⟨_, _, calls, hl, rfl, hq⟩
      cases hl
      exact ⟨_, hq, rfl⟩
    · refine Set.finite_empty.subset ?_
      rintro q ⟨r, f, _, rfl, _⟩
      exact hl ⟨r, f, rfl⟩
  have hlevel := finite_level net id
  refine ((hlevel.image fun a => ⟨a, []⟩).union
    (hlevel.biUnion fun a ha => (finite_transitions net a).biUnion (hwithin a ha))).subset ?_
  rintro ⟨state, context⟩ hq
  obtain hnil | ⟨a, target, follow, rule, calls, hc, ha, ht, hrun⟩ := hq.lastCall
  · obtain rfl : context = [] := hnil
    exact .inl ⟨state, hq, rfl⟩
  · exact .inr (Set.mem_biUnion ha (Set.mem_biUnion ht ⟨rule, follow, calls, rfl, hc, hrun⟩))

/-- Without left recursion, finitely many points are reached from a point without
    a token. -/
theorem finite_reaches (h : ¬net.IsLeftRecursive) (p : Point) : {q | net.Reaches p q}.Finite := by
  obtain ⟨id, context⟩ := p
  induction context generalizing id with
  | nil => exact finite_reaches_nil h id
  | cons follow rest ih =>
    refine (((finite_reaches_nil h id).image fun q => q.extend (follow :: rest)).union
      (ih follow)).subset ?_
    rintro ⟨state, context⟩ hq
    have hq : net.Reaches ⟨id, [] ++ follow :: rest⟩ ⟨state, context⟩ := hq
    obtain ⟨calls, rfl, hrun⟩ | ⟨_, _, _, _, ho, _, _, _, hrest⟩ := hq.cut
    · exact .inl ⟨_, hrun, rfl⟩
    · cases ho
      exact .inr hrest

/-! ## Skipping calls -/

/-- Whether the rule a state belongs to can be left from there without a token. -/
def CanReturn (net : Network) (id : StateId) : Prop :=
  ∃ stop s, net.Reaches ⟨id, []⟩ ⟨stop, []⟩ ∧ net.state stop = .ok s ∧ s.kind = .ruleStop

/-- A step that consumes nothing and stays in its rule: a call is skipped if there is a run that
    returns from it. -/
inductive SkipsTo (net : Network) : StateId → StateId → Prop
  | free {id : StateId} {t : Transition} : net.HasTransition id t → t.label.isFree = true →
    (∀ callee follow, t.label ≠ .call callee follow) → SkipsTo net id t.target
  | call {id target follow : StateId} {callee : RuleId} :
    net.HasTransition id ⟨target, .call callee follow⟩ → net.CanReturn target →
    SkipsTo net id follow

theorem SkipsTo.exists_freeStep {a b : StateId} (h : net.SkipsTo a b) :
    ∃ p, net.FreeStep ⟨a, []⟩ p ∧ net.Reaches p ⟨b, []⟩ := by
  cases h with
  | @free t ht hfree hcall =>
    obtain ⟨target, label⟩ := t
    cases label with
    | epsilon => exact ⟨_, .epsilon ht, .refl⟩
    | predicate => exact ⟨_, .predicate ht, .refl⟩
    | action => exact ⟨_, .action ht, .refl⟩
    | call callee follow => exact absurd rfl (hcall callee follow)
    | _ => cases hfree
  | call ht hreturn =>
    obtain ⟨stop, s, hrun, hs, hk⟩ := hreturn
    exact ⟨_, .call ht, (hrun.extend [b]).tail (.exit hs hk)⟩

theorem SkipsTo.reaches {a b : StateId} (h : net.SkipsTo a b) : net.Reaches ⟨a, []⟩ ⟨b, []⟩ := by
  obtain ⟨p, hs, hrun⟩ := h.exists_freeStep
  exact .head hs hrun

theorem CanReturn.of_skipsTo {a b : StateId} (h : net.CanReturn b) (hs : net.SkipsTo a b) :
    net.CanReturn a := by
  obtain ⟨stop, s, hrun, hstop⟩ := h
  exact ⟨stop, s, hs.reaches.trans hrun, hstop⟩

/-- Under any caller, a run from a state that consumes nothing ends, if it ends in the case that
    it returns there. -/
def EndsBelow (net : Network) (id : StateId) : Prop :=
  ∀ context, (∀ follow rest, context = follow :: rest → net.CanReturn id →
      Acc (fun q p => net.FreeStep p q) ⟨follow, rest⟩) →
    Acc (fun q p => net.FreeStep p q) ⟨id, context⟩

/-- Where the steps on a level come to an end, a run ends if it does in all that is called. -/
theorem endsBelow_of_acc {id a : StateId} (ha : Acc (fun b a => net.SkipsTo a b) a)
    (hreach : net.Reaches ⟨id, []⟩ ⟨a, []⟩)
    (hcalled : ∀ target, net.CallsInto id target → net.EndsBelow target) : net.EndsBelow a := by
  induction ha with
  | intro a _ ih =>
    intro context hret
    -- A step within the rule keeps the caller, to which the rest can return if the whole can.
    have skip {b : StateId} (hs : net.SkipsTo a b) :
        Acc (fun q p => net.FreeStep p q) ⟨b, context⟩ :=
      ih b hs (hreach.trans hs.reaches) context fun follow rest hc hr =>
        hret follow rest hc (hr.of_skipsTo hs)
    refine Acc.intro _ fun q hq => ?_
    cases hq with
    | epsilon ht => exact skip (.free ht rfl nofun)
    | predicate ht => exact skip (.free ht rfl nofun)
    | action ht => exact skip (.free ht rfl nofun)
    | exit hs hk => exact hret _ _ rfl ⟨a, _, .refl, hs, hk⟩
    | @call _ target follow callee _ ht =>
      refine hcalled target ⟨_, List.cons_ne_nil _ _, hreach.tail (.call ht)⟩ _
        fun follow' rest hc hr => ?_
      obtain ⟨rfl, rfl⟩ := List.cons.inj hc
      exact skip (.call ht hr)

/-- Calls cannot be nested for ever, so a run ends if the steps come to an end on each level. -/
theorem endsBelow (hcalls : WellFounded fun target id => net.CallsInto id target) {a : StateId}
    (hlevel : ∀ q, net.Reaches ⟨a, []⟩ q → Acc (fun b a => net.SkipsTo a b) q.state) :
    net.EndsBelow a := by
  induction a using hcalls.induction with
  | h a ih =>
    refine endsBelow_of_acc (hlevel _ .refl) .refl fun target htarget => ?_
    obtain ⟨calls, _, hcall⟩ := id htarget
    exact ih target htarget fun q hq =>
      hlevel (q.extend calls) (hcall.trans (hq.extend calls))

/-- Every run from a point that consumes nothing ends, if it does on each level. -/
theorem acc_freeStep (hcalls : WellFounded fun target id => net.CallsInto id target)
    {S : StateId → Prop} (hlevel : ∀ id q, S id → net.Reaches ⟨id, []⟩ q →
      Acc (fun b a => net.SkipsTo a b) q.state) {p : Point} (hp : S p.state)
    (hcontext : ∀ id ∈ p.context, S id) : Acc (fun q p => net.FreeStep p q) p := by
  obtain ⟨id, context⟩ := p
  induction context generalizing id with
  | nil => exact endsBelow hcalls (fun q => hlevel id q hp) [] nofun
  | cons follow rest ih =>
    refine endsBelow hcalls (fun q => hlevel id q hp) _ fun _ _ hc _ => ?_
    obtain ⟨rfl, rfl⟩ := List.cons.inj hc
    obtain ⟨hfollow, hrest⟩ := List.forall_mem_cons.1 hcontext
    exact ih _ hfollow hrest

/-- A walk comes to the stop of a rule. -/
def WalksOut (net : Network) (step : StateId → StateId → Prop) (id : StateId) : Prop :=
  ∃ stop s, ReflTransGen step id stop ∧ net.state stop = .ok s ∧ s.kind = .ruleStop

/-- A walk comes to the stop of its rule and goes on where it returns to, again and again, up to
    a state where no call is left. -/
def Unwinds (net : Network) (step : StateId → StateId → Prop) (last : StateId) :
    StateId → List StateId → Prop
  | id, [] => ReflTransGen step id last
  | id, follow :: rest => net.WalksOut step id ∧ Unwinds net step last follow rest

theorem Unwinds.head {step : StateId → StateId → Prop} {last a b : StateId} {context : List StateId}
    (hs : step a b) (h : net.Unwinds step last b context) : net.Unwinds step last a context := by
  cases context with
  | nil => exact ReflTransGen.head hs h
  | cons follow rest =>
    obtain ⟨⟨stop, s, hwalk, hstop⟩, hrest⟩ := h
    exact ⟨⟨stop, s, .head hs hwalk, hstop⟩, hrest⟩

/-- A run that consumes nothing and leaves no call open unwinds by any steps that go along
    transitions and over the calls from which one walks out by these steps. -/
theorem Reaches.unwinds {step : StateId → StateId → Prop}
    (hfree : ∀ id t, net.HasTransition id t → t.label.isFree = true →
      (∀ callee follow, t.label ≠ .call callee follow) → step id t.target)
    (hcall : ∀ id target callee follow, net.HasTransition id ⟨target, .call callee follow⟩ →
      net.WalksOut step target → step id follow)
    {p : Point} {last : StateId} (h : net.Reaches p ⟨last, []⟩) :
    net.Unwinds step last p.state p.context := by
  induction h using ReflTransGen.head_induction_on with
  | refl => exact ReflTransGen.refl
  | head hs _ ih =>
    cases hs with
    | epsilon ht => exact ih.head (hfree _ _ ht rfl nofun)
    | predicate ht => exact ih.head (hfree _ _ ht rfl nofun)
    | action ht => exact ih.head (hfree _ _ ht rfl nofun)
    | call ht => exact ih.2.head (hcall _ _ _ _ ht ih.1)
    | exit hs hk => exact ⟨⟨_, _, .refl, hs, hk⟩, ih⟩

/-- A run that consumes nothing and makes its way back skips what it calls. -/
theorem Reaches.skips {a b : StateId} (h : net.Reaches ⟨a, []⟩ ⟨b, []⟩) :
    ReflTransGen net.SkipsTo a b := by
  have walk {id stop : StateId} (h : ReflTransGen net.SkipsTo id stop) :
      net.Reaches ⟨id, []⟩ ⟨stop, []⟩ := by
    induction h with
    | refl => exact .refl
    | tail _ hs ih => exact ih.trans hs.reaches
  refine Reaches.unwinds (fun _ _ => .free) (fun id target callee follow ht hout => ?_) h
  obtain ⟨stop, s, hwalk, hs, hk⟩ := hout
  exact .call ht ⟨stop, s, walk hwalk, hs, hk⟩

/-! ## Without free cycles -/

/-- A state is reached by one free step at least, and no call around is left. -/
def GoesOnTo (net : Network) (id target : StateId) : Prop :=
  ∃ calls p, net.FreeStep ⟨id, []⟩ p ∧ net.Reaches p ⟨target, calls⟩

theorem wellFounded_goesOnTo (h : ¬net.HasFreeCycle) :
    WellFounded fun target id => net.GoesOnTo id target := by
  refine wellFounded_of_irrefl net ?_ ?_ ?_
  · rintro a b c ⟨calls, p, hs, hab⟩ ⟨calls', q, hs', hbc⟩
    exact ⟨calls' ++ calls, p, hs, (hab.tail (hs'.extend calls)).trans (hbc.extend calls)⟩
  · rintro a ⟨calls, p, hs, ha⟩
    exact h ⟨a, calls, p, hs, run_nil_iff.2 ha⟩
  · rintro a b ⟨_, _, hs, _⟩
    exact hs.exists_state

/-- Without free cycles, there is no infinite run that consumes nothing. -/
theorem wellFounded_freeStep (h : ¬net.HasFreeCycle) : WellFounded fun q p => net.FreeStep p q := by
  have hskips : WellFounded fun b a => net.SkipsTo a b := by
    refine Subrelation.wf (fun {b a} hs => ?_) (wellFounded_goesOnTo h)
    obtain ⟨p, hstep, hrun⟩ := hs.exists_freeStep
    exact ⟨[], p, hstep, hrun⟩
  exact ⟨fun p => acc_freeStep (S := fun _ => True)
    (wellFounded_callsInto (not_isLeftRecursive h)) (fun _ q _ _ => hskips.apply q.state) trivial
    fun _ _ => trivial⟩

/-! ## Rankings -/

/-- The transitions of a network are listed with the numbers of their states. -/
theorem HasTransition.exists_number {id : StateId} {t : Transition} (h : net.HasTransition id t) :
    ∃ n : Nat, id = n ∧ n ∈ List.range net.states.size ∧
      t ∈ (net.states[n]?.map State.transitions).getD [] := by
  obtain ⟨s, hs, _, ht⟩ := h
  obtain ⟨n, rfl, hn⟩ := state_eq_ok_iff.1 hs
  refine ⟨n, rfl, List.mem_range.2 (Array.getElem?_eq_some_iff.1 hn).1, ?_⟩
  rwa [hn]

/-- Whether free transitions, and the returns from the calls among them, lead down in
    a ranking of the states. -/
def descends (net : Network) (rank : StateId → Nat) : Bool :=
  (List.range net.states.size).all fun i =>
    ((net.states[i]?.map State.transitions).getD []).all fun t =>
      !t.label.isFree || (decide (rank t.target < rank i) &&
        match t.label with
        | .call _ follow => decide (rank follow < rank i)
        | _ => true)

/-- A network whose free transitions lead down has no free cycle. -/
theorem not_hasFreeCycle_of_descends (rank : StateId → Nat) (h : net.descends rank = true) :
    ¬net.HasFreeCycle := by
  have down {id : StateId} {t : Transition} (ht : net.HasTransition id t)
      (hf : t.label.isFree = true) : rank t.target < rank id ∧
        ∀ rule follow, t.label = .call rule follow → rank follow < rank id := by
    obtain ⟨n, rfl, hn, ht⟩ := ht.exists_number
    have hdown := List.all_eq_true.1 (List.all_eq_true.1 h n hn) t ht
    rw [hf, Bool.not_true, Bool.false_or, Bool.and_eq_true, decide_eq_true_iff] at hdown
    refine ⟨hdown.1, fun rule follow hl => ?_⟩
    rw [hl] at hdown
    exact of_decide_eq_true hdown.2
  -- All states at hand stay below the one that the run has left.
  have below {bound : Nat} {p q : Point} (hs : net.FreeStep p q)
      (hp : rank p.state ≤ bound ∧ ∀ f ∈ p.context, rank f < bound) :
      rank q.state < bound ∧ ∀ f ∈ q.context, rank f < bound := by
    cases hs with
    | epsilon ht => exact ⟨(down ht rfl).1.trans_le hp.1, hp.2⟩
    | predicate ht => exact ⟨(down ht rfl).1.trans_le hp.1, hp.2⟩
    | action ht => exact ⟨(down ht rfl).1.trans_le hp.1, hp.2⟩
    | call ht =>
      exact ⟨(down ht rfl).1.trans_le hp.1,
        List.forall_mem_cons.2 ⟨((down ht rfl).2 _ _ rfl).trans_le hp.1, hp.2⟩⟩
    | exit => exact List.forall_mem_cons.1 hp.2
  rintro ⟨id, calls, p, hs, hrun⟩
  have hall (q : Point) (hq : net.Reaches p q) :
      rank q.state < rank id ∧ ∀ f ∈ q.context, rank f < rank id := by
    induction hq with
    | refl => exact below hs ⟨le_rfl, nofun⟩
    | tail _ hs' ih => exact below hs' ⟨ih.1.le, ih.2⟩
  exact lt_irrefl _ (hall _ (run_nil_iff.1 hrun)).1

/-- Whether calls lead down in a ranking of the states, and other free transitions and the
    returns from calls do not lead up. -/
def isLayered (net : Network) (rank : StateId → Nat) : Bool :=
  (List.range net.states.size).all fun i =>
    ((net.states[i]?.map State.transitions).getD []).all fun t =>
      !t.label.isFree || (decide (rank t.target ≤ rank i) &&
        match t.label with
        | .call _ follow => decide (rank t.target < rank i ∧ rank follow ≤ rank i)
        | _ => true)

/-- A network whose calls lead down is not left recursive. -/
theorem not_isLeftRecursive_of_isLayered (rank : StateId → Nat)
    (h : net.isLayered rank = true) : ¬net.IsLeftRecursive := by
  have down {id : StateId} {t : Transition} (ht : net.HasTransition id t)
      (hf : t.label.isFree = true) : rank t.target ≤ rank id ∧ ∀ rule follow,
        t.label = .call rule follow → rank t.target < rank id ∧ rank follow ≤ rank id := by
    obtain ⟨n, rfl, hn, ht⟩ := ht.exists_number
    have hdown := List.all_eq_true.1 (List.all_eq_true.1 h n hn) t ht
    rw [hf, Bool.not_true, Bool.false_or, Bool.and_eq_true, decide_eq_true_iff] at hdown
    refine ⟨hdown.1, fun rule follow hl => ?_⟩
    rw [hl] at hdown
    exact of_decide_eq_true hdown.2
  -- Neither a state nor where a call returns to is ranked higher than where a run began.
  have step {bound : Nat} {p q : Point} (hs : net.FreeStep p q)
      (hp : rank p.state ≤ bound ∧ ∀ f ∈ p.context, rank f ≤ bound) :
      rank q.state ≤ bound ∧ ∀ f ∈ q.context, rank f ≤ bound := by
    cases hs with
    | epsilon ht => exact ⟨(down ht rfl).1.trans hp.1, hp.2⟩
    | predicate ht => exact ⟨(down ht rfl).1.trans hp.1, hp.2⟩
    | action ht => exact ⟨(down ht rfl).1.trans hp.1, hp.2⟩
    | call ht =>
      exact ⟨(down ht rfl).1.trans hp.1,
        List.forall_mem_cons.2 ⟨((down ht rfl).2 _ _ rfl).2.trans hp.1, hp.2⟩⟩
    | exit => exact List.forall_mem_cons.1 hp.2
  have stays {id : StateId} {q : Point} (hq : net.Reaches ⟨id, []⟩ q) : rank q.state ≤ rank id := by
    suffices hall : rank q.state ≤ rank id ∧ ∀ f ∈ q.context, rank f ≤ rank id from hall.1
    induction hq with
    | refl => exact ⟨le_rfl, nofun⟩
    | tail _ hs ih => exact step hs ih
  rintro ⟨id, calls, hne, hrun⟩
  obtain hnil | ⟨caller, target, _, _, _, _, hcaller, ht, hcallee⟩ := (run_nil_iff.1 hrun).lastCall
  · exact hne hnil
  · have hcalled := ((down ht rfl).2 _ _ rfl).1
    exact absurd (stays hcallee) (not_le.2 (hcalled.trans_le (stays hcaller)))

end AdaptiveLL.Network
