import AdaptiveLL.Grammar.Builder
import Mathlib.Data.Finset.Card
import Mathlib.Logic.Relation

/-!
# What can match nothing

The search for a way through a fragment that consumes nothing finds one exactly if there is
one (`Fragment.canBeEmpty_iff`), as it looks at each state once and there are no more states
than steps (`mem_reachable_iff`). So more rules that can match nothing make more of them, and
the rules that are found are closed under this (`Builder.nullableStep_nullable`): a rule that
can be crossed by skipping calls of such rules is one of them.
-/

namespace AdaptiveLL

open Relation

/-! ## Searching -/

/-- Some states without those that have been found. -/
def withoutFound (found ids : List StateId) : List StateId :=
  ids.foldl (fun new t => if t ∈ found ∨ t ∈ new then new else t :: new) []

theorem mem_withoutFound {found ids : List StateId} {t : StateId} :
    t ∈ withoutFound found ids ↔ t ∈ ids ∧ t ∉ found := by
  have fold (ids new : List StateId) :
      t ∈ ids.foldl (fun new t => if t ∈ found ∨ t ∈ new then new else t :: new) new ↔
        t ∈ new ∨ (t ∈ ids ∧ t ∉ found) := by
    induction ids generalizing new with
    | nil => simp
    | cons i ids ih =>
      rw [List.foldl_cons, ih]
      split <;> grind
  rw [withoutFound, fold]
  simp

theorem nodup_withoutFound (found ids : List StateId) : (withoutFound found ids).Nodup := by
  have fold (ids : List StateId) {new : List StateId} (h : new.Nodup) :
      (ids.foldl (fun new t => if t ∈ found ∨ t ∈ new then new else t :: new) new).Nodup := by
    induction ids generalizing new with
    | nil => exact h
    | cons i ids ih =>
      rw [List.foldl_cons]
      split
      · exact ih h
      · next hi => exact ih (List.nodup_cons.2 ⟨fun hmem => hi (.inr hmem), h⟩)
  exact fold ids List.nodup_nil

/-- How far a search has come: of what has been found, all but the frontier has been looked
    at, and all of it is among finitely many states. -/
structure HasFound (next : StateId → List StateId) (all : Finset StateId)
    (frontier found : List StateId) : Prop where
  nodup : found.Nodup
  mem : ∀ id ∈ found, id ∈ all
  waiting : frontier ⊆ found
  looked : ∀ id ∈ found, id ∈ frontier ∨ next id ⊆ found

section

variable {next : StateId → List StateId} {all : Finset StateId} {frontier found : List StateId}
  {id : StateId}

/-- A step looks at a state of the frontier, and puts what is new in its place. -/
theorem HasFound.step (hall : ∀ a ∈ all, ∀ t ∈ next a, t ∈ all)
    (h : HasFound next all (id :: frontier) found) :
    HasFound next all (withoutFound found (next id) ++ frontier)
      (withoutFound found (next id) ++ found) where
  nodup := by
    refine List.nodup_append.2 ⟨nodup_withoutFound _ _, h.nodup, ?_⟩
    rintro a ha _ hb rfl
    exact (mem_withoutFound.1 ha).2 hb
  mem a ha := by
    rcases List.mem_append.1 ha with ha | ha
    · exact hall id (h.mem id (h.waiting List.mem_cons_self)) a (mem_withoutFound.1 ha).1
    · exact h.mem a ha
  waiting := by
    refine List.append_subset.2 ⟨List.subset_append_left _ _, fun a ha => ?_⟩
    exact List.mem_append_right _ (h.waiting (List.mem_cons_of_mem id ha))
  looked a ha := by
    rcases List.mem_append.1 ha with ha | ha
    · exact .inl (List.mem_append_left _ ha)
    -- Of the states that waited, only the first one is looked at now.
    rcases h.looked a ha with hfrontier | hnext
    · rcases List.mem_cons.1 hfrontier with rfl | hfrontier
      · refine .inr fun t ht => List.mem_append.2 ?_
        by_cases hfound : t ∈ found
        · exact .inr hfound
        · exact .inl (mem_withoutFound.2 ⟨ht, hfound⟩)
      · exact .inl (List.mem_append_right _ hfrontier)
    · exact .inr fun t ht => List.mem_append_right _ (hnext ht)

/-- With a step for each state that may still be looked at, a search finds all that follow
    from what it finds. -/
theorem explore_isClosed (hall : ∀ a ∈ all, ∀ t ∈ next a, t ∈ all)
    (h : HasFound next all frontier found) {fuel : Nat}
    (hfuel : frontier.length + all.card ≤ fuel + found.length) :
    found ⊆ explore next fuel frontier found ∧
      ∀ a ∈ explore next fuel frontier found, next a ⊆ explore next fuel frontier found := by
  induction fuel generalizing frontier found with
  | zero =>
    -- All states have been found, so none of them waits.
    have hcard : found.length ≤ all.card := by
      rw [← List.toFinset_card_of_nodup h.nodup]
      exact Finset.card_le_card fun a ha => h.mem a (List.mem_toFinset.1 ha)
    obtain rfl : frontier = [] := List.eq_nil_of_length_eq_zero (by omega)
    exact ⟨List.Subset.refl _, fun a ha => (h.looked a ha).resolve_left List.not_mem_nil⟩
  | succ fuel ih =>
    cases frontier with
    | nil => exact ⟨List.Subset.refl _, fun a ha => (h.looked a ha).resolve_left List.not_mem_nil⟩
    | cons id frontier =>
      have hfuel' : (withoutFound found (next id) ++ frontier).length + all.card ≤
          fuel + (withoutFound found (next id) ++ found).length := by
        rw [List.length_append, List.length_append]
        rw [List.length_cons] at hfuel
        omega
      have hstep := ih (h.step hall) hfuel'
      exact ⟨List.Subset.trans (List.subset_append_right _ _) hstep.1, hstep.2⟩

/-- A search finds only what follows from what had been found. -/
theorem exists_of_mem_explore {fuel : Nat} (hfrontier : frontier ⊆ found)
    (h : id ∈ explore next fuel frontier found) :
    ∃ a ∈ found, ReflTransGen (fun a b => b ∈ next a) a id := by
  induction fuel generalizing frontier found with
  | zero => exact ⟨id, h, .refl⟩
  | succ fuel ih =>
    cases frontier with
    | nil => exact ⟨id, h, .refl⟩
    | cons first frontier =>
      obtain ⟨hfirst, hrest⟩ := List.cons_subset.1 hfrontier
      obtain ⟨a, ha, hpath⟩ := ih (List.append_subset.2 ⟨List.subset_append_left _ _,
        fun t ht => List.mem_append_right _ (hrest ht)⟩) h
      rcases List.mem_append.1 ha with ha | ha
      · exact ⟨first, hfirst, .head (mem_withoutFound.1 ha).1 hpath⟩
      · exact ⟨a, ha, hpath⟩

/-- What is found from a state follows from it. -/
theorem walk_of_mem_reachable {states : Array State} {start : StateId}
    (h : id ∈ reachable states next start) : ReflTransGen (fun a b => b ∈ next a) start id := by
  obtain ⟨a, ha, hpath⟩ := exists_of_mem_explore (List.Subset.refl _) h
  rwa [List.mem_singleton.1 ha] at hpath

/-- What is found from a state is what follows from it, if only states follow. -/
theorem mem_reachable_iff {states : Array State} {start : StateId}
    (hnext : ∀ a, ReflTransGen (fun a b => b ∈ next a) start a → ∀ t ∈ next a,
      ∃ n : Nat, t = n ∧ n < states.size) :
    id ∈ reachable states next start ↔ ReflTransGen (fun a b => b ∈ next a) start id := by
  classical
  -- All that can be found is the start, which need not exist, and the states.
  let ids : Finset StateId :=
    insert start ((Finset.range states.size).image fun n : Nat => (n : StateId))
  let all := ids.filter (ReflTransGen (fun a b => b ∈ next a) start)
  have hstart : start ∈ all := Finset.mem_filter.2 ⟨Finset.mem_insert_self _ _, .refl⟩
  have hall : ∀ a ∈ all, ∀ t ∈ next a, t ∈ all := by
    intro a ha t ht
    obtain ⟨_, hwalk⟩ := Finset.mem_filter.1 ha
    obtain ⟨n, rfl, hn⟩ := hnext a hwalk t ht
    refine Finset.mem_filter.2 ⟨Finset.mem_insert_of_mem ?_, hwalk.tail ht⟩
    exact Finset.mem_image.2 ⟨n, Finset.mem_range.2 hn, rfl⟩
  have hcard : all.card ≤ states.size + 1 := by
    refine (Finset.card_filter_le _ _).trans <|
      (Finset.card_insert_le _ _).trans (Nat.succ_le_succ ?_)
    exact Finset.card_image_le.trans (Finset.card_range _).le
  have hfound : HasFound next all [start] [start] :=
    { nodup := List.nodup_singleton start
      mem := by simpa using hstart
      waiting := List.Subset.refl _
      looked := fun _ ha => .inl ha }
  have hfuel : [start].length + all.card ≤ states.size + 1 + [start].length := by
    rw [List.length_singleton]
    omega
  obtain ⟨hstart, hclosed⟩ := explore_isClosed hall hfound hfuel
  refine ⟨walk_of_mem_reachable, fun h => ?_⟩
  clear hfound hcard
  induction h with
  | refl => exact hstart List.mem_cons_self
  | tail _ hs ih => exact hclosed _ ih hs

end

/-! ## Crossing fragments -/

namespace Fragment

/-- A step that consumes nothing and stays in its rule, by skipping calls of rules that can
    match nothing. -/
def EmptyStep (states : Array State) (rules : List RuleId) (a b : StateId) : Prop :=
  ∃ t ∈ transitionsOf states a, emptyStep rules t = some b

variable {states : Array State} {rules rules' : List RuleId} {f : Fragment} {a b : StateId}

theorem emptyStep_call {target follow : StateId} {rule : RuleId} :
    emptyStep rules ⟨target, .call rule follow⟩ = if rule ∈ rules then some follow else none := rfl

theorem innerStep_of_emptyStep {t : Transition} (h : emptyStep rules t = some b) :
    innerStep t = b := by
  obtain ⟨target, label⟩ := t
  cases label with
  | call rule follow =>
    rw [emptyStep_call] at h
    split at h
    · exact Option.some.inj h
    · cases h
  | epsilon => exact Option.some.inj h
  | predicate => exact Option.some.inj h
  | action => exact Option.some.inj h
  | _ => cases h

/-- More rules that can match nothing allow more steps. -/
theorem EmptyStep.mono (hrules : rules ⊆ rules') (h : EmptyStep states rules a b) :
    EmptyStep states rules' a b := by
  obtain ⟨⟨target, label⟩, ht, hstep⟩ := h
  refine ⟨_, ht, ?_⟩
  cases label with
  | call rule follow =>
    rw [emptyStep_call] at hstep ⊢
    split at hstep
    · next hmem => rwa [if_pos (hrules hmem)]
    · cases hstep
  | _ => exact hstep

/-- Transitions that stay in their rule lead to states that exist. -/
def StaysIn (states : Array State) : Prop :=
  ∀ a, ∀ t ∈ transitionsOf states a, ∃ n : Nat, innerStep t = n ∧ n < states.size

/-- A walk to a state need not pass it. -/
theorem reflTransGen_ne {r : StateId → StateId → Prop} (h : ReflTransGen r a b) :
    ReflTransGen (fun x y => x ≠ b ∧ r x y) a b := by
  induction h using ReflTransGen.head_induction_on with
  | refl => exact .refl
  | @head x y hs _ ih =>
    by_cases hx : x = b
    · rw [hx]
    · exact .head ⟨hx, hs⟩ ih

/-- The search does not go on from the end of the fragment. -/
theorem mem_next_iff {x y : StateId} : y ∈ (if x = f.stop then [] else
    (transitionsOf states x).filterMap (emptyStep rules)) ↔
      x ≠ f.stop ∧ EmptyStep states rules x y := by
  split
  · next hx => simp [hx]
  · next hx => simp [hx, EmptyStep]

/-- If a way through a fragment is found, it can be crossed without consuming a token. -/
theorem walk_of_canBeEmpty (h : f.canBeEmpty states rules = true) :
    ReflTransGen (EmptyStep states rules) f.start f.stop := by
  rw [canBeEmpty, List.contains_iff_mem] at h
  exact ReflTransGen.mono (fun _ _ hs => (mem_next_iff.1 hs).2) _ _ (walk_of_mem_reachable h)

/-- A fragment can be crossed without consuming a token exactly if a way through it is found. -/
theorem canBeEmpty_iff (hstates : StaysIn states) :
    f.canBeEmpty states rules = true ↔ ReflTransGen (EmptyStep states rules) f.start f.stop := by
  refine ⟨walk_of_canBeEmpty, fun h => ?_⟩
  rw [canBeEmpty, List.contains_iff_mem, mem_reachable_iff]
  · simp only [mem_next_iff]
    exact reflTransGen_ne h
  · intro x _ y hy
    obtain ⟨_, t, ht, hstep⟩ := mem_next_iff.1 hy
    rw [← innerStep_of_emptyStep hstep]
    exact hstates x t ht

end Fragment

/-! ## Rules that can match nothing -/

namespace Builder

variable {σ : Type} {b : Builder σ}

theorem mem_nullableStep {rules : List RuleId} {id : RuleId} :
    id ∈ b.nullableStep rules ↔ ∃ (n : Nat) (r : RuleDraft σ) (bounds : Fragment), id = n ∧
      b.rules[n]? = some r ∧ r.bounds = some bounds ∧ bounds.canBeEmpty b.states rules = true := by
  rw [nullableStep, List.mem_filterMap]
  constructor
  · rintro ⟨n, hn, h⟩
    split at h
    · next bounds hbounds =>
      obtain ⟨r, hr, hb⟩ := Option.bind_eq_some_iff.1 hbounds
      split at h
      · next hempty => exact ⟨n, r, bounds, (Option.some.inj h).symm, hr, hb, hempty⟩
      · cases h
    · cases h
  · rintro ⟨n, r, bounds, rfl, hr, hb, hempty⟩
    refine ⟨n, List.mem_range.2 (Array.getElem?_eq_some_iff.1 hr).1, ?_⟩
    rw [hr, Option.bind_some, hb]
    exact if_pos hempty

theorem filterMap_sublist {α β : Type} {f f' : α → Option β}
    (h : ∀ a b, f a = some b → f' a = some b) (l : List α) :
    (l.filterMap f).Sublist (l.filterMap f') := by
  induction l with
  | nil => exact .slnil
  | cons a l ih =>
    rw [List.filterMap_cons, List.filterMap_cons]
    cases hf : f a with
    | none =>
      dsimp only
      split
      · exact ih
      · exact ih.cons _
    | some b =>
      rw [h a b hf]
      exact ih.cons_cons b

/-- More rules that can match nothing make more of them. -/
theorem nullableStep_sublist (hstates : Fragment.StaysIn b.states) {rules rules' : List RuleId}
    (h : rules ⊆ rules') : (b.nullableStep rules).Sublist (b.nullableStep rules') := by
  refine filterMap_sublist (fun n id hid => ?_) _
  split at hid
  · next bounds hbounds =>
    split at hid
    · next hempty =>
      have hpath := (Fragment.canBeEmpty_iff hstates).1 hempty
      rw [if_pos ((Fragment.canBeEmpty_iff hstates).2
        (ReflTransGen.mono (fun _ _ hs => hs.mono h) _ _ hpath))]
      exact hid
    · cases hid
  · cases hid

/-- A step that only adds something comes to an end within as many repetitions as there is room
    for. -/
theorem stabilize_eq {step : List RuleId → List RuleId} {size : Nat}
    (hmono : ∀ l m, l ⊆ m → (step l).Sublist (step m)) (hsize : ∀ l, (step l).length ≤ size)
    {n : Nat} {rules : List RuleId} (h : rules.Sublist (step rules))
    (hn : size ≤ n + rules.length) : step (stabilize step n rules) = stabilize step n rules := by
  induction n generalizing rules with
  | zero =>
    rw [stabilize]
    exact (h.eq_of_length_le ((hsize rules).trans (by omega))).symm
  | succ n ih =>
    rw [stabilize]
    split
    · next hsame => exact hsame
    · next hmore =>
      have hlt : rules.length < (step rules).length :=
        Nat.lt_of_le_of_ne h.length_le fun hlen => hmore (h.eq_of_length hlen).symm
      exact ih (hmono _ _ h.subset) (by omega)

/-- The rules that can match nothing are those that can do so by skipping calls of them. -/
theorem nullableStep_nullable (hstates : Fragment.StaysIn b.states) :
    b.nullableStep b.nullable = b.nullable := by
  refine stabilize_eq (fun _ _ => nullableStep_sublist hstates) (fun l => ?_) (List.nil_sublist _)
    (Nat.le_add_right b.rules.size _)
  exact (List.length_filterMap_le _ _).trans List.length_range.le

end Builder

end AdaptiveLL
