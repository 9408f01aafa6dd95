import AdaptiveLL.Proofs.Indexing
import AdaptiveLL.Proofs.Prediction.Guarding
import Mathlib.Data.List.Sort

/-!
# Frontiers as maps

However configurations are added to a frontier, and however often it is put in order in between, it
is the map of what has been added (`Frontier.IsMapOf`): it has each key once, under a guard that
holds if that of one of the configurations does. One step keeps this (`IsMapOf.add`,
`IsMapOf.sorted`), and so do all (`Frontier.isMapOf_after`).

To find a key without looking at all of them, a frontier can have an index from hashes of keys to
places (`Frontier.Indexed`). It is kept in line with the places (`Indexed.Represents`) where guards
are joined, and made anew where the places change. So whatever the hashes are, and however many keys
have the same one, this is the same frontier, and an addition answers whether the key is new
(`Frontier.after_isMap`).
-/

namespace AdaptiveLL

namespace Frontier

variable {f g : Frontier} {l : List Config} {c d : Config}

/-! ## In order -/

/-- The order of the alternatives is that of an insertion sort. -/
theorem sortByAlt_eq (configs : List Config) :
    sortByAlt configs = configs.insertionSort fun c d => c.alt ≤ d.alt := by
  have insert_eq (c : Config) (l : List Config) :
      insertByAlt c l = l.orderedInsert (fun c d => c.alt ≤ d.alt) c := by
    induction l with
    | nil => rfl
    | cons d rest ih => simp only [insertByAlt, List.orderedInsert_cons, ih]
  induction configs with
  | nil => rfl
  | cons c rest ih =>
    rw [List.insertionSort_cons, ← insert_eq, ← ih]
    rfl

/-- A frontier is another one in order: it has the same configurations by ascending alternatives, and
    those of one alternative as they were. It says whether one of them has a guard that is not
    trivial. -/
structure IsSortOf (g f : Frontier) : Prop where
  perm : g.items.Perm f.items
  ascending : g.items.Pairwise fun c d => c.alt ≤ d.alt
  stable : ∀ alt : Int, g.items.filter (fun c => c.alt = alt) = f.items.filter fun c => c.alt = alt
  guarded_iff : g.guarded = true ↔ ∃ c ∈ g.items, c.guard.isTrivial = false

theorem pairwise_sortByAlt (configs : List Config) :
    (sortByAlt configs).Pairwise fun c d => c.alt ≤ d.alt := by
  have : Std.Total fun c d : Config => c.alt ≤ d.alt := ⟨fun c d => le_total c.alt d.alt⟩
  have : IsTrans Config fun c d => c.alt ≤ d.alt := ⟨fun _ _ _ => le_trans⟩
  rw [sortByAlt_eq]
  exact List.pairwise_insertionSort _ _

theorem filter_sortByAlt (configs : List Config) (alt : Int) :
    (sortByAlt configs).filter (fun c => c.alt = alt) = configs.filter fun c => c.alt = alt := by
  have hperm := (sortByAlt_perm configs).filter fun c => c.alt = alt
  have hpairwise : (configs.filter fun c => c.alt = alt).Pairwise fun c d => c.alt ≤ d.alt := by
    refine List.pairwise_of_forall_mem_list fun c hc d hd => ?_
    rw [of_decide_eq_true (List.mem_filter.1 hc).2, of_decide_eq_true (List.mem_filter.1 hd).2]
  -- Those of one alternative are in order, so the sort does not change theirs.
  have hsublist := List.sublist_insertionSort hpairwise List.filter_sublist
  have hfilter := hsublist.filter fun c => c.alt = alt
  rw [List.filter_filter, ← sortByAlt_eq] at hfilter
  simp only [Bool.and_self] at hfilter
  exact (hfilter.eq_of_length hperm.length_eq.symm).symm

theorem isSortOf_sorted (f : Frontier) : f.sorted.IsSortOf f where
  perm := sortByAlt_perm f.items
  ascending := pairwise_sortByAlt f.items
  stable := filter_sortByAlt f.items
  guarded_iff := by
    rw [sorted, ← (sortByAlt_perm f.items).any_eq]
    simp [List.any_eq_true]

/-- To put a frontier in order once more changes nothing. -/
theorem sorted_sorted (f : Frontier) : f.sorted.sorted = f.sorted := by
  have hitems : sortByAlt (sortByAlt f.items) = sortByAlt f.items := by
    rw [sortByAlt_eq (sortByAlt f.items)]
    exact (pairwise_sortByAlt f.items).insertionSort_eq
  rw [sorted, sorted, hitems, (sortByAlt_perm f.items).any_eq]

/-! ## Maps -/

/-- A frontier is the map of some configurations: it has each of their keys once, under a guard that
    holds if that of one of them does. -/
structure IsMapOf (f : Frontier) (l : List Config) : Prop where
  nodup : (f.items.map Config.toKey).Nodup
  holds_iff : ∀ k, f.Holds k ↔ ∃ c ∈ l, c.toKey = k
  guard_iff : ∀ c ∈ f.items, ∀ test,
    c.guard.holds test = true ↔ ∃ d ∈ l, d.toKey = c.toKey ∧ d.guard.holds test = true

theorem isMapOf_empty : ({} : Frontier).IsMapOf [] where
  nodup := .nil
  holds_iff k := by simp [Holds]
  guard_iff := nofun

/-- A frontier that has each key once is a map if it permits keys as the configurations do. -/
theorem isMapOf_of_permits (hnodup : (f.items.map Config.toKey).Nodup)
    (hholds : ∀ k, f.Holds k ↔ ∃ c ∈ l, c.toKey = k)
    (hpermits : ∀ test k, f.Permits test k ↔ ∃ d ∈ l, d.toKey = k ∧ d.guard.holds test = true) :
    f.IsMapOf l where
  nodup := hnodup
  holds_iff := hholds
  guard_iff c hc test := (holds_iff_permits hnodup hc).trans (hpermits test c.toKey)

theorem IsMapOf.permits_iff (h : f.IsMapOf l) (test : Int → Bool) (k : Config.Key) :
    f.Permits test k ↔ ∃ d ∈ l, d.toKey = k ∧ d.guard.holds test = true := by
  constructor
  · rintro ⟨c, hc, rfl, hholds⟩
    exact (h.guard_iff c hc test).1 hholds
  · rintro ⟨d, hd, rfl, hholds⟩
    obtain ⟨c, hc, hk⟩ := (h.holds_iff d.toKey).2 ⟨d, hd, rfl⟩
    exact ⟨c, hc, hk, (h.guard_iff c hc test).2 ⟨d, hd, hk.symm, hholds⟩⟩

theorem hasKey_iff_holds : f.hasKey c = true ↔ f.Holds c.toKey :=
  hasKey_iff

theorem holds_add_iff {k : Config.Key} : (f.add c).Holds k ↔ f.Holds k ∨ c.toKey = k := by
  constructor
  · rintro ⟨d, hd, rfl⟩
    obtain ⟨e, he, hde⟩ := mem_add hd
    rw [hde]
    rcases List.mem_cons.1 he with rfl | he
    · exact .inr rfl
    · exact .inl ⟨e, he, rfl⟩
  · rintro (⟨d, hd, rfl⟩ | rfl)
    · exact hasKey_iff_holds.1 (hasKey_add_of_hasKey (hasKey_iff_holds.2 ⟨d, hd, rfl⟩))
    · exact hasKey_iff_holds.1 (hasKey_add f c)

theorem IsMapOf.add (h : f.IsMapOf l) (hf : ∀ d ∈ f.items, d.guard.IsAscending)
    (hc : c.guard.IsAscending) : (f.add c).IsMapOf (l ++ [c]) := by
  refine isMapOf_of_permits (nodup_add h.nodup) (fun k => ?_) fun test k => ?_
  · simp only [holds_add_iff, h.holds_iff, List.mem_append, List.mem_singleton, or_and_right,
      exists_or, exists_eq_left]
  · simp only [permits_add_iff hf hc, h.permits_iff, List.mem_append, List.mem_singleton,
      or_and_right, exists_or, exists_eq_left]

theorem IsMapOf.sorted (h : f.IsMapOf l) : f.sorted.IsMapOf l where
  nodup := ((sortByAlt_perm f.items).map _).nodup_iff.2 h.nodup
  holds_iff k := by
    rw [← h.holds_iff]
    exact exists_congr fun c => and_congr_left' (sortByAlt_perm f.items).mem_iff
  guard_iff c hc := h.guard_iff c ((sortByAlt_perm f.items).mem_iff.1 hc)

/-- Two maps of the same configurations have the same keys under guards that mean the same. -/
theorem IsMapOf.exists_same {m : List Config} (h : f.IsMapOf l) (h' : g.IsMapOf m)
    (hsame : ∀ c, c ∈ l ↔ c ∈ m) (hc : c ∈ f.items) :
    ∃ d ∈ g.items, d.toKey = c.toKey ∧ ∀ test, d.guard.holds test = c.guard.holds test := by
  obtain ⟨d, hd, hk⟩ : g.Holds c.toKey := by
    obtain ⟨e, he, hk⟩ := (h.holds_iff c.toKey).1 ⟨c, hc, rfl⟩
    exact (h'.holds_iff c.toKey).2 ⟨e, (hsame e).1 he, hk⟩
  refine ⟨d, hd, hk, fun test => ?_⟩
  rw [Bool.eq_iff_iff, h.guard_iff c hc, h'.guard_iff d hd, hk]
  exact exists_congr fun e => and_congr_left' (hsame e).symm

/-! ## Operations -/

/-- What is done with a frontier. -/
inductive Operation
  | add (c : Config)
  /-- Puts the configurations in the order of the alternatives. -/
  | sort

/-- The frontier after an operation. -/
def apply (f : Frontier) : Operation → Frontier
  | .add c => f.add c
  | .sort => f.sorted

/-- The frontier that some operations lead to. -/
def after (ops : List Operation) : Frontier :=
  ops.foldl apply {}

/-- The configurations that are added by some operations. -/
def added (ops : List Operation) : List Config :=
  ops.filterMap fun
    | .add c => some c
    | .sort => none

theorem after_concat (ops : List Operation) (op : Operation) :
    after (ops ++ [op]) = (after ops).apply op := by
  rw [after, List.foldl_concat, after]

theorem added_append (ops rest : List Operation) : added (ops ++ rest) = added ops ++ added rest :=
  List.filterMap_append

theorem added_concat_add (ops : List Operation) (c : Config) :
    added (ops ++ [.add c]) = added ops ++ [c] :=
  added_append ops [.add c]

theorem added_concat_sort (ops : List Operation) : added (ops ++ [.sort]) = added ops :=
  (added_append ops [.sort]).trans (List.append_nil _)

/-- The guards are ascending if those that are added are. -/
theorem isAscending_after {ops : List Operation} (h : ∀ c ∈ added ops, c.guard.IsAscending) :
    ∀ c ∈ (after ops).items, c.guard.IsAscending := by
  induction ops using List.reverseRecOn with
  | nil => exact List.forall_mem_nil _
  | append_singleton ops op ih =>
    rw [after_concat]
    cases op with
    | add c =>
      rw [added_concat_add] at h
      obtain ⟨hops, hc⟩ := List.forall_mem_append.1 h
      exact forall_guard_add (fun _ _ => .or) (ih hops) (hc c List.mem_cons_self)
    | sort =>
      rw [added_concat_sort] at h
      exact fun c hc => ih h c ((sortByAlt_perm _).mem_iff.1 hc)

/-- A frontier is the map of what has been added. -/
theorem isMapOf_after {ops : List Operation} (h : ∀ c ∈ added ops, c.guard.IsAscending) :
    (after ops).IsMapOf (added ops) := by
  induction ops using List.reverseRecOn with
  | nil => exact isMapOf_empty
  | append_singleton ops op ih =>
    rw [after_concat]
    cases op with
    | add c =>
      rw [added_concat_add] at h ⊢
      obtain ⟨hops, hc⟩ := List.forall_mem_append.1 h
      exact (ih hops).add (isAscending_after hops) (hc c List.mem_cons_self)
    | sort =>
      rw [added_concat_sort] at h ⊢
      exact (ih h).sorted

/-! ## Looking keys up -/

/-- A frontier with an index: the hash of each key with the place where the key is. -/
structure Indexed where
  items : List Config := []
  index : List (Nat × Nat) := []
  guarded : Bool := false

namespace Indexed

variable (hash : Config.Key → Nat) {x : Indexed} {k : Config.Key} {i : Nat}

/-- The place of a key, among those that the index has for its hash. -/
def place? (x : Indexed) (k : Config.Key) : Option Nat :=
  ((x.index.filter fun e => e.1 = hash k).map Prod.snd).find? fun i =>
    x.items[i]?.any fun c => c.toKey = k

/-- Adds a configuration, and answers whether its key is new. -/
def add (x : Indexed) (c : Config) : Bool × Indexed :=
  match x.place? hash c.toKey with
  | some i =>
    (false, { x with items := x.items.modify i fun d => { d with guard := d.guard.or c.guard } })
  | none =>
    (true, { items := x.items ++ [c]
             index := (hash c.toKey, x.items.length) :: x.index
             guarded := x.guarded || !c.guard.isTrivial })

/-- Puts the configurations in the order of the alternatives, and indexes them anew. -/
def sorted (x : Indexed) : Indexed :=
  let items := sortByAlt x.items
  { items
    index := items.mapIdx fun i c => (hash c.toKey, i)
    guarded := items.any fun c => !c.guard.isTrivial }

/-- The frontier with an index after an operation. -/
def apply (x : Indexed) : Operation → Indexed
  | .add c => (x.add hash c).2
  | .sort => x.sorted hash

/-- The frontier with an index that some operations lead to. -/
def after (ops : List Operation) : Indexed :=
  ops.foldl (apply hash) {}

/-- A frontier with an index is a frontier: the index has the hash of each key with its place, and
    nothing else. -/
structure Represents (x : Indexed) (f : Frontier) : Prop where
  items : x.items = f.items
  guarded : x.guarded = f.guarded
  mem_index : ∀ n i, (n, i) ∈ x.index ↔ ∃ c, x.items[i]? = some c ∧ hash c.toKey = n

variable {hash}

theorem Represents.isIndexOf (h : x.Represents hash f) :
    IsIndexOf (fun c : Config => hash c.toKey) x.index x.items :=
  h.mem_index

theorem Represents.place?_eq_some (h : x.Represents hash f) (hplace : x.place? hash k = some i) :
    ∃ c, f.items[i]? = some c ∧ c.toKey = k := by
  rw [← h.items]
  obtain ⟨c, hc, hk⟩ := lookUp?_eq_some hplace
  exact ⟨c, hc, of_decide_eq_true hk⟩

/-- A key that is not found is not there, as the index has its hash if it is. -/
theorem Represents.place?_eq_none (h : x.Represents hash f) (hplace : x.place? hash k = none) :
    ¬f.Holds k := by
  rintro ⟨c, hc, rfl⟩
  rw [← h.items] at hc
  exact of_decide_eq_false (h.isIndexOf.lookUp?_eq_none hc hplace) rfl

/-- To join a guard at the place of its key is to join it under this key, which is there once. -/
theorem modify_eq_joinGuard (hnodup : (l.map Config.toKey).Nodup) (hd : l[i]? = some d)
    (hk : d.toKey = c.toKey) :
    (l.modify i fun d => { d with guard := d.guard.or c.guard }) = l.map (joinGuard c) := by
  have hjoin (e : Config) : joinGuard c e =
      if e.toKey = d.toKey then { e with guard := e.guard.or c.guard } else e := by
    simp [joinGuard, hk]
  rw [modify_eq_map hnodup hd, funext hjoin]

theorem Represents.add (h : x.Represents hash f) (hnodup : (f.items.map Config.toKey).Nodup)
    (c : Config) :
    (x.add hash c).1 = !f.hasKey c ∧ (x.add hash c).2.Represents hash (f.add c) := by
  rw [Indexed.add]
  split
  · next i hplace =>
    obtain ⟨d, hd, hk⟩ := h.place?_eq_some hplace
    have hkey : f.hasKey c = true := hasKey_iff.2 ⟨d, List.mem_of_getElem? hd, hk⟩
    have hkeys (e : Config) : hash (joinGuard c e).toKey = hash e.toKey :=
      congrArg hash (toKey_joinGuard c e)
    rw [Frontier.add, if_pos hkey, hkey, h.items, modify_eq_joinGuard hnodup hd hk, ← h.items]
    exact ⟨rfl, rfl, h.guarded, h.isIndexOf.map hkeys⟩
  · next hplace =>
    have hkey : f.hasKey c = false :=
      Bool.eq_false_iff.2 fun hkey => h.place?_eq_none hplace (hasKey_iff_holds.1 hkey)
    rw [Frontier.add, hkey]
    exact ⟨rfl, by simp [h.items], by simp [h.guarded], h.isIndexOf.concat c⟩

theorem Represents.sorted (h : x.Represents hash f) :
    (x.sorted hash).Represents hash f.sorted where
  items := congrArg sortByAlt h.items
  guarded := by
    rw [Indexed.sorted, Frontier.sorted, h.items]
    exact (sortByAlt_perm f.items).any_eq
  mem_index n i := by
    simp only [Indexed.sorted, List.mem_mapIdx, Prod.mk.injEq, List.getElem?_eq_some_iff]
    constructor
    · rintro ⟨j, hj, rfl, rfl⟩
      exact ⟨_, ⟨hj, rfl⟩, rfl⟩
    · rintro ⟨c, ⟨hi, rfl⟩, rfl⟩
      exact ⟨i, hi, rfl, rfl⟩

/-- The operations lead to the same frontier with an index. -/
theorem represents_after {ops : List Operation} (h : ∀ c ∈ added ops, c.guard.IsAscending) :
    (after hash ops).Represents hash (Frontier.after ops) := by
  induction ops using List.reverseRecOn with
  | nil => exact ⟨rfl, rfl, by simp [after]⟩
  | append_singleton ops op ih =>
    rw [after_concat, after, List.foldl_concat]
    cases op with
    | add c =>
      rw [added_concat_add] at h
      have hops := (List.forall_mem_append.1 h).1
      exact ((ih hops).add (isMapOf_after hops).nodup c).2
    | sort =>
      rw [added_concat_sort] at h
      exact (ih h).sorted

end Indexed

/-- However configurations are added to a frontier and the frontier is put in order, it is the map
    of those that have been added, so that their order does not matter for what the guards mean. Put
    in order, it stays so. A key is new if it has not been added before; and with an index over any
    hashes it is the same frontier, where an addition answers whether the key is new. Guards are
    ascending as they are made by requirements and disjunctions
    (`Condition.isCanonical_guard`). -/
theorem after_isMap (ops : List Operation) (h : ∀ c ∈ added ops, c.guard.IsAscending) :
    (after ops).IsMapOf (added ops) ∧
    (∀ ops', (∀ c, c ∈ added ops ↔ c ∈ added ops') → ∀ c ∈ (after ops).items,
      ∃ d ∈ (after ops').items, d.toKey = c.toKey ∧
        ∀ test, d.guard.holds test = c.guard.holds test) ∧
    (after ops).sorted.IsSortOf (after ops) ∧ (after ops).sorted.sorted = (after ops).sorted ∧
    (∀ before c rest, ops = before ++ .add c :: rest →
      ((after before).hasKey c = false ↔ ∀ d ∈ added before, d.toKey ≠ c.toKey)) ∧
    ∀ hash : Config.Key → Nat, (Indexed.after hash ops).Represents hash (after ops) ∧
      ∀ before c rest, ops = before ++ .add c :: rest →
        ((Indexed.after hash before).add hash c).1 = !(after before).hasKey c := by
  have hbefore {before rest : List Operation} (hops : ops = before ++ rest) :
      ∀ d ∈ added before, d.guard.IsAscending := by
    rw [hops, added_append] at h
    exact (List.forall_mem_append.1 h).1
  refine ⟨isMapOf_after h, ?_, isSortOf_sorted _, sorted_sorted _, ?_,
    fun hash => ⟨Indexed.represents_after h, ?_⟩⟩
  · intro ops' hsame c hc
    have h' : ∀ c ∈ added ops', c.guard.IsAscending := fun c hc => h c ((hsame c).2 hc)
    exact (isMapOf_after h).exists_same (isMapOf_after h') hsame hc
  · intro before c rest hops
    have hmap := isMapOf_after (hbefore hops)
    rw [Bool.eq_false_iff, Ne, hasKey_iff_holds, hmap.holds_iff, not_exists]
    exact forall_congr' fun d => not_and
  · intro before c rest hops
    have hmap := isMapOf_after (hbefore hops)
    exact ((Indexed.represents_after (hbefore hops)).add hmap.nodup c).1

/-- A key that is added once more after its frontier has been put in order. -/
def interleaved : List Operation :=
  [.add { state := 5, alt := 2, guard := (Condition.always.require 1).guard },
    .add { state := 4, alt := 1 }, .sort,
    .add { state := 5, alt := 2, guard := (Condition.always.require 2).guard }]

/-- Also where all hashes are the same, the second guard is joined to the first one. -/
theorem interleaved_isMap :
    (Indexed.after (fun _ => 0) interleaved).Represents (fun _ => 0) (after interleaved) ∧
      (after interleaved).items.map (fun c => (c.state, c.alt, c.guard.terms)) =
        [(4, 1, [[]]), (5, 2, [[1], [2]])] := by
  have h : ∀ c ∈ added interleaved, c.guard.IsAscending := by
    simp only [interleaved, added, List.filterMap_cons, List.filterMap_nil, List.forall_mem_cons]
    exact ⟨(Condition.isCanonical_guard _).isAscending, Guard.isAscending_trivial,
      (Condition.isCanonical_guard _).isAscending, List.forall_mem_nil _⟩
  obtain ⟨_, _, _, _, _, hindexed⟩ := after_isMap interleaved h
  exact ⟨(hindexed _).1, by decide⟩

end Frontier

end AdaptiveLL
