import AdaptiveLL.Ascending
import Mathlib.Data.Finset.Powerset
import Mathlib.Data.Finset.Dedup
import Mathlib.Data.Set.Finite.Basic
import Mathlib.Data.Set.Finite.List
import Mathlib.Order.Compare

/-!
# Ascending lists

What the insertions keep: the lists they make are strictly ascending (`Ascending.ascends_ofList`),
and such lists are equal if they have the same elements (`Ascends.eq_of_mem_iff`).

Lists of numbers ascend by the order of the numbers (`Ascending.pairwise_ofList`), so such a list has
no repetition, its head is the least of its elements, and over finitely many numbers there are
finitely many of them (`Ascending.finite_lists`).
-/

namespace AdaptiveLL.Ascending

section

variable {α : Type} [Ord α]

/-- A list is in strictly ascending order. -/
def Ascends (l : List α) : Prop :=
  l.Pairwise fun a b => compare a b = .lt

namespace Ascends

variable [Std.TransOrd α] [Std.LawfulEqOrd α] {l m : List α}

theorem insert (h : Ascends l) (a : α) : Ascends (insert a l) := by
  induction l with
  | nil => exact List.pairwise_singleton _ _
  | cons b l ih =>
    obtain ⟨hb, hl⟩ := List.pairwise_cons.1 h
    rw [Ascending.insert]
    split
    · next hab =>
      refine List.pairwise_cons.2 ⟨fun c hc => ?_, h⟩
      rcases List.mem_cons.1 hc with rfl | hc
      · exact hab
      · exact Std.TransCmp.lt_trans hab (hb c hc)
    · exact h
    · next hab =>
      refine List.pairwise_cons.2 ⟨fun c hc => ?_, ih hl⟩
      rcases mem_insert.1 hc with rfl | hc
      · exact Std.OrientedCmp.gt_iff_lt.1 hab
      · exact hb c hc

theorem insertAll (h : Ascends m) (l : List α) : Ascends (insertAll l m) := by
  induction l generalizing m with
  | nil => exact h
  | cons a l ih => exact ih (h.insert a)

/-- Strictly ascending lists with the same elements are equal. -/
theorem eq_of_mem_iff (hl : Ascends l) (hm : Ascends m) (h : ∀ a, a ∈ l ↔ a ∈ m) : l = m := by
  have nodup {l : List α} (hl : Ascends l) : l.Nodup :=
    hl.imp fun hab => by
      rintro rfl
      simp [Std.ReflCmp.compare_self] at hab
  have hperm : l.Perm m := (List.perm_ext_iff_of_nodup (nodup hl) (nodup hm)).2 h
  refine hperm.eq_of_pairwise (fun a b _ _ hab hba => ?_) hl hm
  rw [← Std.OrientedCmp.gt_iff_lt, hab] at hba
  cases hba

end Ascends

/-- The list made of some elements is strictly ascending. -/
theorem ascends_ofList [Std.TransOrd α] [Std.LawfulEqOrd α] (l : List α) : Ascends (ofList l) :=
  Ascends.insertAll .nil l

end

/-! ## Numbers -/

theorem ascends_iff {l : List Int} : Ascends l ↔ l.Pairwise (· < ·) := by
  simp [Ascends, compare_lt_iff_lt]

theorem pairwise_insert {l : List Int} (h : l.Pairwise (· < ·)) (a : Int) :
    (insert a l).Pairwise (· < ·) :=
  ascends_iff.1 ((ascends_iff.2 h).insert a)

/-- The list made of some numbers is strictly ascending. -/
theorem pairwise_ofList (l : List Int) : (ofList l).Pairwise (· < ·) :=
  ascends_iff.1 (ascends_ofList l)

/-- Insertions make a list of not more elements than there are insertions. -/
theorem length_ofList_le {α : Type} [Ord α] (l : List α) : (ofList l).length ≤ l.length := by
  have hinsert (a : α) (s : List α) : (insert a s).length ≤ s.length + 1 := by
    induction s with
    | nil => exact le_rfl
    | cons b s ih =>
      rw [insert]
      split
      · exact le_rfl
      · exact Nat.le_succ _
      · exact Nat.succ_le_succ ih
  have hall (s : List α) : (insertAll l s).length ≤ s.length + l.length := by
    induction l generalizing s with
    | nil => exact le_rfl
    | cons a l ih =>
      refine (ih (insert a s)).trans ?_
      rw [List.length_cons]
      have := hinsert a s
      omega
  exact (hall []).trans_eq (Nat.zero_add _)

/-- Strictly ascending lists of numbers with the same elements are equal. -/
theorem eq_of_mem_iff {l m : List Int} (hl : l.Pairwise (· < ·)) (hm : m.Pairwise (· < ·))
    (h : ∀ a, a ∈ l ↔ a ∈ m) : l = m :=
  (ascends_iff.2 hl).eq_of_mem_iff (ascends_iff.2 hm) h

/-- There are finitely many strictly ascending lists of some numbers. -/
theorem finite_lists {A : Set Int} (h : A.Finite) :
    {l : List Int | l.Pairwise (· < ·) ∧ ∀ a ∈ l, a ∈ A}.Finite := by
  refine Set.Finite.of_finite_image (f := List.toFinset) ?_ ?_
  · refine (h.toFinset.powerset.finite_toSet).subset ?_
    rintro _ ⟨l, ⟨_, hl⟩, rfl⟩
    refine Finset.mem_coe.2 (Finset.mem_powerset.2 fun a ha => ?_)
    exact h.mem_toFinset.2 (hl a (List.mem_toFinset.1 ha))
  · rintro l ⟨hl, _⟩ m ⟨hm, _⟩ heq
    refine eq_of_mem_iff hl hm fun a => ?_
    rw [← List.mem_toFinset, ← List.mem_toFinset]
    exact iff_of_eq (congrArg (a ∈ ·) heq)

/-- There are finitely many lists of bounded length of finitely many elements. -/
theorem finite_lists_of_length {α : Type} {A : Set α} (h : A.Finite) (n : Nat) :
    {l : List α | l.length ≤ n ∧ ∀ a ∈ l, a ∈ A}.Finite := by
  have := h.to_subtype
  refine ((List.finite_length_le A n).image (List.map Subtype.val)).subset ?_
  rintro l ⟨hlen, hl⟩
  obtain ⟨l, rfl⟩ : l ∈ Set.range (List.map Subtype.val) := by rwa [Set.range_list_map_coe]
  exact ⟨l, by rwa [List.length_map] at hlen, rfl⟩

end AdaptiveLL.Ascending
