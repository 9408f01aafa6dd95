import Mathlib.Data.List.Nodup
import Mathlib.Order.Nat

/-!
# Indexes by hashes

To find an element of a list without looking at all of them, there can be an index of the list: the
hash of each element with the place of the element (`IsIndexOf`). An element is looked for at the
places of its hash only, and each of them is checked (`lookUp?`). So what is found is there, and what
is there is found, however many elements have one hash (`lookUp?_eq_some`, `IsIndexOf.lookUp?_eq_none`).

The index goes on with an element that is appended (`IsIndexOf.concat`), and stays where elements
are changed and keep their hashes (`IsIndexOf.map`).
-/

namespace AdaptiveLL

variable {α κ : Type} {index : List (Nat × Nat)} {items : List α} {hash : α → Nat} {p : α → Bool}
  {a : α} {n i : Nat}

/-- An index of a list has the hash of each element with its place, and nothing else. -/
def IsIndexOf (hash : α → Nat) (index : List (Nat × Nat)) (items : List α) : Prop :=
  ∀ n i, (n, i) ∈ index ↔ ∃ a, items[i]? = some a ∧ hash a = n

/-- The place of an element with a property, looked for among those that the index has for a hash. -/
def lookUp? (index : List (Nat × Nat)) (items : List α) (n : Nat) (p : α → Bool) : Option Nat :=
  ((index.filter fun e => e.1 = n).map Prod.snd).find? fun i => items[i]?.any p

theorem lookUp?_eq_some (h : lookUp? index items n p = some i) :
    ∃ a, items[i]? = some a ∧ p a = true := by
  rw [lookUp?] at h
  have hany := List.find?_some h
  exact (Option.any_eq_true _ _).1 hany

/-- What is not found is not there, as the index has its hash if it is. -/
theorem IsIndexOf.lookUp?_eq_none (h : IsIndexOf hash index items) (ha : a ∈ items)
    (hfound : lookUp? index items (hash a) p = none) : p a = false := by
  obtain ⟨i, hi⟩ := List.getElem?_of_mem ha
  have hplace : i ∈ (index.filter fun e => e.1 = hash a).map Prod.snd :=
    List.mem_map_of_mem (f := Prod.snd)
      (List.mem_filter.2 ⟨(h (hash a) i).2 ⟨a, hi, rfl⟩, decide_eq_true rfl⟩)
  have hany := List.find?_eq_none.1 hfound i hplace
  rw [hi] at hany
  exact Bool.eq_false_iff.2 hany

theorem isIndexOf_nil : IsIndexOf hash [] [] := by
  simp [IsIndexOf]

/-- An element that is appended gets the next place. -/
theorem IsIndexOf.concat (h : IsIndexOf hash index items) (a : α) :
    IsIndexOf hash ((hash a, items.length) :: index) (items ++ [a]) := by
  intro n j
  simp only [List.mem_cons, Prod.mk.injEq, h n j, List.getElem?_append, List.getElem?_singleton]
  rcases lt_trichotomy j items.length with hlt | rfl | hgt
  · simp [hlt, hlt.ne]
  · simp [eq_comm]
  · simp [hgt.not_gt, hgt.ne', Nat.sub_ne_zero_of_lt hgt]

/-- An index stays where elements are changed and keep their hashes. -/
theorem IsIndexOf.map (h : IsIndexOf hash index items) {f : α → α}
    (hf : ∀ a, hash (f a) = hash a) : IsIndexOf hash index (items.map f) := by
  intro n j
  rw [h n j, List.getElem?_map]
  cases items[j]? <;> simp [hf]

/-- To change an element at its place is to change what has its key, if this is there once. -/
theorem modify_eq_map [DecidableEq κ] {key : α → κ} (hnodup : (items.map key).Nodup)
    (ha : items[i]? = some a) (f : α → α) :
    items.modify i f = items.map fun b => if key b = key a then f b else b := by
  refine List.ext_getElem? fun j => ?_
  rw [List.getElem?_modify, List.getElem?_map]
  cases hb : items[j]? with
  | none => rfl
  | some b =>
    by_cases hij : i = j
    · subst hij
      obtain rfl : a = b := Option.some.inj (ha.symm.trans hb)
      simp
    · have hne : key b ≠ key a := by
        intro hkey
        have hlt : i < (items.map key).length := by
          rw [List.length_map]
          exact (List.getElem?_eq_some_iff.1 ha).1
        refine hij ((List.getElem?_inj hlt hnodup).1 ?_)
        rw [List.getElem?_map, List.getElem?_map, ha, hb, Option.map_some, Option.map_some, hkey]
      simp [hij, hne]

end AdaptiveLL
