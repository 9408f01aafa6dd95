/-!
# Ascending lists

Finite sets and finite maps whose order shows in what is printed: a set is a
list in strictly ascending order (`Ascending.insert`), a map a list of pairs
with strictly ascending keys (`Ascending.insertKey`). Both insertions are one
pass, and the laws on membership and look-up hold of every list, ascending or
not.
-/

namespace AdaptiveLL.Ascending

variable {α β : Type} [Ord α]

/-- Adds an element to an ascending list, which keeps one copy of it. -/
def insert (a : α) : List α → List α
  | [] => [a]
  | b :: l =>
    match compare a b with
    | .lt => a :: b :: l
    | .eq => b :: l
    | .gt => b :: insert a l

/-- Adds the elements of a list one after the other. -/
def insertAll (l s : List α) : List α :=
  l.foldl (fun s a => insert a s) s

/-- The elements of a list, ascending and without repetition. -/
def ofList (l : List α) : List α :=
  insertAll l []

/-- Binds a key in an ascending map, replacing what it was bound to. -/
def insertKey (k : α) (x : β) : List (α × β) → List (α × β)
  | [] => [(k, x)]
  | (k', x') :: l =>
    match compare k k' with
    | .lt => (k, x) :: (k', x') :: l
    | .eq => (k, x) :: l
    | .gt => (k', x') :: insertKey k x l

variable [Std.LawfulEqOrd α]

/-- An insertion adds exactly the element inserted. -/
theorem mem_insert {a b : α} {l : List α} : a ∈ insert b l ↔ a = b ∨ a ∈ l := by
  induction l with
  | nil => simp [insert]
  | cons c l ih =>
    rw [insert]
    split
    · simp
    · next h => simp [Std.LawfulEqOrd.eq_of_compare h]
    · simp only [List.mem_cons, ih]
      exact or_left_comm

/-- Inserting a list adds exactly its elements. -/
theorem mem_insertAll {a : α} {l s : List α} : a ∈ insertAll l s ↔ a ∈ l ∨ a ∈ s := by
  induction l generalizing s with
  | nil => simp [insertAll]
  | cons b l ih =>
    have h : insertAll (b :: l) s = insertAll l (insert b s) := rfl
    rw [h, ih, mem_insert, List.mem_cons]
    exact ⟨fun h => by rcases h with h | h | h <;> simp [h],
      fun h => by rcases h with (h | h) | h <;> simp [h]⟩

/-- The ascending list has the elements of the list it is made of. -/
theorem mem_ofList {a : α} {l : List α} : a ∈ ofList l ↔ a ∈ l := by
  simp [ofList, mem_insertAll]

variable [BEq α] [LawfulBEq α]

/-- A key is bound to what it was bound to last. -/
theorem lookup_insertKey_self (k : α) (x : β) (l : List (α × β)) :
    (insertKey k x l).lookup k = some x := by
  induction l with
  | nil => simp [insertKey]
  | cons e l ih =>
    obtain ⟨k', x'⟩ := e
    rw [insertKey]
    split
    · simp
    · simp
    · next h =>
      have hne : (k == k') = false := by
        apply beq_eq_false_iff_ne.2
        rintro rfl
        simp [Std.ReflCmp.compare_self] at h
      simp [List.lookup_cons, hne, ih]

/-- Binding a key leaves every other key as it was. -/
theorem lookup_insertKey_of_ne {k k' : α} (h : k' ≠ k) (x : β) (l : List (α × β)) :
    (insertKey k x l).lookup k' = l.lookup k' := by
  have hne : (k' == k) = false := beq_eq_false_iff_ne.2 h
  induction l with
  | nil => simp [insertKey, List.lookup_cons, hne]
  | cons e l ih =>
    obtain ⟨k₂, x₂⟩ := e
    rw [insertKey]
    split
    · simp [List.lookup_cons, hne]
    · next hc =>
      obtain rfl := Std.LawfulEqOrd.eq_of_compare hc
      simp [List.lookup_cons, hne]
    · simp [List.lookup_cons, ih]

end AdaptiveLL.Ascending
