import AdaptiveLL.Ascending

/-!
# Guards

A `Guard` is a condition on predicates, in disjunctive normal form: it holds if
all predicates of one of its terms do. The empty term makes it trivial: it holds
whatever the predicates are. Guards are built from the trivial one by requiring
a predicate in every term (`Guard.require`) and by disjunction (`Guard.or`),
which drops the terms that others absorb.
-/

namespace AdaptiveLL

/-- A condition on predicates: an ascending list of terms, which are ascending
    lists of predicates. -/
@[ext] structure Guard where
  terms : List (List Int) := [[]]
deriving DecidableEq, Repr

namespace Guard

instance : Inhabited Guard := ⟨{}⟩

/-- Whether the guard holds whatever the predicates are. -/
def isTrivial (g : Guard) : Bool :=
  g.terms.contains []

/-- The guard that requires a predicate as well. -/
def require (g : Guard) (p : Int) : Guard :=
  { terms := Ascending.ofList (g.terms.map (Ascending.insert p)) }

/-- Whether a term makes another one superfluous, which has more predicates. -/
def absorbs (term other : List Int) : Bool :=
  term != other && term.all other.contains

/-- The terms that no other one absorbs. -/
def reduce (terms : List (List Int)) : List (List Int) :=
  terms.filter fun term => !terms.any fun other => absorbs other term

/-- The guard that holds if one of two does. -/
def or (g h : Guard) : Guard :=
  if g.isTrivial then g
  else if h.isTrivial then {}
  else { terms := reduce (Ascending.insertAll h.terms g.terms) }

/-- Whether the guard holds under a test of predicates. -/
def holds (test : Int → Bool) (g : Guard) : Bool :=
  g.terms.any fun term => term.all test

/-- Whether the guard holds under a test with effects, which is made of the
    predicates in order and only as far as the answer depends on them. -/
def holdsM {m : Type → Type} [Monad m] (test : Int → m Bool) (g : Guard) : m Bool :=
  g.terms.anyM fun term => term.allM test

/-- The predicates that occur in the guard, ascending. -/
def predicates (g : Guard) : List Int :=
  Ascending.ofList g.terms.flatten

/-- The written form of a term. -/
def termText (term : List Int) : String :=
  "&&".intercalate (term.map fun p => "p" ++ toString p)

/-- The written form of a guard, which is empty if it is trivial. -/
def text (g : Guard) : String :=
  if g.isTrivial then "" else "||".intercalate (g.terms.map termText)

/-- A guard holds if some term has only predicates that do. -/
theorem holds_iff {test : Int → Bool} {g : Guard} :
    g.holds test = true ↔ ∃ term ∈ g.terms, ∀ p ∈ term, test p = true := by
  simp [holds]

/-- Requiring a predicate is a conjunction with it. -/
theorem holds_require {test : Int → Bool} {g : Guard} {p : Int} :
    (g.require p).holds test = true ↔ g.holds test = true ∧ test p = true := by
  simp only [holds_iff, require, Ascending.mem_ofList, List.mem_map]
  constructor
  · rintro ⟨_, ⟨term, ht, rfl⟩, h⟩
    exact ⟨⟨term, ht, fun q hq => h q (Ascending.mem_insert.2 (.inr hq))⟩,
      h p (Ascending.mem_insert.2 (.inl rfl))⟩
  · rintro ⟨⟨term, ht, h⟩, hp⟩
    refine ⟨_, ⟨term, ht, rfl⟩, fun q hq => ?_⟩
    rcases Ascending.mem_insert.1 hq with rfl | hq
    · exact hp
    · exact h q hq

/-- A trivial guard holds under every test. -/
theorem holds_of_isTrivial {g : Guard} (h : g.isTrivial = true) (test : Int → Bool) :
    g.holds test = true :=
  List.any_eq_true.2 ⟨[], List.contains_iff_mem.1 h, rfl⟩

/-- A predicate occurs in a guard if it occurs in one of its terms. -/
theorem mem_predicates {g : Guard} {p : Int} : p ∈ g.predicates ↔ ∃ term ∈ g.terms, p ∈ term := by
  simp [predicates, Ascending.mem_ofList, List.mem_flatten]

end Guard

end AdaptiveLL
