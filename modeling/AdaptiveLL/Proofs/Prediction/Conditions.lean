import AdaptiveLL.Prediction.Guard
import AdaptiveLL.Proofs.Ascending

/-!
# Guards as conditions

A guard is made from the trivial one by requiring predicates and by disjunction, as a `Condition` is.
It holds exactly when the condition does that it is made of (`Condition.guard_states`), although a
disjunction drops the terms that others absorb: under each term that is dropped there is one that
no other term absorbs (`Guard.exists_mem_reduce`).

Guards made so are *canonical* (`Guard.IsCanonical`): they have each term once, and the empty one only
if they are trivial. The terms of a disjunction of two such guards are the minimal ones of both
(`Guard.mem_terms_or_iff`), whichever of its three cases applies. So it does not matter in which
order guards are joined (`Guard.IsCanonical.or_comm`, `Guard.IsCanonical.or_assoc`).
-/

namespace AdaptiveLL

namespace Ascending

/-- An ascending list that is part of another one is shorter. -/
theorem length_lt {l m : List Int} (hl : l.Pairwise (· < ·)) (hm : m.Pairwise (· < ·))
    (h : l ⊆ m) (hne : l ≠ m) : l.length < m.length := by
  have hsub : l.Subperm m := List.subperm_of_subset (hl.imp Int.ne_of_lt) h
  refine lt_of_le_of_ne hsub.length_le fun hlen => hne ?_
  have hperm := hsub.perm_of_length_le hlen.ge
  exact eq_of_mem_iff hl hm fun _ => hperm.mem_iff

end Ascending

namespace Guard

variable {g h k : Guard} {may : Int → Bool} {terms terms' : List (List Int)} {term : List Int}

/-! ## Minimal terms -/

/-- A term contains no other one of some terms. -/
def IsMinimal (terms : List (List Int)) (term : List Int) : Prop :=
  term ∈ terms ∧ ∀ other ∈ terms, other ⊆ term → other = term

theorem absorbs_iff {other : List Int} :
    absorbs other term = true ↔ other ≠ term ∧ other ⊆ term := by
  simp [absorbs, List.subset_def]

theorem mem_reduce : term ∈ reduce terms ↔ IsMinimal terms term := by
  simp only [reduce, List.mem_filter, Bool.not_eq_true', List.any_eq_false, absorbs_iff, IsMinimal,
    not_and']
  exact and_congr_right' (forall₂_congr fun _ _ => imp_congr_right fun _ => not_not)

/-- A term that holds contains one that holds and is not absorbed by another one. -/
theorem exists_mem_reduce (h : ∀ t ∈ terms, t.Pairwise (· < ·)) (hterm : term ∈ terms) :
    ∃ least ∈ reduce terms, least ⊆ term := by
  -- A term that absorbs another one is shorter, so absorption ends at some term.
  induction hlen : term.length using Nat.strong_induction_on generalizing term with
  | h n ih =>
    by_cases hminimal : IsMinimal terms term
    · exact ⟨term, mem_reduce.2 hminimal, List.Subset.refl _⟩
    · obtain ⟨other, hother, hsub, hne⟩ : ∃ other ∈ terms, other ⊆ term ∧ other ≠ term := by
        simpa [IsMinimal, hterm] using hminimal
      obtain ⟨least, hleast, hl⟩ := ih other.length
        (hlen ▸ Ascending.length_lt (h other hother) (h term hterm) hsub hne) hother rfl
      exact ⟨least, hleast, List.Subset.trans hl hsub⟩

theorem isMinimal_append_comm :
    IsMinimal (terms ++ terms') term ↔ IsMinimal (terms' ++ terms) term := by
  simp only [IsMinimal, List.mem_append, or_comm]

/-- Where the empty term is, it is the only minimal one. -/
theorem isMinimal_iff_of_nil_mem (h : [] ∈ terms) : IsMinimal terms term ↔ term = [] := by
  constructor
  · rintro ⟨_, hmin⟩
    exact (hmin [] h (List.nil_subset _)).symm
  · rintro rfl
    exact ⟨h, fun _ _ hsub => List.eq_nil_of_subset_nil hsub⟩

/-- Some terms that are part of others have the same minimal ones if none of the others lacks one
    of them under it. -/
theorem isMinimal_iff_of_covers (h : ∀ t ∈ terms', t.Pairwise (· < ·)) (hsub : terms ⊆ terms')
    (hcovers : ∀ t ∈ terms', ∃ least ∈ terms, least ⊆ t) :
    IsMinimal terms term ↔ IsMinimal terms' term := by
  constructor
  · rintro ⟨hterm, hmin⟩
    refine ⟨hsub hterm, fun other hother hle => ?_⟩
    obtain ⟨least, hleast, hl⟩ := hcovers other hother
    obtain rfl := hmin least hleast (List.Subset.trans hl hle)
    exact Ascending.eq_of_mem_iff (h other hother) (h least (hsub hterm)) fun p =>
      ⟨fun hp => hle hp, fun hp => hl hp⟩
  · rintro ⟨hterm, hmin⟩
    refine ⟨?_, fun other hother => hmin other (hsub hother)⟩
    obtain ⟨least, hleast, hl⟩ := hcovers term hterm
    rwa [hmin least (hsub hleast) hl] at hleast

/-! ## Ascending terms -/

/-- The terms of a guard are ascending, as they are made by insertions. -/
def IsAscending (g : Guard) : Prop :=
  ∀ term ∈ g.terms, term.Pairwise (· < ·)

theorem isAscending_trivial : ({} : Guard).IsAscending := by
  intro term hterm
  rw [List.mem_singleton.1 hterm]
  exact .nil

theorem mem_terms_require {p : Int} :
    term ∈ (g.require p).terms ↔ ∃ t ∈ g.terms, Ascending.insert p t = term := by
  rw [require, Ascending.mem_ofList, List.mem_map]

theorem IsAscending.require (hg : g.IsAscending) (p : Int) : (g.require p).IsAscending := by
  intro term hterm
  obtain ⟨t, ht, rfl⟩ := mem_terms_require.1 hterm
  exact Ascending.pairwise_insert (hg t ht) p

theorem mem_terms_or (ht : term ∈ (g.or h).terms) :
    term = [] ∨ term ∈ g.terms ∨ term ∈ h.terms := by
  rw [Guard.or] at ht
  split at ht
  · exact .inr (.inl ht)
  split at ht
  · exact .inl (List.mem_singleton.1 ht)
  · exact .inr (Ascending.mem_insertAll.1 (List.mem_of_mem_filter ht)).symm

theorem IsAscending.or (hg : g.IsAscending) (hh : h.IsAscending) : (g.or h).IsAscending := by
  intro term hterm
  obtain rfl | ht | ht := mem_terms_or hterm
  · exact .nil
  · exact hg term ht
  · exact hh term ht

/-- Under each term of two guards there is one that their disjunction keeps. -/
theorem exists_mem_terms_or (hg : g.IsAscending) (hh : h.IsAscending)
    (hterm : term ∈ g.terms ∨ term ∈ h.terms) : ∃ least ∈ (g.or h).terms, least ⊆ term := by
  rw [Guard.or]
  split
  · next htrivial => exact ⟨[], List.contains_iff_mem.1 htrivial, List.nil_subset _⟩
  split
  · exact ⟨[], List.mem_singleton_self _, List.nil_subset _⟩
  · exact exists_mem_reduce (fun t ht => (Ascending.mem_insertAll.1 ht).elim (hh t) (hg t))
      (Ascending.mem_insertAll.2 hterm.symm)

/-- The disjunction of two guards holds if one of them does. -/
theorem holds_or (hg : g.IsAscending) (hh : h.IsAscending) :
    (g.or h).holds may = true ↔ g.holds may = true ∨ h.holds may = true := by
  simp only [holds_iff]
  constructor
  · rintro ⟨term, hterm, hall⟩
    rw [Guard.or] at hterm
    split at hterm
    · exact .inl ⟨term, hterm, hall⟩
    split at hterm
    · next htrivial => exact .inr ⟨[], List.contains_iff_mem.1 htrivial, by simp⟩
    · rcases Ascending.mem_insertAll.1 (List.mem_of_mem_filter hterm) with ht | ht
      · exact .inr ⟨term, ht, hall⟩
      · exact .inl ⟨term, ht, hall⟩
  · intro hor
    obtain ⟨term, hterm, hall⟩ :
        ∃ term, (term ∈ g.terms ∨ term ∈ h.terms) ∧ ∀ p ∈ term, may p = true := by
      rcases hor with ⟨term, ht, hall⟩ | ⟨term, ht, hall⟩
      · exact ⟨term, .inl ht, hall⟩
      · exact ⟨term, .inr ht, hall⟩
    obtain ⟨least, hleast, hsub⟩ := exists_mem_terms_or hg hh hterm
    exact ⟨least, hleast, fun p hp => hall p (hsub hp)⟩

/-- Of the terms of a disjunction, not all are absorbed. -/
theorem terms_or_ne_nil (hg : g.IsAscending) (hh : h.IsAscending) (hne : g.terms ≠ []) :
    (g.or h).terms ≠ [] := by
  obtain ⟨term, hterm⟩ := List.exists_mem_of_ne_nil _ hne
  obtain ⟨least, hleast, _⟩ := exists_mem_terms_or hg hh (.inl hterm)
  exact List.ne_nil_of_mem hleast

theorem terms_require_ne_nil (hne : g.terms ≠ []) (p : Int) : (g.require p).terms ≠ [] := by
  obtain ⟨term, hterm⟩ := List.exists_mem_of_ne_nil _ hne
  exact List.ne_nil_of_mem (mem_terms_require.2 ⟨term, hterm, rfl⟩)

/-! ## The predicates of a guard -/

theorem mem_predicates_require {p q : Int} (h : q ∈ (g.require p).predicates) :
    q = p ∨ q ∈ g.predicates := by
  obtain ⟨_, hterm, hq⟩ := mem_predicates.1 h
  obtain ⟨term, ht, rfl⟩ := mem_terms_require.1 hterm
  exact (Ascending.mem_insert.1 hq).imp_right fun hq => mem_predicates.2 ⟨term, ht, hq⟩

theorem mem_predicates_or {q : Int} (hq : q ∈ (g.or h).predicates) :
    q ∈ g.predicates ∨ q ∈ h.predicates := by
  obtain ⟨term, hterm, hq⟩ := mem_predicates.1 hq
  obtain rfl | ht | ht := mem_terms_or hterm
  · cases hq
  · exact .inl (mem_predicates.2 ⟨term, ht, hq⟩)
  · exact .inr (mem_predicates.2 ⟨term, ht, hq⟩)

/-- Where a guard with a term does not hold, one of its predicates fails. -/
theorem exists_mem_predicates_of_holds_eq_false (hne : g.terms ≠ []) (h : g.holds may = false) :
    ∃ p ∈ g.predicates, may p = false := by
  obtain ⟨term, hterm⟩ := List.exists_mem_of_ne_nil _ hne
  have hfails := Bool.eq_false_iff.2 (List.any_eq_false.1 h term hterm)
  obtain ⟨p, hp, hmay⟩ := List.all_eq_false.1 hfails
  exact ⟨p, mem_predicates.2 ⟨term, hterm, hp⟩, Bool.eq_false_iff.2 hmay⟩

/-- A guard is trivial if it holds where every predicate fails. -/
theorem isTrivial_eq_holds (g : Guard) : g.isTrivial = g.holds fun _ => false := by
  rw [Bool.eq_iff_iff, holds_iff, isTrivial, List.contains_iff_mem]
  constructor
  · exact fun h => ⟨[], h, by simp⟩
  · rintro ⟨term, hterm, hall⟩
    obtain rfl : term = [] := List.eq_nil_iff_forall_not_mem.2 fun p hp => by simpa using hall p hp
    exact hterm

/-! ## Canonical guards -/

/-- A guard that is made by requirements and disjunctions: it has some terms, in order and each
    once, and the empty one only if it has no other. -/
structure IsCanonical (g : Guard) : Prop where
  isAscending : g.IsAscending
  ascends : Ascending.Ascends g.terms
  terms_ne_nil : g.terms ≠ []
  eq_of_isTrivial : g.isTrivial = true → g = {}

theorem isCanonical_trivial : ({} : Guard).IsCanonical where
  isAscending := isAscending_trivial
  ascends := List.pairwise_singleton _ _
  terms_ne_nil := List.cons_ne_nil _ _
  eq_of_isTrivial _ := rfl

namespace IsCanonical

theorem require (hg : g.IsCanonical) (p : Int) : (g.require p).IsCanonical where
  isAscending := hg.isAscending.require p
  ascends := Ascending.ascends_ofList _
  terms_ne_nil := terms_require_ne_nil hg.terms_ne_nil p
  eq_of_isTrivial htrivial := by
    -- The predicate is in every term.
    obtain ⟨term, _, hterm⟩ := mem_terms_require.1 (List.contains_iff_mem.1 htrivial)
    have hp : p ∈ Ascending.insert p term := Ascending.mem_insert.2 (.inl rfl)
    rw [hterm] at hp
    cases hp

theorem or (hg : g.IsCanonical) (hh : h.IsCanonical) : (g.or h).IsCanonical := by
  refine ⟨hg.isAscending.or hh.isAscending, ?_,
    terms_or_ne_nil hg.isAscending hh.isAscending hg.terms_ne_nil, ?_⟩
  · rw [Guard.or]
    split
    · exact hg.ascends
    split
    · exact isCanonical_trivial.ascends
    · exact (hg.ascends.insertAll h.terms).filter _
  · rw [Guard.or]
    split
    · exact hg.eq_of_isTrivial
    split
    · exact fun _ => rfl
    · next hgt hht =>
      intro htrivial
      have hnil := List.mem_of_mem_filter (List.contains_iff_mem.1 htrivial)
      rcases Ascending.mem_insertAll.1 hnil with ht | ht
      · exact absurd (List.contains_iff_mem.2 ht) hht
      · exact absurd (List.contains_iff_mem.2 ht) hgt

end IsCanonical

/-- The terms of a disjunction are the minimal ones of both guards. -/
theorem mem_terms_or_iff (hg : g.IsCanonical) :
    term ∈ (g.or h).terms ↔ IsMinimal (g.terms ++ h.terms) term := by
  have hnil (hmem : [] ∈ g.terms ++ h.terms) :
      term ∈ ({} : Guard).terms ↔ IsMinimal (g.terms ++ h.terms) term := by
    rw [isMinimal_iff_of_nil_mem hmem]
    exact List.mem_singleton
  by_cases hgt : g.isTrivial = true
  · rw [Guard.or, if_pos hgt]
    rw [hg.eq_of_isTrivial hgt] at hnil ⊢
    exact hnil List.mem_cons_self
  by_cases hht : h.isTrivial = true
  · rw [Guard.or, if_neg hgt, if_pos hht]
    exact hnil (List.mem_append_right _ (List.contains_iff_mem.1 hht))
  · rw [Guard.or, if_neg hgt, if_neg hht, mem_reduce]
    simp only [IsMinimal, Ascending.mem_insertAll, List.mem_append, or_comm]

/-- The terms of a disjunction have the same minimal ones as those of both guards, together with any
    other terms. -/
theorem isMinimal_or_iff (hg : g.IsCanonical) (hh : h.IsCanonical) (hk : k.IsAscending) :
    IsMinimal ((g.or h).terms ++ k.terms) term ↔
      IsMinimal (g.terms ++ h.terms ++ k.terms) term := by
  refine isMinimal_iff_of_covers (fun t ht => ?_) (fun t ht => ?_) fun t ht => ?_
  · rcases List.mem_append.1 ht with ht | ht
    · exact (List.mem_append.1 ht).elim (hg.isAscending t) (hh.isAscending t)
    · exact hk t ht
  · rcases List.mem_append.1 ht with ht | ht
    · exact List.mem_append_left _ ((mem_terms_or_iff hg).1 ht).1
    · exact List.mem_append_right _ ht
  · rcases List.mem_append.1 ht with ht | ht
    · obtain ⟨least, hleast, hsub⟩ :=
        exists_mem_terms_or hg.isAscending hh.isAscending (List.mem_append.1 ht)
      exact ⟨least, List.mem_append_left _ hleast, hsub⟩
    · exact ⟨t, List.mem_append_right _ ht, List.Subset.refl t⟩

namespace IsCanonical

theorem eq_of_mem_iff (hg : g.IsCanonical) (hh : h.IsCanonical)
    (hmem : ∀ t, t ∈ g.terms ↔ t ∈ h.terms) : g = h :=
  Guard.ext (hg.ascends.eq_of_mem_iff hh.ascends hmem)

theorem or_comm (hg : g.IsCanonical) (hh : h.IsCanonical) : g.or h = h.or g :=
  (hg.or hh).eq_of_mem_iff (hh.or hg) fun t => by
    rw [mem_terms_or_iff hg, mem_terms_or_iff hh, isMinimal_append_comm]

theorem or_assoc (hg : g.IsCanonical) (hh : h.IsCanonical) (hk : k.IsCanonical) :
    (g.or h).or k = g.or (h.or k) :=
  ((hg.or hh).or hk).eq_of_mem_iff (hg.or (hh.or hk)) fun t => by
    calc t ∈ ((g.or h).or k).terms
      _ ↔ IsMinimal (g.terms ++ h.terms ++ k.terms) t := by
        rw [mem_terms_or_iff (hg.or hh), isMinimal_or_iff hg hh hk.isAscending]
      _ ↔ IsMinimal (h.terms ++ k.terms ++ g.terms) t := by
        rw [List.append_assoc, isMinimal_append_comm]
      _ ↔ t ∈ (g.or (h.or k)).terms := by
        rw [hg.or_comm (hh.or hk), mem_terms_or_iff (hh.or hk),
          isMinimal_or_iff hh hk hg.isAscending]

end IsCanonical

end Guard

/-! ## Conditions -/

/-- A condition on predicates, as guards are made. -/
inductive Condition
  | always
  | require (c : Condition) (p : Int)
  | or (c d : Condition)

namespace Condition

/-- Whether the condition holds under a test of predicates. -/
def holds (test : Int → Bool) : Condition → Bool
  | always => true
  | require c p => c.holds test && test p
  | or c d => c.holds test || d.holds test

/-- The predicates that the condition speaks of. -/
def predicates : Condition → List Int
  | always => []
  | require c p => p :: c.predicates
  | or c d => c.predicates ++ d.predicates

/-- The guard that is made as the condition is. -/
def guard : Condition → Guard
  | always => {}
  | require c p => c.guard.require p
  | or c d => c.guard.or d.guard

theorem isCanonical_guard (c : Condition) : c.guard.IsCanonical := by
  induction c with
  | always => exact Guard.isCanonical_trivial
  | require c p ih => exact ih.require p
  | or c d ihc ihd => exact ihc.or ihd

theorem holds_guard (c : Condition) (test : Int → Bool) : c.guard.holds test = c.holds test := by
  induction c with
  | always => rfl
  | require c p ih => rw [guard, holds, ← ih, Bool.eq_iff_iff, Guard.holds_require, Bool.and_eq_true]
  | or c d ihc ihd =>
    rw [guard, holds, ← ihc, ← ihd, Bool.eq_iff_iff, Bool.or_eq_true]
    exact Guard.holds_or c.isCanonical_guard.isAscending d.isCanonical_guard.isAscending

theorem mem_predicates_of_guard (c : Condition) : ∀ p ∈ c.guard.predicates, p ∈ c.predicates := by
  induction c with
  | always =>
    intro p hp
    cases hp
  | require c p ih =>
    intro q hq
    rcases Guard.mem_predicates_require hq with rfl | hq
    · exact List.mem_cons_self
    · exact List.mem_cons_of_mem _ (ih q hq)
  | or c d ihc ihd =>
    intro q hq
    exact List.mem_append.2 ((Guard.mem_predicates_or hq).imp (ihc q) (ihd q))

end Condition

/-- A guard says the same as a condition: it holds when the condition does, is trivial if the
    condition holds where every predicate fails, and has no other predicates. Where it does not hold,
    one of its own predicates fails. -/
structure Guard.States (g : Guard) (c : Condition) : Prop where
  holds : ∀ test, g.holds test = c.holds test
  isTrivial : g.isTrivial = c.holds fun _ => false
  predicates : ∀ p ∈ g.predicates, p ∈ c.predicates
  fails : ∀ test, g.holds test = false → ∃ p ∈ g.predicates, test p = false

/-- The guard of a condition says the same as it. Disjunctions of such guards may be taken in any
    order, and no term of one contains another one. -/
theorem Condition.guard_states (c d e : Condition) : c.guard.States c ∧
    c.guard.or d.guard = d.guard.or c.guard ∧
    (c.guard.or d.guard).or e.guard = c.guard.or (d.guard.or e.guard) ∧
    ∀ s ∈ (c.guard.or d.guard).terms, ∀ t ∈ (c.guard.or d.guard).terms, s ⊆ t → s = t := by
  have hc := c.isCanonical_guard
  have hd := d.isCanonical_guard
  refine ⟨⟨c.holds_guard, ?_, c.mem_predicates_of_guard, fun test => ?_⟩, hc.or_comm hd,
    hc.or_assoc hd e.isCanonical_guard, fun s hs t ht => ?_⟩
  · rw [Guard.isTrivial_eq_holds, holds_guard]
  · exact Guard.exists_mem_predicates_of_holds_eq_false hc.terms_ne_nil
  · exact ((Guard.mem_terms_or_iff hc).1 ht).2 s ((Guard.mem_terms_or_iff hc).1 hs).1

/-- A requirement can make a term that contains another one. -/
example : (((Condition.always.require 1).or (Condition.always.require 2)).require 1).guard.terms =
    [[1], [1, 2]] := by
  decide

end AdaptiveLL
