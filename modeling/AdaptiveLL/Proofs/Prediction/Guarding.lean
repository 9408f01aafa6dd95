import AdaptiveLL.Proofs.Prediction.Exploration
import AdaptiveLL.Proofs.Prediction.Halting

/-!
# The guards of a frontier

Dropping the terms that others absorb does not change when a disjunction of ascending
terms holds (`Guard.holds_or`). So a frontier has under each key a guard that holds if
the guard of some configuration does that was added under this key
(`Search.permits_frontier_iff`), and it has each key once
(`Search.nodup_frontier`).

All guards of a prediction are *over* the network (`Guard.IsOver`): their terms are
ascending lists of predicates that stand on transitions.
-/

namespace AdaptiveLL

variable {net : Network} {exit : LoopExit} {collect : Bool} {may : Int → Bool}

namespace Guard

/-- The terms of a guard are ascending lists of predicates of a network. -/
def IsOver (net : Network) (g : Guard) : Prop :=
  ∀ term ∈ g.terms, term.Pairwise (· < ·) ∧ ∀ p ∈ term, p ∈ net.predicates

theorem IsOver.isAscending {g : Guard} (h : g.IsOver net) : g.IsAscending := fun term ht =>
  (h term ht).1

theorem isOver_trivial (net : Network) : ({} : Guard).IsOver net := by
  intro term hterm
  rw [List.mem_singleton.1 hterm]
  exact ⟨.nil, nofun⟩

theorem IsOver.require {g : Guard} (h : g.IsOver net) {p : Int} (hp : p ∈ net.predicates) :
    (g.require p).IsOver net := by
  intro term hterm
  refine ⟨h.isAscending.require p term hterm, fun q hq => ?_⟩
  obtain ⟨term, ht, rfl⟩ := mem_terms_require.1 hterm
  rcases Ascending.mem_insert.1 hq with rfl | hq
  · exact hp
  · exact (h term ht).2 q hq

theorem mem_predicates_of_isOver {g : Guard} (h : g.IsOver net) :
    ∀ p ∈ g.predicates, p ∈ net.predicates := by
  intro p hp
  obtain ⟨term, ht, hpt⟩ := mem_predicates.1 hp
  exact (h term ht).2 p hpt

theorem IsOver.or {g h : Guard} (hg : g.IsOver net) (hh : h.IsOver net) :
    (g.or h).IsOver net := by
  intro term hterm
  obtain rfl | ht | ht := mem_terms_or hterm
  · exact ⟨.nil, nofun⟩
  · exact hg term ht
  · exact hh term ht

end Guard

/-! ## Along a closure -/

theorem Follows.isOver {c d : Config} (h : Follows net exit collect c d)
    (hc : c.guard.IsOver net) : d.guard.IsOver net := by
  obtain hg | ⟨t, p, _, ht, hl, hg⟩ := h.guard
  · rwa [hg]
  · rw [hg]
    exact hc.require ⟨_, t, ht, hl⟩

/-- What a closure comes to is guarded by predicates of the network if its roots are. -/
theorem Search.Extends.isOver {roots ends new : List Config} {search : Search}
    (h : Search.Extends net exit collect roots ends new {} search)
    (hroots : ∀ r ∈ roots, r.guard.IsOver net) (hends : ∀ d ∈ ends, d.guard.IsOver net) :
    ∀ c ∈ search.kept, c.guard.IsOver net :=
  h.forall_kept (fun _ _ hf hc => hf.isOver hc) hroots hends

/-! ## Frontiers -/

namespace Frontier

/-- A frontier has a key under a guard that holds. -/
def Permits (f : Frontier) (may : Int → Bool) (k : Config.Key) : Prop :=
  ∃ c ∈ f.items, c.toKey = k ∧ c.guard.holds may = true

variable {f : Frontier} {l : List Config} {c : Config}

section

variable {P : Guard → Prop} (hor : ∀ g h, P g → P h → P (g.or h))

include hor

/-- What holds of two guards and of their disjunction is kept where a configuration is added. -/
theorem forall_guard_add (hf : ∀ d ∈ f.items, P d.guard) (hc : P c.guard) :
    ∀ d ∈ (f.add c).items, P d.guard := by
  intro d hd
  rw [add] at hd
  split at hd
  · obtain ⟨e, he, rfl⟩ := List.mem_map.1 hd
    rw [joinGuard]
    split
    · exact hor _ _ (hf e he) hc
    · exact hf e he
  · rcases List.mem_append.1 hd with hd | hd
    · exact hf d hd
    · rwa [List.mem_singleton.1 hd]

theorem forall_guard_foldl_add (hf : ∀ d ∈ f.items, P d.guard) (hl : ∀ c ∈ l, P c.guard) :
    ∀ d ∈ (l.foldl add f).items, P d.guard := by
  induction l generalizing f with
  | nil => exact hf
  | cons c l ih =>
    obtain ⟨hc, hl⟩ := List.forall_mem_cons.1 hl
    exact ih (forall_guard_add hor hf hc) hl

end

theorem toKey_joinGuard (c d : Config) : (joinGuard c d).toKey = d.toKey := by
  rw [joinGuard]
  split <;> rfl

theorem nodup_add (h : (f.items.map Config.toKey).Nodup) :
    ((f.add c).items.map Config.toKey).Nodup := by
  rw [add]
  split
  · have hkeys : Config.toKey ∘ joinGuard c = Config.toKey := funext (toKey_joinGuard c)
    rwa [List.map_map, hkeys]
  · next hkey =>
    rw [List.map_append, List.nodup_append']
    refine ⟨h, List.nodup_singleton _, fun k hk hk' => hkey ?_⟩
    obtain ⟨d, hd, rfl⟩ := List.mem_map.1 hk
    exact hasKey_iff.2 ⟨d, hd, List.mem_singleton.1 hk'⟩

theorem nodup_foldl_add (h : (f.items.map Config.toKey).Nodup) :
    ((l.foldl add f).items.map Config.toKey).Nodup := by
  induction l generalizing f with
  | nil => exact h
  | cons c l ih => exact ih (nodup_add h)

/-- Adding a configuration permits its key where its guard holds. -/
theorem permits_add_iff (hf : ∀ d ∈ f.items, d.guard.IsAscending) (hc : c.guard.IsAscending)
    {k : Config.Key} : (f.add c).Permits may k ↔
      f.Permits may k ∨ (c.toKey = k ∧ c.guard.holds may = true) := by
  by_cases hkey : f.hasKey c = true
  · -- The guards of the key are joined, all others stay.
    rw [Permits, add, if_pos hkey]
    constructor
    · rintro ⟨_, hd, rfl, hholds⟩
      obtain ⟨d, hmem, rfl⟩ := List.mem_map.1 hd
      rw [toKey_joinGuard]
      rw [joinGuard] at hholds
      split at hholds
      · next he =>
        rcases (Guard.holds_or (hf d hmem) hc).1 hholds with hholds | hholds
        · exact .inl ⟨d, hmem, rfl, hholds⟩
        · exact .inr ⟨(beq_iff_eq.1 he).symm, hholds⟩
      · exact .inl ⟨d, hmem, rfl, hholds⟩
    · have joined {d : Config} (hd : d ∈ f.items)
          (h : d.guard.holds may = true ∨ d.toKey = c.toKey ∧ c.guard.holds may = true) :
          ∃ e ∈ f.items.map (joinGuard c), e.toKey = d.toKey ∧ e.guard.holds may = true := by
        refine ⟨_, List.mem_map_of_mem hd, toKey_joinGuard c d, ?_⟩
        rw [joinGuard]
        split
        · exact (Guard.holds_or (hf d hd) hc).2 (h.imp_right And.right)
        · next hne => exact h.resolve_right fun he => hne (beq_iff_eq.2 he.1)
      rintro (⟨d, hd, rfl, hholds⟩ | ⟨rfl, hholds⟩)
      · exact joined hd (.inl hholds)
      · obtain ⟨d, hd, hk⟩ := hasKey_iff.1 hkey
        rw [← hk]
        exact joined hd (.inr ⟨hk, hholds⟩)
  · simp only [Permits, add, if_neg hkey, List.mem_append, List.mem_singleton, or_and_right,
      exists_or, exists_eq_left]

theorem permits_foldl_add_iff (hf : ∀ d ∈ f.items, d.guard.IsAscending)
    (hl : ∀ c ∈ l, c.guard.IsAscending) {k : Config.Key} : (l.foldl add f).Permits may k ↔
      f.Permits may k ∨ ∃ c ∈ l, c.toKey = k ∧ c.guard.holds may = true := by
  induction l generalizing f with
  | nil => simp
  | cons c l ih =>
    obtain ⟨hc, hl⟩ := List.forall_mem_cons.1 hl
    rw [List.foldl_cons, ih (forall_guard_add (fun _ _ => .or) hf hc) hl, permits_add_iff hf hc,
      or_assoc,
      List.exists_mem_cons_iff]

/-- Where each key is there once, a configuration is guarded as its key is. -/
theorem holds_iff_permits (h : (f.items.map Config.toKey).Nodup) (hc : c ∈ f.items) :
    c.guard.holds may = true ↔ f.Permits may c.toKey := by
  constructor
  · exact fun hholds => ⟨c, hc, rfl, hholds⟩
  · rintro ⟨d, hd, hk, hholds⟩
    rwa [← List.inj_on_of_nodup_map h hd hc hk]

end Frontier

namespace Search

variable {search : Search}

theorem items_frontier_perm (search : Search) :
    search.frontier.items.Perm (search.kept.reverse.foldl Frontier.add {}).items := by
  rw [frontier, Frontier.ofList_eq_foldl]
  exact Frontier.sortByAlt_perm _

/-- What holds of two guards and of their disjunction holds of the guards of a frontier, if it does
    of those that are kept. -/
theorem forall_guard_frontier {P : Guard → Prop} (hor : ∀ g h, P g → P h → P (g.or h))
    (h : ∀ c ∈ search.kept, P c.guard) : ∀ c ∈ search.frontier.items, P c.guard := fun c hc =>
  Frontier.forall_guard_foldl_add (f := {}) hor (List.forall_mem_nil _)
    (fun d hd => h d (List.mem_reverse.1 hd)) c ((items_frontier_perm search).mem_iff.1 hc)

/-- The frontier of a search has each key once. -/
theorem nodup_frontier (search : Search) : (search.frontier.items.map Config.toKey).Nodup :=
  ((items_frontier_perm search).map _).nodup_iff.2 (Frontier.nodup_foldl_add .nil)

/-- The frontier of a search permits the keys that are kept under guards that hold. -/
theorem permits_frontier_iff (h : ∀ c ∈ search.kept, c.guard.IsAscending) {k : Config.Key} :
    search.frontier.Permits may k ↔
      ∃ c ∈ search.kept, c.toKey = k ∧ c.guard.holds may = true := by
  have hempty : ¬({} : Frontier).Permits may k := by
    rintro ⟨_, hc, _⟩
    cases hc
  have hfold : (search.kept.reverse.foldl Frontier.add {}).Permits may k ↔ ({} : Frontier).Permits
      may k ∨ ∃ c ∈ search.kept.reverse, c.toKey = k ∧ c.guard.holds may = true :=
    Frontier.permits_foldl_add_iff (List.forall_mem_nil _) fun c hc => h c (List.mem_reverse.1 hc)
  rw [or_iff_right hempty] at hfold
  simp only [List.mem_reverse] at hfold
  rw [← hfold]
  exact exists_congr fun c => and_congr_left' (items_frontier_perm search).mem_iff

end Search

section

variable {Q : Guard → Prop} (hor : ∀ g h, Q g → Q h → Q (g.or h))

include hor

/-- What is handed on by closures and says something of the guards holds of those that a decision
    starts with, as far as it holds of disjunctions. -/
theorem forall_guard_startFrontier {P : Config → Prop} (hP : ∀ c, P c → Q c.guard) {fuel : Nat}
    {decision : State} {outer : List StateId} {f : Frontier}
    (hstep : ∀ c d, Follows net exit true c d → P c → P d)
    (hroots : ∀ (i : Nat) (t : Transition), decision.transitions[i]? = some t →
      P { state := t.target, alt := 1 + i, context := outer })
    (h : startFrontier net exit fuel decision outer = .ok f) : ∀ c ∈ f.items, Q c.guard := by
  obtain ⟨search, hs, h⟩ := Except.exists_of_bind h
  cases h
  obtain ⟨roots, new, hext, hmem⟩ := startFrom_extends hs
  refine Search.forall_guard_frontier hor fun c hc =>
    hP c (hext.forall_kept hstep (fun r hr => ?_) nofun c hc)
  obtain ⟨i, t, ht, rfl⟩ := (hmem r).1 hr
  exact hroots i t ht

/-- Behind a token no predicates are collected, so it holds there as well. -/
theorem forall_guard_nextFrontier {fuel : Nat} {type : Int} {f g : Frontier}
    (hf : ∀ c ∈ f.items, Q c.guard) (h : nextFrontier net exit fuel f type = .ok g) :
    ∀ c ∈ g.items, Q c.guard := by
  obtain ⟨search, hs, h⟩ := Except.exists_of_bind h
  cases h
  obtain ⟨roots, ends, new, hext, hroots, hends⟩ := advanceAll_extends hs
  have hstep (c d : Config) (hfollows : Follows net exit false c d) (hc : Q c.guard) :
      Q d.guard := by
    obtain hg | ⟨_, _, hcollect, _⟩ := hfollows.guard
    · rwa [hg]
    · cases hcollect
  refine Search.forall_guard_frontier hor (hext.forall_kept hstep (fun r hr => ?_)
    fun d hd => hf d ((hends d).1 hd).1)
  obtain ⟨c, hc, t, _, _, rfl⟩ := (hroots r).1 hr
  exact hf c hc

end

/-- A decision starts with guards over the network. -/
theorem isOver_startFrontier {fuel : Nat} {decision : State} {outer : List StateId} {f : Frontier}
    (h : startFrontier net exit fuel decision outer = .ok f) :
    ∀ c ∈ f.items, c.guard.IsOver net :=
  forall_guard_startFrontier (fun _ _ => .or) (fun _ hc => hc) (fun _ _ hf hc => hf.isOver hc)
    (fun _ _ _ => Guard.isOver_trivial net) h

/-- A token leads from guards over the network to such. -/
theorem isOver_nextFrontier {fuel : Nat} {type : Int} {f g : Frontier}
    (hf : ∀ c ∈ f.items, c.guard.IsOver net) (h : nextFrontier net exit fuel f type = .ok g) :
    ∀ c ∈ g.items, c.guard.IsOver net :=
  forall_guard_nextFrontier (fun _ _ => .or) hf h

end AdaptiveLL
