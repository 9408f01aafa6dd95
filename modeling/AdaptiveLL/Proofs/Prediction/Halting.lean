import AdaptiveLL.Proofs.Effect
import AdaptiveLL.Proofs.Fuel
import AdaptiveLL.Proofs.Network.Recursion
import AdaptiveLL.Proofs.Prediction.Conditions
import AdaptiveLL.Proofs.Prediction.Expansion
import Mathlib.Data.Set.Card

/-!
# Closures are finite

Without left recursion, some fuel is enough for every closure
(`closure_halts`), and so for the frontier that a decision starts with and for
the one that a token leads to (`startFrontier_halts`, `nextFrontier_halts`). No
configuration is looked at twice, and finitely many can be come to: they stand
at finitely many points, and the guards that are collected on the way have no
more terms than the first one, which are made of finitely many predicates.

In a network that is closed nothing else can go wrong, as all of them stand at
states that exist (`startFrontier_needsFuelOnly`, `nextFrontier_needsFuelOnly`).
So there both come to one frontier (`exists_startFrontier`, `exists_nextFrontier`).
-/

namespace AdaptiveLL

variable (net : Network) (exit : LoopExit) (collect : Bool)

/-! ## More fuel changes nothing -/

theorem closureFrom_isFueled (work : List Config) (search : Search) :
    IsFueled fun n => closureFrom net exit collect n work search := by
  intro n
  induction n generalizing work search with
  | zero =>
    intro m _
    dsimp only
    cases work with
    | nil => exact .inr (by rw [closureFrom, closureFrom])
    | cons c work => exact .inl rfl
  | succ n ih =>
    intro m hnm
    dsimp only
    cases work with
    | nil => exact .inr (by rw [closureFrom, closureFrom])
    | cons c work =>
      obtain ⟨m, rfl⟩ := Nat.exists_eq_add_of_le' (Nat.le_of_add_left_le hnm)
      have hle : n ≤ m := Nat.le_of_succ_le_succ hnm
      rw [closureFrom, closureFrom]
      split
      · exact ih work search m hle
      · cases expand net exit collect c with
        | error fault => exact .inr rfl
        | ok e => exact ih _ _ m hle

theorem closure_isFueled (c : Config) (search : Search) :
    IsFueled fun n => closure net exit collect n c search :=
  closureFrom_isFueled net exit collect [c] search

theorem startFrom_isFueled (outer : List StateId) (alt : Int) (transitions : List Transition)
    (search : Search) : IsFueled fun n => startFrom net exit n outer alt transitions search := by
  induction transitions generalizing alt search with
  | nil => exact isFueled_const (.ok search)
  | cons t rest ih => exact (closure_isFueled net exit true _ search).bind fun s => ih (alt + 1) s

theorem startFrontier_isFueled (decision : State) (outer : List StateId) :
    IsFueled fun n => startFrontier net exit n decision outer :=
  (startFrom_isFueled net exit outer 1 _ _).bind fun _ => isFueled_const _

theorem followAll_isFueled (c : Config) (transitions : List Transition) (search : Search) :
    IsFueled fun n => followAll net exit n c transitions search := by
  induction transitions generalizing search with
  | nil => exact isFueled_const (.ok search)
  | cons t rest ih => exact (closure_isFueled net exit false _ search).bind ih

theorem advance_isFueled (type : Int) (c : Config) (search : Search) :
    IsFueled fun n => advance net exit n type c search := by
  refine (isFueled_const (net.state c.state)).bind fun s => ?_
  split
  · exact isFueled_const _
  · exact followAll_isFueled net exit c _ search

theorem advanceAll_isFueled (type : Int) (configs : List Config) (search : Search) :
    IsFueled fun n => advanceAll net exit n type configs search := by
  induction configs generalizing search with
  | nil => exact isFueled_const (.ok search)
  | cons c rest ih => exact (advance_isFueled net exit type c search).bind ih

theorem nextFrontier_isFueled (f : Frontier) (type : Int) :
    IsFueled fun n => nextFrontier net exit n f type :=
  (advanceAll_isFueled net exit type _ _).bind fun _ => isFueled_const _

/-! ## Enough fuel -/

variable {net exit collect}

/-- The marks of the configurations in question that a search has not looked at. -/
def Search.unseen (P : Config → Prop) (search : Search) : Set (List (List Int)) :=
  {m | ∃ c, P c ∧ c.mark = m ∧ search.hasSeen c = false}

theorem Search.finite_unseen {P : Config → Prop} (hfin : {m | ∃ c, P c ∧ c.mark = m}.Finite)
    (search : Search) : (search.unseen P).Finite := by
  refine hfin.subset ?_
  rintro m ⟨c, hc, hm, _⟩
  exact ⟨c, hc, hm⟩

/-- A configuration that is looked at is no longer unseen. -/
theorem Search.ncard_unseen_visit {P : Config → Prop} {search : Search} {c : Config}
    (hfin : (search.unseen P).Finite) (hc : P c) (hseen : search.hasSeen c = false) (kept : Bool) :
    ((search.visit c kept).unseen P).ncard < (search.unseen P).ncard := by
  have hmark : c.mark ∈ search.unseen P := ⟨c, hc, rfl, hseen⟩
  refine Set.ncard_lt_ncard ((Set.ssubset_iff_of_subset ?_).2 ⟨c.mark, hmark, ?_⟩) hfin
  · rintro m ⟨d, hd, hm, hds⟩
    rw [hasSeen_visit, Bool.or_eq_false_iff] at hds
    exact ⟨d, hd, hm, hds.2⟩
  · rintro ⟨d, _, hm, hds⟩
    rw [hasSeen_visit, Bool.or_eq_false_iff, Config.mark_eq_iff.1 hm.symm] at hds
    cases hds.1

/-- A closure within finitely many marks ends: each step looks at a new one or
    takes a configuration away that waits. -/
theorem closureFrom_halts {P : Config → Prop} (hfin : {m | ∃ c, P c ∧ c.mark = m}.Finite)
    (hstep : ∀ c d, P c → Follows net exit collect c d → P d) (search : Search) (work : List Config)
    (hwork : ∀ c ∈ work, P c) : Halts fun n => closureFrom net exit collect n work search := by
  -- Within the induction on what is unseen, one on the work that is left.
  induction hk : (search.unseen P).ncard using Nat.strong_induction_on generalizing search work with
  | _ k ih =>
  subst hk
  induction work with
  | nil =>
    refine ⟨0, ?_⟩
    rintro ⟨⟩
  | cons c work ihwork =>
    have hc : P c := hwork c List.mem_cons_self
    have hrest : ∀ d ∈ work, P d := fun d hd => hwork d (List.mem_cons_of_mem _ hd)
    cases hseen : search.hasSeen c with
    | true =>
      obtain ⟨n, hn⟩ := ihwork hrest
      refine ⟨n + 1, ?_⟩
      dsimp only
      rw [closureFrom, if_pos hseen]
      exact hn
    | false =>
      cases he : expand net exit collect c with
      | error fault =>
        have hstate := expand_eq_error.1 he
        refine ⟨1, fun h => net.state_ne_outOfFuel c.state ?_⟩
        dsimp only at h
        rw [closureFrom, hseen, if_neg Bool.false_ne_true, he] at h
        rw [hstate, Except.error.inj h]
      | ok e =>
        have hlt := Search.ncard_unseen_visit (search.finite_unseen hfin) hc hseen e.kept
        have hnext : ∀ d ∈ e.next.reverse ++ work, P d := by
          intro d hd
          rcases List.mem_append.1 hd with hd | hd
          · exact hstep c d hc ⟨e, he, List.mem_reverse.1 hd⟩
          · exact hrest d hd
        obtain ⟨n, hn⟩ := ih _ hlt _ _ hnext rfl
        refine ⟨n + 1, ?_⟩
        dsimp only
        rw [closureFrom, hseen, if_neg Bool.false_ne_true, he]
        exact hn

/-- The predicates on the transitions of a network. -/
def Network.predicates (net : Network) : Set Int :=
  {p | ∃ id t, net.HasTransition id t ∧ t.label = .predicate p}

theorem Network.finite_predicates (net : Network) : net.predicates.Finite := by
  have hlabel (l : Label) : {p | l = .predicate p}.Finite := by
    refine Set.Subsingleton.finite ?_
    rintro p rfl q hq
    exact Label.predicate.inj hq
  refine ((finite_states net).biUnion fun a _ =>
    (finite_transitions net a).biUnion fun t _ => hlabel t.label).subset ?_
  rintro p ⟨a, t, ht, hl⟩
  obtain ⟨s, hs, _⟩ := id ht
  exact Set.mem_biUnion (⟨s, hs⟩ : ∃ s, net.state a = .ok s) (Set.mem_biUnion ht hl)

/-- A guard has not more than a number of terms, which are ascending lists of some
    predicates. -/
structure Guard.IsWithin (A : Set Int) (n : Nat) (g : Guard) : Prop where
  length : g.terms.length ≤ n
  ascending : ∀ term ∈ g.terms, term.Pairwise (· < ·)
  mem : ∀ term ∈ g.terms, ∀ p ∈ term, p ∈ A

theorem Guard.IsWithin.require {A : Set Int} {n : Nat} {g : Guard} (h : g.IsWithin A n) {p : Int}
    (hp : p ∈ A) : (g.require p).IsWithin A n where
  length := by
    refine (Ascending.length_ofList_le _).trans ?_
    rw [List.length_map]
    exact h.length
  ascending term hterm := by
    obtain ⟨term, ht, rfl⟩ := List.mem_map.1 (Ascending.mem_ofList.1 hterm)
    exact Ascending.pairwise_insert (h.ascending term ht) p
  mem term hterm q hq := by
    obtain ⟨term, ht, rfl⟩ := List.mem_map.1 (Ascending.mem_ofList.1 hterm)
    rcases Ascending.mem_insert.1 hq with rfl | hq
    · exact hp
    · exact h.mem term ht q hq

theorem Guard.finite_isWithin {A : Set Int} (h : A.Finite) (n : Nat) :
    {g : Guard | g.IsWithin A n}.Finite := by
  refine ((Ascending.finite_lists_of_length (Ascending.finite_lists h) n).image Guard.mk).subset ?_
  rintro ⟨terms⟩ ⟨hlength, hascending, hmem⟩
  exact ⟨terms, ⟨hlength, fun term ht => ⟨hascending term ht, hmem term ht⟩⟩, rfl⟩

/-- Without left recursion, some fuel is enough for a closure that collects no
    predicates, or puts them into ascending terms. -/
theorem closure_halts (h : ¬net.IsLeftRecursive) (c : Config)
    (hg : collect = false ∨ c.guard.IsAscending) (search : Search) :
    Halts fun n => closure net exit collect n c search := by
  -- The predicates that are collected stand in the network, and the number of terms stays.
  let A : Set Int := net.predicates ∪ {p | p ∈ c.guard.terms.flatten}
  have hA : A.Finite := net.finite_predicates.union (List.finite_toSet _)
  let G : Set Guard := insert c.guard {g | g.IsWithin A c.guard.terms.length}
  have hG : G.Finite := (Guard.finite_isWithin hA _).insert _
  have hwithin (hascending : c.guard.IsAscending) : ∀ g ∈ G, g.IsWithin A c.guard.terms.length := by
    rintro g (rfl | hg)
    · exact ⟨le_rfl, hascending, fun term ht p hp => .inr (List.mem_flatten.2 ⟨term, ht, hp⟩)⟩
    · exact hg
  let P (d : Config) : Prop := net.Reaches c.point d.point ∧ d.alt = c.alt ∧ d.guard ∈ G
  refine closureFrom_halts (P := P) ?_ ?_ search [c] ?_
  · -- A mark is made of a point that is reached and of a guard.
    let mark (q : Point × Guard) : List (List Int) :=
      Config.Key.toList ⟨q.1.state, c.alt, q.1.context⟩ :: q.2.terms
    refine (((Network.finite_reaches h c.point).prod hG).image mark).subset ?_
    rintro m ⟨d, ⟨hd, halt, hguard⟩, rfl⟩
    refine ⟨(d.point, d.guard), ⟨hd, hguard⟩, ?_⟩
    dsimp only [mark]
    rw [← halt]
    rfl
  · rintro d d' ⟨hd, halt, hguard⟩ hf
    refine ⟨hd.tail hf.freeStep, hf.alt.trans halt, ?_⟩
    obtain hkeep | ⟨t, p, hcollect, ht, hl, hreq⟩ := hf.guard
    · rwa [hkeep]
    · have hascending := hg.resolve_left (by simp [hcollect])
      rw [hreq]
      exact .inr ((hwithin hascending _ hguard).require (.inl ⟨_, t, ht, hl⟩))
  · intro d hd
    obtain rfl := List.mem_singleton.1 hd
    exact ⟨.refl, rfl, .inl rfl⟩

theorem startFrom_halts (h : ¬net.IsLeftRecursive) (outer : List StateId) (alt : Int)
    (transitions : List Transition) (search : Search) :
    Halts fun n => startFrom net exit n outer alt transitions search := by
  induction transitions generalizing alt search with
  | nil => exact halts_ok search
  | cons t rest ih =>
    exact Halts.bind (closure_isFueled net exit true _ search)
      (fun s => startFrom_isFueled net exit outer (alt + 1) rest s)
      (closure_halts h _ (.inr Guard.isAscending_trivial) search)
      fun _ s _ => ih (alt + 1) s

/-- Some fuel is enough for the frontier that a decision starts with. -/
theorem startFrontier_halts (h : ¬net.IsLeftRecursive) (decision : State) (outer : List StateId) :
    Halts fun n => startFrontier net exit n decision outer :=
  Halts.bind (startFrom_isFueled net exit outer 1 _ _) (fun _ => isFueled_const _)
    (startFrom_halts h outer 1 _ _) fun _ _ _ => halts_ok _

theorem followAll_halts (h : ¬net.IsLeftRecursive) (c : Config) (transitions : List Transition)
    (search : Search) : Halts fun n => followAll net exit n c transitions search := by
  induction transitions generalizing search with
  | nil => exact halts_ok search
  | cons t rest ih =>
    exact Halts.bind (closure_isFueled net exit false _ search)
      (fun s => followAll_isFueled net exit c rest s) (closure_halts h _ (.inl rfl) search)
      fun _ s _ => ih s

theorem advance_halts (h : ¬net.IsLeftRecursive) (type : Int) (c : Config) (search : Search) :
    Halts fun n => advance net exit n type c search := by
  refine Halts.bind (isFueled_const (net.state c.state)) (fun s => ?_)
    (halts_const (net.state_ne_outOfFuel c.state)) fun _ s _ => ?_
  · split
    · exact isFueled_const _
    · exact followAll_isFueled net exit c _ search
  · split
    · exact halts_const (by split <;> exact nofun)
    · exact followAll_halts h c _ search

theorem advanceAll_halts (h : ¬net.IsLeftRecursive) (type : Int) (configs : List Config)
    (search : Search) : Halts fun n => advanceAll net exit n type configs search := by
  induction configs generalizing search with
  | nil => exact halts_ok search
  | cons c rest ih =>
    exact Halts.bind (advance_isFueled net exit type c search)
      (fun s => advanceAll_isFueled net exit type rest s) (advance_halts h type c search)
      fun _ s _ => ih s

/-- Some fuel is enough for the frontier that a token leads to. -/
theorem nextFrontier_halts (h : ¬net.IsLeftRecursive) (f : Frontier) (type : Int) :
    Halts fun n => nextFrontier net exit n f type :=
  Halts.bind (advanceAll_isFueled net exit type _ _) (fun _ => isFueled_const _)
    (advanceAll_halts h type _ _) fun _ _ _ => halts_ok _

/-! ## States that exist -/

theorem closureFrom_needsFuelOnly (hnet : net.IsClosed) (fuel : Nat) {work : List Config}
    (search : Search) (hwork : ∀ c ∈ work, net.IsIn c.point) :
    NeedsFuelOnly (closureFrom net exit collect fuel work search) := by
  fun_induction closureFrom net exit collect fuel work search with
  | case1 fuel search => exact needsFuelOnly_ok search
  | case2 =>
    intro fault h
    cases h
    rfl
  | case3 fuel c work search _ ih => exact ih (List.forall_mem_cons.1 hwork).2
  | case4 fuel c work search _ fault he =>
    -- The state of a configuration in a closed network is not missing.
    obtain ⟨s, hs⟩ : net.HasState c.state := (List.forall_mem_cons.1 hwork).1.1
    rw [expand_eq_error.1 he] at hs
    cases hs
  | case5 fuel c work search _ e he ih =>
    obtain ⟨hc, hrest⟩ := List.forall_mem_cons.1 hwork
    refine ih fun d hd => ?_
    rcases List.mem_append.1 hd with hd | hd
    · have hf : Follows net exit collect c d := ⟨e, he, List.mem_reverse.1 hd⟩
      exact hf.freeStep.isIn hnet hc
    · exact hrest d hd

theorem startFrom_needsFuelOnly (hnet : net.IsClosed) (fuel : Nat) {outer : List StateId}
    (alt : Int) {transitions : List Transition} (search : Search)
    (h : ∀ t ∈ transitions, net.IsIn ⟨t.target, outer⟩) :
    NeedsFuelOnly (startFrom net exit fuel outer alt transitions search) := by
  induction transitions generalizing alt search with
  | nil => exact needsFuelOnly_ok search
  | cons t rest ih =>
    obtain ⟨ht, hrest⟩ := List.forall_mem_cons.1 h
    refine (closureFrom_needsFuelOnly hnet fuel search fun c hc => ?_).bind
      fun s _ => ih (alt + 1) s hrest
    obtain rfl := List.mem_singleton.1 hc
    exact ht

/-- The frontier that a decision starts with exists, with enough fuel. -/
theorem startFrontier_needsFuelOnly (hnet : net.IsClosed) (fuel : Nat) {decision : State}
    {outer : List StateId} (h : ∀ t ∈ decision.transitions, net.IsIn ⟨t.target, outer⟩) :
    NeedsFuelOnly (startFrontier net exit fuel decision outer) :=
  (startFrom_needsFuelOnly hnet fuel 1 {} h).bind fun _ _ => needsFuelOnly_ok _

theorem followAll_needsFuelOnly (hnet : net.IsClosed) (fuel : Nat) {c : Config}
    {transitions : List Transition} (search : Search)
    (h : ∀ t ∈ transitions, net.IsIn ⟨t.target, c.context⟩) :
    NeedsFuelOnly (followAll net exit fuel c transitions search) := by
  induction transitions generalizing search with
  | nil => exact needsFuelOnly_ok search
  | cons t rest ih =>
    obtain ⟨ht, hrest⟩ := List.forall_mem_cons.1 h
    refine (closureFrom_needsFuelOnly hnet fuel search fun d hd => ?_).bind fun s _ => ih s hrest
    obtain rfl := List.mem_singleton.1 hd
    exact ht

theorem advance_needsFuelOnly (hnet : net.IsClosed) (fuel : Nat) (type : Int) {c : Config}
    (hc : net.IsIn c.point) (search : Search) :
    NeedsFuelOnly (advance net exit fuel type c search) := by
  obtain ⟨s, hs⟩ := hc.1
  rw [advance, show net.state c.state = .ok s from hs, Except.ok_bind_eq]
  split
  · split <;> exact needsFuelOnly_ok _
  · refine followAll_needsFuelOnly hnet fuel search fun t ht => ⟨?_, hc.2⟩
    exact (hnet c.state s hs t (List.mem_filter.1 ht).1).1

theorem advanceAll_needsFuelOnly (hnet : net.IsClosed) (fuel : Nat) (type : Int)
    {configs : List Config} (h : ∀ c ∈ configs, net.IsIn c.point) (search : Search) :
    NeedsFuelOnly (advanceAll net exit fuel type configs search) := by
  induction configs generalizing search with
  | nil => exact needsFuelOnly_ok search
  | cons c rest ih =>
    obtain ⟨hc, hrest⟩ := List.forall_mem_cons.1 h
    exact (advance_needsFuelOnly hnet fuel type hc search).bind fun s _ => ih hrest s

/-- The frontier that a token leads to exists, with enough fuel. -/
theorem nextFrontier_needsFuelOnly (hnet : net.IsClosed) (fuel : Nat) (type : Int) {f : Frontier}
    (h : ∀ c ∈ f.items, net.IsIn c.point) :
    NeedsFuelOnly (nextFrontier net exit fuel f type) :=
  (advanceAll_needsFuelOnly hnet fuel type h {}).bind fun _ _ => needsFuelOnly_ok _

/-- Without left recursion, a decision starts with one frontier. -/
theorem exists_startFrontier (hnet : net.IsClosed) (hleft : ¬net.IsLeftRecursive)
    {decision : State} {outer : List StateId}
    (h : ∀ t ∈ decision.transitions, net.IsIn ⟨t.target, outer⟩) :
    ∃ steps f, ∀ fuel ≥ steps, startFrontier net exit fuel decision outer = .ok f :=
  (startFrontier_isFueled net exit decision outer).exists_eq_ok
    (startFrontier_halts hleft decision outer) fun n => startFrontier_needsFuelOnly hnet n h

/-- Without left recursion, a token leads a frontier to one other. -/
theorem exists_nextFrontier (hnet : net.IsClosed) (hleft : ¬net.IsLeftRecursive) (type : Int)
    {f : Frontier} (h : ∀ c ∈ f.items, net.IsIn c.point) :
    ∃ steps g, ∀ fuel ≥ steps, nextFrontier net exit fuel f type = .ok g :=
  (nextFrontier_isFueled net exit f type).exists_eq_ok (nextFrontier_halts hleft f type)
    fun n => nextFrontier_needsFuelOnly hnet n type h

end AdaptiveLL
