import AdaptiveLL.Proofs.Effect
import AdaptiveLL.Proofs.Network.Recursion
import AdaptiveLL.Proofs.Prediction.Expansion

/-!
# What a closure finds

A search that is extended by closures (`Search.Extends`) has looked at exactly
what follows from where it began: at the roots and, with a configuration, at
those that follow it. So where returns are followed, a decision comes to exactly the
points that the network reaches, and its frontiers hold those that are kept
(`Search.Extends.holds_iff_of_isKept`): if it is not the decision of a non-greedy
loop, those where a run may wait for a token (`Search.Extends.holds_iff`).
-/

namespace AdaptiveLL

open Relation

variable (net : Network) (exit : LoopExit) (collect : Bool)

/-- A search is extended by the closures of some roots, in which some configurations
    are looked at for the first time; other ones may be kept as they are. -/
structure Search.Extends (roots ends new : List Config) (search search' : Search) : Prop where
  seen : ∀ d, search'.hasSeen d = true ↔
    search.hasSeen d = true ∨ ∃ c ∈ new, c.same d = true
  kept : ∀ d, d ∈ search'.kept ↔
    d ∈ search.kept ∨ (d ∈ new ∧ IsKept net exit collect d) ∨ d ∈ ends
  closed : ∀ c ∈ new, ∀ d, Follows net exit collect c d → search'.hasSeen d = true
  origin : ∀ c ∈ new, ∃ r ∈ roots, ReflTransGen (Follows net exit collect) r c
  roots : ∀ r ∈ roots, search'.hasSeen r = true

variable {net exit collect}

theorem Search.hasSeen_empty (c : Config) : ({} : Search).hasSeen c = false := by
  rw [hasSeen]
  exact Std.TreeSet.contains_emptyc

/-- A configuration that is looked at is kept if nothing more happens where it stands. -/
theorem Search.mem_kept_visit {c d : Config} {e : Expansion} {search : Search}
    (he : expand net exit collect c = .ok e) : d ∈ (search.visit c e.kept).kept ↔
      d ∈ search.kept ∨ (d = c ∧ IsKept net exit collect d) := by
  have hkept : IsKept net exit collect c ↔ e.kept = true := by
    constructor
    · rintro ⟨e', he', hk⟩
      rw [he] at he'
      cases he'
      exact hk
    · exact fun hk => ⟨e, he, hk⟩
  rw [visit]
  by_cases hk : e.kept = true
  · rw [if_pos hk, List.mem_cons, or_comm]
    refine or_congr_right ⟨?_, And.left⟩
    rintro rfl
    exact ⟨rfl, hkept.2 hk⟩
  · rw [if_neg hk]
    refine ⟨.inl, fun h => h.resolve_right ?_⟩
    rintro ⟨rfl, hd⟩
    exact hk (hkept.1 hd)

namespace Search.Extends

variable {roots ends new roots' ends' new' : List Config} {search search' search'' : Search}

theorem refl (search : Search) : Extends net exit collect [] [] [] search search where
  seen := by simp
  kept := by simp
  closed := nofun
  origin := nofun
  roots := nofun

theorem trans (h : Extends net exit collect roots ends new search search')
    (h' : Extends net exit collect roots' ends' new' search' search'') :
    Extends net exit collect (roots ++ roots') (ends ++ ends') (new ++ new') search search'' where
  seen d := by
    rw [h'.seen, h.seen, or_assoc]
    refine or_congr_right ?_
    simp only [List.mem_append, or_and_right, exists_or]
  kept d := by
    rw [h'.kept, h.kept]
    simp only [List.mem_append, or_and_right]
    constructor
    · rintro ((hd | hd | hd) | hd | hd) <;> simp [hd]
    · rintro (hd | (hd | hd) | hd | hd) <;> simp [hd]
  closed c hc d hd := by
    rcases List.mem_append.1 hc with hc | hc
    · exact (h'.seen d).2 (.inl (h.closed c hc d hd))
    · exact h'.closed c hc d hd
  origin c hc := by
    rcases List.mem_append.1 hc with hc | hc
    · exact (h.origin c hc).imp fun r hr => ⟨List.mem_append_left _ hr.1, hr.2⟩
    · exact (h'.origin c hc).imp fun r hr => ⟨List.mem_append_right _ hr.1, hr.2⟩
  roots r hr := by
    rcases List.mem_append.1 hr with hr | hr
    · exact (h'.seen r).2 (.inl (h.roots r hr))
    · exact h'.roots r hr

/-- A root that has been looked at before adds nothing. -/
theorem cons_seen {c : Config} (hc : search.hasSeen c = true)
    (h : Extends net exit collect roots ends new search search') :
    Extends net exit collect (c :: roots) ends new search search' where
  seen := h.seen
  kept := h.kept
  closed := h.closed
  origin d hd := (h.origin d hd).imp fun _ hr => ⟨List.mem_cons_of_mem _ hr.1, hr.2⟩
  roots r hr := by
    rcases List.mem_cons.1 hr with rfl | hr
    · exact (h.seen r).2 (.inl hc)
    · exact h.roots r hr

/-- A root that is looked at now adds itself and what follows it. -/
theorem cons_visit {c : Config} {e : Expansion} (he : expand net exit collect c = .ok e)
    (h : Extends net exit collect (e.next.reverse ++ roots) ends new
      (search.visit c e.kept) search') :
    Extends net exit collect (c :: roots) ends (c :: new) search search' where
  seen d := by
    rw [h.seen, hasSeen_visit, Bool.or_eq_true, List.exists_mem_cons_iff]
    tauto
  kept d := by
    rw [h.kept, mem_kept_visit he, List.mem_cons, or_and_right]
    simp only [or_assoc]
  closed d hd d' hf := by
    rcases List.mem_cons.1 hd with rfl | hd
    · obtain ⟨e', he', hd'⟩ := hf
      rw [he] at he'
      cases he'
      exact h.roots d' (List.mem_append_left _ (List.mem_reverse.2 hd'))
    · exact h.closed d hd d' hf
  origin d hd := by
    rcases List.mem_cons.1 hd with rfl | hd
    · exact ⟨d, List.mem_cons_self, .refl⟩
    · obtain ⟨r, hr, hrun⟩ := h.origin d hd
      rcases List.mem_append.1 hr with hr | hr
      · exact ⟨c, List.mem_cons_self, .head ⟨e, he, List.mem_reverse.1 hr⟩ hrun⟩
      · exact ⟨r, List.mem_cons_of_mem _ hr, hrun⟩
  roots r hr := by
    rcases List.mem_cons.1 hr with rfl | hr
    · exact (h.seen r).2 (.inl (by rw [hasSeen_visit, Config.same_self, Bool.true_or]))
    · exact h.roots r (List.mem_append_right _ hr)

end Search.Extends

/-- A closure extends a search. -/
theorem closureFrom_extends {fuel : Nat} {work : List Config} {search search' : Search}
    (h : closureFrom net exit collect fuel work search = .ok search') :
    ∃ new, Search.Extends net exit collect work [] new search search' := by
  fun_induction closureFrom net exit collect fuel work search with
  | case1 fuel search =>
    cases h
    exact ⟨[], .refl _⟩
  | case2 => cases h
  | case3 fuel c work search hseen ih =>
    obtain ⟨new, hnew⟩ := ih h
    exact ⟨new, hnew.cons_seen hseen⟩
  | case4 => cases h
  | case5 fuel c work search _ e he ih =>
    obtain ⟨new, hnew⟩ := ih h
    exact ⟨c :: new, hnew.cons_visit he⟩

/-! ## Where frontiers begin -/

/-- A decision starts with the targets of its transitions. -/
theorem startFrom_extends {fuel : Nat} {outer : List StateId} {alt : Int}
    {transitions : List Transition} {search search' : Search}
    (h : startFrom net exit fuel outer alt transitions search = .ok search') :
    ∃ roots new, Search.Extends net exit true roots [] new search search' ∧
      ∀ r, r ∈ roots ↔ ∃ (i : Nat) (t : Transition), transitions[i]? = some t ∧
        r = { state := t.target, alt := alt + i, context := outer } := by
  induction transitions generalizing alt search with
  | nil =>
    cases h
    exact ⟨[], [], .refl _, by simp⟩
  | cons t rest ih =>
    obtain ⟨search₁, h₁, h₂⟩ := Except.exists_of_bind h
    obtain ⟨new₁, hnew₁⟩ := closureFrom_extends h₁
    obtain ⟨roots, new₂, hnew₂, hroots⟩ := ih h₂
    have hshift (i : Nat) : alt + 1 + (i : Int) = alt + (i + 1 : Nat) := by omega
    refine ⟨_, _, hnew₁.trans hnew₂, fun r => ?_⟩
    rw [List.singleton_append, List.mem_cons, hroots]
    constructor
    · rintro (rfl | ⟨i, t', ht', rfl⟩)
      · exact ⟨0, t, rfl, by simp⟩
      · exact ⟨i + 1, t', ht', by rw [hshift]⟩
    · rintro ⟨i, t', ht', rfl⟩
      cases i with
      | zero =>
        cases ht'
        exact .inl (by simp)
      | succ i => exact .inr ⟨i, t', ht', by rw [hshift]⟩

theorem followAll_extends {fuel : Nat} {c : Config} {transitions : List Transition}
    {search search' : Search} (h : followAll net exit fuel c transitions search = .ok search') :
    ∃ new, Search.Extends net exit false (transitions.map fun t => { c with state := t.target }) []
      new search search' := by
  induction transitions generalizing search with
  | nil =>
    cases h
    exact ⟨[], .refl _⟩
  | cons t rest ih =>
    obtain ⟨search₁, h₁, h₂⟩ := Except.exists_of_bind h
    obtain ⟨new₁, hnew₁⟩ := closureFrom_extends h₁
    obtain ⟨new₂, hnew₂⟩ := ih h₂
    exact ⟨_, hnew₁.trans hnew₂⟩

/-- Keeping a configuration as it is. -/
theorem Search.Extends.keep (c : Config) (search : Search) :
    Search.Extends net exit collect [] [c] [] search (search.keep c) where
  seen := by simp [Search.keep, Search.hasSeen]
  kept := by simp [Search.keep, or_comm]
  closed := nofun
  origin := nofun
  roots := nofun

variable (net exit)

/-- The end of a rule that consumes the end of the input. -/
def ConsumesEnd (type : Int) (c : Config) : Prop :=
  type = Token.endOfInput ∧ net.IsStop c.state ∧ c.context = [] ∧ exit.isAtEnd c = false

/-- A token leads a configuration behind a transition. -/
def Consumes (type : Int) (c d : Config) : Prop :=
  ∃ t, net.HasTransition c.state t ∧ t.label.accepts type = true ∧ d = { c with state := t.target }

variable {net exit}

/-- A token leads a configuration on, or leaves it where it is: a rule that has no
    caller consumes the end of the input at its own end. -/
theorem advance_extends {fuel : Nat} {type : Int} {c : Config} {search search' : Search}
    (h : advance net exit fuel type c search = .ok search') :
    ∃ roots ends new, Search.Extends net exit false roots ends new search search' ∧
      (∀ r, r ∈ roots ↔ Consumes net type c r) ∧
      ∀ d, d ∈ ends ↔ d = c ∧ ConsumesEnd net exit type d := by
  obtain ⟨s, hs, h⟩ := Except.exists_of_bind h
  split at h
  · next hk =>
    have hstop : net.IsStop c.state := ⟨s, hs, hk⟩
    have hroots (r : Config) : ¬Consumes net type c r :=
      fun ⟨_, ht, _⟩ => ht.not_isStop hstop
    split at h
    · next hend =>
      cases h
      refine ⟨[], [c], [], .keep c search, fun r => by simp [hroots], fun d => ?_⟩
      rw [List.mem_singleton]
      constructor
      · rintro rfl
        exact ⟨rfl, hend.1, hstop, hend.2⟩
      · exact And.left
    · next hend =>
      cases h
      refine ⟨[], [], [], .refl search, fun r => by simp [hroots], fun d => ?_⟩
      refine ⟨nofun, ?_⟩
      rintro ⟨rfl, he, _, hc⟩
      exact absurd ⟨he, hc⟩ hend
  · next hk =>
    obtain ⟨new, hnew⟩ := followAll_extends h
    refine ⟨_, [], new, hnew, fun r => ?_, fun d => ?_⟩
    · rw [List.mem_map]
      constructor
      · rintro ⟨t, ht, rfl⟩
        obtain ⟨ht, ha⟩ := List.mem_filter.1 ht
        exact ⟨t, ⟨s, hs, hk, ht⟩, ha, rfl⟩
      · rintro ⟨t, ht, ha, rfl⟩
        exact ⟨t, List.mem_filter.2 ⟨ht.mem hs, ha⟩, rfl⟩
    · refine ⟨nofun, ?_⟩
      rintro ⟨rfl, _, hstop, _⟩
      exact absurd hstop (Network.not_isStop hs hk)

/-- A token leads all configurations on that consume it. -/
theorem advanceAll_extends {fuel : Nat} {type : Int} {configs : List Config}
    {search search' : Search} (h : advanceAll net exit fuel type configs search = .ok search') :
    ∃ roots ends new, Search.Extends net exit false roots ends new search search' ∧
      (∀ r, r ∈ roots ↔ ∃ c ∈ configs, Consumes net type c r) ∧
      ∀ d, d ∈ ends ↔ d ∈ configs ∧ ConsumesEnd net exit type d := by
  induction configs generalizing search with
  | nil =>
    cases h
    exact ⟨[], [], [], .refl _, by simp, by simp⟩
  | cons c rest ih =>
    obtain ⟨search₁, h₁, h₂⟩ := Except.exists_of_bind h
    obtain ⟨roots₁, ends₁, new₁, hnew₁, hroots₁, hends₁⟩ := advance_extends h₁
    obtain ⟨roots₂, ends₂, new₂, hnew₂, hroots₂, hends₂⟩ := ih h₂
    refine ⟨_, _, _, hnew₁.trans hnew₂, fun r => ?_, fun d => ?_⟩
    · rw [List.mem_append, hroots₁, hroots₂, List.exists_mem_cons_iff]
    · rw [List.mem_append, hends₁, hends₂, List.mem_cons, or_and_right]

/-! ## The frontier of a search -/

namespace Frontier

/-- A frontier holds a configuration of some key. -/
def Holds (f : Frontier) (k : Config.Key) : Prop :=
  ∃ c ∈ f.items, c.toKey = k

variable {f : Frontier} {l : List Config} {c d : Config}

/-- Each configuration of a frontier is one that was added, with another guard. -/
theorem mem_add (h : d ∈ (f.add c).items) :
    ∃ d' ∈ c :: f.items, d = { d' with guard := d.guard } := by
  rw [add] at h
  split at h
  · obtain ⟨e, he, rfl⟩ := List.mem_map.1 h
    refine ⟨e, List.mem_cons_of_mem _ he, ?_⟩
    rw [joinGuard]
    split <;> rfl
  · rcases List.mem_append.1 h with h | h
    · exact ⟨d, List.mem_cons_of_mem _ h, rfl⟩
    · exact ⟨d, List.mem_singleton.1 h ▸ List.mem_cons_self, rfl⟩

theorem hasKey_iff : f.hasKey c = true ↔ ∃ d ∈ f.items, d.toKey = c.toKey := by
  simp [hasKey]

theorem hasKey_add_of_hasKey (h : f.hasKey d = true) : (f.add c).hasKey d = true := by
  obtain ⟨e, he, hk⟩ := hasKey_iff.1 h
  rw [hasKey_iff, add]
  split
  · refine ⟨joinGuard c e, List.mem_map_of_mem he, ?_⟩
    rw [joinGuard]
    split <;> exact hk
  · exact ⟨e, List.mem_append_left _ he, hk⟩

theorem mem_foldl_add (h : d ∈ (l.foldl add f).items) :
    ∃ d' ∈ l ++ f.items, d = { d' with guard := d.guard } := by
  induction l generalizing f with
  | nil => exact ⟨d, h, rfl⟩
  | cons c l ih =>
    obtain ⟨d', hd', hd⟩ := ih h
    rcases List.mem_append.1 hd' with hd' | hd'
    · exact ⟨d', by simp [hd'], hd⟩
    · obtain ⟨d'', hd'', hd₁⟩ := mem_add hd'
      refine ⟨d'', ?_, ?_⟩
      · rcases List.mem_cons.1 hd'' with rfl | hd'' <;> simp [*]
      · rw [hd, hd₁]

theorem hasKey_foldl_add (h : c ∈ l ∨ f.hasKey c = true) : (l.foldl add f).hasKey c = true := by
  induction l generalizing f with
  | nil => exact h.resolve_left nofun
  | cons d l ih =>
    refine ih ?_
    rcases h with h | h
    · rcases List.mem_cons.1 h with rfl | h
      · exact .inr (hasKey_add f c)
      · exact .inl h
    · exact .inr (hasKey_add_of_hasKey h)

end Frontier

namespace Search

variable {search : Search} {c : Config}

/-- The frontier of a search holds configurations that are kept, with other guards. -/
theorem mem_frontier (h : c ∈ search.frontier.items) :
    ∃ d ∈ search.kept, c = { d with guard := c.guard } := by
  rw [frontier, Frontier.ofList_eq_foldl] at h
  obtain ⟨d, hd, hc⟩ := Frontier.mem_foldl_add ((Frontier.sortByAlt_perm _).mem_iff.1 h)
  exact ⟨d, by simpa using hd, hc⟩

/-- The frontier of a search holds the key of every configuration that is kept. -/
theorem exists_mem_frontier (h : c ∈ search.kept) :
    ∃ d ∈ search.frontier.items, d.toKey = c.toKey := by
  have hkey : (search.kept.reverse.foldl Frontier.add {}).hasKey c = true :=
    Frontier.hasKey_foldl_add (.inl (List.mem_reverse.2 h))
  obtain ⟨d, hd, hk⟩ := Frontier.hasKey_iff.1 hkey
  refine ⟨d, ?_, hk⟩
  rw [frontier, Frontier.ofList_eq_foldl]
  exact (Frontier.sortByAlt_perm _).mem_iff.2 hd

/-- The frontier of a search holds the keys of the configurations that are kept. -/
theorem holds_frontier_iff {k : Config.Key} :
    search.frontier.Holds k ↔ ∃ c ∈ search.kept, c.toKey = k := by
  constructor
  · rintro ⟨c, hc, rfl⟩
    obtain ⟨d, hd, he⟩ := mem_frontier hc
    exact ⟨d, hd, by rw [he]⟩
  · rintro ⟨c, hc, rfl⟩
    exact exists_mem_frontier hc

end Search

/-! ## What configurations have in common -/

section

variable {P : Config → Prop}

/-- What holds of the roots and is handed on by a closure holds of all that is looked at. -/
theorem Search.Extends.forall_new {roots ends new : List Config} {search search' : Search}
    (h : Search.Extends net exit collect roots ends new search search')
    (hstep : ∀ c d, Follows net exit collect c d → P c → P d) (hroots : ∀ r ∈ roots, P r) :
    ∀ c ∈ new, P c := by
  intro c hc
  obtain ⟨r, hr, hrun⟩ := h.origin c hc
  clear hc
  induction hrun with
  | refl => exact hroots r hr
  | tail _ hf ih => exact hstep _ _ hf ih

/-- So it holds of all that is kept, if it does of what is kept as it is. -/
theorem Search.Extends.forall_kept {roots ends new : List Config} {search : Search}
    (h : Search.Extends net exit collect roots ends new {} search)
    (hstep : ∀ c d, Follows net exit collect c d → P c → P d) (hroots : ∀ r ∈ roots, P r)
    (hends : ∀ d ∈ ends, P d) : ∀ c ∈ search.kept, P c := by
  intro c hc
  rcases (h.kept c).1 hc with hnil | ⟨hnew, _⟩ | hd
  · cases hnil
  · exact h.forall_new hstep hroots c hnew
  · exact hends c hd

variable (hguard : ∀ c guard, P c → P { c with guard })

include hguard

theorem Search.forall_frontier {search : Search} (h : ∀ c ∈ search.kept, P c) :
    ∀ c ∈ search.frontier.items, P c := by
  intro c hc
  obtain ⟨d, hd, he⟩ := Search.mem_frontier hc
  rw [he]
  exact hguard d _ (h d hd)

/-- What does not depend on guards and is handed on by closures holds of all configurations
    that a decision starts with, if it does of the targets of its transitions. -/
theorem forall_startFrontier {fuel : Nat} {decision : State} {outer : List StateId} {f : Frontier}
    (hstep : ∀ c d, Follows net exit true c d → P c → P d)
    (hroots : ∀ (i : Nat) (t : Transition), decision.transitions[i]? = some t →
      P { state := t.target, alt := 1 + i, context := outer })
    (h : startFrontier net exit fuel decision outer = .ok f) : ∀ c ∈ f.items, P c := by
  obtain ⟨search, hs, h⟩ := Except.exists_of_bind h
  cases h
  obtain ⟨roots, new, hext, hmem⟩ := startFrom_extends hs
  refine Search.forall_frontier hguard (hext.forall_kept hstep (fun r hr => ?_) nofun)
  obtain ⟨i, t, ht, rfl⟩ := (hmem r).1 hr
  exact hroots i t ht

/-- A token hands it on as well, if it does so where it leads a configuration on. -/
theorem forall_nextFrontier {fuel : Nat} {type : Int} {f g : Frontier}
    (hstep : ∀ c d, Follows net exit false c d → P c → P d)
    (htoken : ∀ c d, Consumes net type c d → P c → P d) (hf : ∀ c ∈ f.items, P c)
    (h : nextFrontier net exit fuel f type = .ok g) : ∀ c ∈ g.items, P c := by
  obtain ⟨search, hs, h⟩ := Except.exists_of_bind h
  cases h
  obtain ⟨roots, ends, new, hext, hroots, hends⟩ := advanceAll_extends hs
  refine Search.forall_frontier hguard (hext.forall_kept hstep (fun r hr => ?_) fun d hd =>
    hf d ((hends d).1 hd).1)
  obtain ⟨c, hc, hconsumes⟩ := (hroots r).1 hr
  exact htoken c r hconsumes (hf c hc)

end

/-- In a network that is closed, a decision starts at states that exist, if its transitions
    lead to such. -/
theorem isIn_startFrontier (hnet : net.IsClosed) {fuel : Nat} {decision : State}
    {outer : List StateId} {f : Frontier}
    (hdecision : ∀ t ∈ decision.transitions, net.IsIn ⟨t.target, outer⟩)
    (h : startFrontier net exit fuel decision outer = .ok f) :
    ∀ c ∈ f.items, net.IsIn c.point :=
  forall_startFrontier (fun _ _ hc => hc) (fun _ _ hf hc => hf.freeStep.isIn hnet hc)
    (fun _ t ht => hdecision t (List.mem_of_getElem? ht)) h

/-- In a network that is closed, a token leads from states that exist to such. -/
theorem isIn_nextFrontier (hnet : net.IsClosed) {fuel : Nat} {type : Int} {f g : Frontier}
    (hf : ∀ c ∈ f.items, net.IsIn c.point) (h : nextFrontier net exit fuel f type = .ok g) :
    ∀ c ∈ g.items, net.IsIn c.point := by
  refine forall_nextFrontier (fun _ _ hc => hc) (fun _ _ hf hc => hf.freeStep.isIn hnet hc) ?_ hf h
  rintro c _ ⟨t, ht, _, rfl⟩ hc
  exact ⟨hnet.target ht, hc.2⟩

/-! ## Where a closure comes to -/

namespace Search.Extends

variable {roots ends new : List Config} {search : Search}

/-- What has been looked at is the same as a configuration that the search has come to. -/
theorem exists_same (h : Search.Extends net exit collect roots ends new {} search) {d : Config}
    (hd : search.hasSeen d = true) : ∃ c ∈ new, c.same d = true := by
  refine ((h.seen d).1 hd).resolve_left fun hempty => ?_
  rw [Search.hasSeen_empty] at hempty
  cases hempty

/-- Every point that is reached from a root is come to, if returns are followed. -/
theorem exists_new (h : Search.Extends net exit collect roots ends new {} search)
    (hend : ∀ c ∈ new, c.context ≠ [] → exit.isAtEnd c = false) {r : Config} (hr : r ∈ roots)
    {q : Point} (hq : net.Reaches r.point q) : ∃ c ∈ new, c.alt = r.alt ∧ c.point = q := by
  -- Guards and places in the invocation do not matter to where a configuration stands.
  have seen {d : Config} (hd : search.hasSeen d = true) : ∃ c ∈ new, c.toKey = d.toKey :=
    (h.exists_same hd).imp fun _ hc => ⟨hc.1, Config.toKey_of_same hc.2⟩
  induction hq with
  | refl =>
    obtain ⟨c, hc, hk⟩ := seen (h.roots r hr)
    exact ⟨c, hc, congrArg Config.Key.alt hk, congrArg Config.Key.point hk⟩
  | tail _ hs ih =>
    obtain ⟨c, hc, halt, rfl⟩ := ih
    obtain ⟨d, hd, rfl⟩ : ∃ d, Follows net exit collect c d ∧ d.point = _ :=
      exists_follows (hend c hc) hs
    obtain ⟨c', hc', hk⟩ := seen (h.closed c hc d hd)
    have halt' : c'.alt = d.alt := congrArg Config.Key.alt hk
    exact ⟨c', hc', halt'.trans (hd.alt.trans halt), congrArg Config.Key.point hk⟩

/-- Only points that are reached from a root are come to. -/
theorem reaches_of_mem_new (h : Search.Extends net exit collect roots ends new {} search)
    {c : Config} (hc : c ∈ new) : ∃ r ∈ roots, r.alt = c.alt ∧ net.Reaches r.point c.point := by
  obtain ⟨r, hr, hrun⟩ := h.origin c hc
  refine ⟨r, hr, ?_⟩
  clear hr hc
  induction hrun with
  | refl => exact ⟨rfl, .refl⟩
  | tail _ hf ih => exact ⟨ih.1.trans hf.alt.symm, ih.2.tail hf.freeStep⟩

/-- If returns are followed and the keys tell what is kept, the frontier holds such keys at
    the points that are reached from the roots, and what is kept as it is. -/
theorem holds_iff_of_isKept (h : Search.Extends net exit collect roots ends new {} search)
    (hend : ∀ c ∈ new, c.context ≠ [] → exit.isAtEnd c = false) {keeps : Config.Key → Prop}
    (hkeeps : ∀ c ∈ new, IsKept net exit collect c ↔ keeps c.toKey) {k : Config.Key} :
    search.frontier.Holds k ↔
      (∃ r ∈ roots, r.alt = k.alt ∧ net.Reaches r.point k.point ∧ keeps k) ∨
        ∃ d ∈ ends, d.toKey = k := by
  rw [Search.holds_frontier_iff]
  constructor
  · rintro ⟨c, hc, rfl⟩
    rcases (h.kept c).1 hc with hc | ⟨hc, hk⟩ | hc
    · cases hc
    · obtain ⟨r, hr, halt, hreach⟩ := h.reaches_of_mem_new hc
      exact .inl ⟨r, hr, halt, hreach, (hkeeps c hc).1 hk⟩
    · exact .inr ⟨c, hc, rfl⟩
  · rintro (⟨r, hr, halt, hreach, hk⟩ | ⟨d, hd, rfl⟩)
    · obtain ⟨c, hc, hcalt, hpoint⟩ := h.exists_new hend hr hreach
      obtain rfl := Config.Key.eq_of_point (hcalt.trans halt) hpoint
      exact ⟨c, (h.kept c).2 (.inr (.inl ⟨hc, (hkeeps c hc).2 hk⟩)), rfl⟩
    · exact ⟨d, (h.kept d).2 (.inr (.inr hd)), rfl⟩

/-- Where a decision looks beyond its rule, the frontier holds the points of rest that are
    reached from the roots, and what is kept as it is. -/
theorem holds_iff (hx : exit.active = false)
    (h : Search.Extends net exit collect roots ends new {} search) {k : Config.Key} :
    search.frontier.Holds k ↔
      (∃ r ∈ roots, r.alt = k.alt ∧ net.Reaches r.point k.point ∧ net.Rests k.point) ∨
        ∃ d ∈ ends, d.toKey = k := by
  let keeps (k : Config.Key) : Prop := net.Rests k.point
  have hkeeps : ∀ c ∈ new, IsKept net exit collect c ↔ keeps c.toKey := fun _ _ =>
    isKept_iff_rests hx
  exact h.holds_iff_of_isKept (fun c _ _ => isAtEnd_of_inactive hx c) hkeeps

end Search.Extends

end AdaptiveLL
