import AdaptiveLL.Prediction.Closure
import AdaptiveLL.Prediction.Verdict

/-!
# Changes that do not matter to merging

Configurations may be changed without a difference to how they are merged into
frontiers, sorted and judged: if they keep their alternatives, if they are at one
place behind the change only where they have been so before it, and if the change
has nothing to do with their guards (`Config.IsFaithful`). Then what changed
configurations are merged into is a changed frontier (`Search.frontier_map`), and
verdicts stay as they are (`Verdict.ofConfigs?_map`).
-/

namespace AdaptiveLL

/-- A change of configurations that merging, sorting and verdicts do not notice. -/
structure Config.IsFaithful (change : Config → Config) : Prop where
  place : ∀ c d, (change c).place = (change d).place ↔ c.place = d.place
  alt : ∀ c, (change c).alt = c.alt
  withGuard : ∀ c g, change { c with guard := g } = { change c with guard := g }

/-- A frontier with its configurations changed. -/
def Frontier.map (change : Config → Config) (f : Frontier) : Frontier :=
  { f with items := f.items.map change }

variable {change : Config → Config}

namespace Config.IsFaithful

variable (h : IsFaithful change)

include h

theorem guard (c : Config) : (change c).guard = c.guard := by
  have hc : change c = { change c with guard := c.guard } := h.withGuard c c.guard
  rw [hc]

theorem toKey (c d : Config) : (change c).toKey = (change d).toKey ↔ c.toKey = d.toKey := by
  have key (c d : Config) : c.toKey = d.toKey ↔ c.place = d.place ∧ c.alt = d.alt := by
    obtain ⟨⟨state, alt, context⟩, _, _, _⟩ := c
    obtain ⟨⟨state', alt', context'⟩, _, _, _⟩ := d
    simp only [Config.place, Config.Key.mk.injEq, List.cons.injEq]
    exact ⟨fun hk => ⟨⟨hk.1, hk.2.2⟩, hk.2.1⟩, fun hk => ⟨hk.1.1, hk.2, hk.1.2⟩⟩
  rw [key, key, h.place, h.alt, h.alt]

end Config.IsFaithful

namespace Frontier

section

variable (h : Config.IsFaithful change)

include h

theorem hasKey_map (f : Frontier) (c : Config) : (f.map change).hasKey (change c) = f.hasKey c := by
  rw [Bool.eq_iff_iff]
  simp only [hasKey, map, List.any_map, List.any_eq_true, Function.comp_apply, beq_iff_eq, h.toKey]

theorem joinGuard_map (c d : Config) :
    change (joinGuard c d) = joinGuard (change c) (change d) := by
  by_cases hk : d.toKey = c.toKey
  · have hk' := (h.toKey d c).2 hk
    rw [joinGuard, joinGuard, if_pos (beq_iff_eq.2 hk), if_pos (beq_iff_eq.2 hk'), h.withGuard,
      h.guard, h.guard]
  · have hk' := mt (h.toKey d c).1 hk
    rw [joinGuard, joinGuard, if_neg (mt beq_iff_eq.1 hk), if_neg (mt beq_iff_eq.1 hk')]

theorem map_add (f : Frontier) (c : Config) :
    (f.add c).map change = (f.map change).add (change c) := by
  rw [add, add, hasKey_map h]
  split
  · simp only [map, List.map_map, Function.comp_def, joinGuard_map h]
  · simp only [map, List.map_append, List.map_singleton, h.guard]

theorem map_ofList (l : List Config) : (ofList l).map change = ofList (l.map change) := by
  have fold (l : List Config) (f : Frontier) :
      (l.foldl add f).map change = (l.map change).foldl add (f.map change) := by
    induction l generalizing f with
    | nil => rfl
    | cons c l ih => rw [List.foldl_cons, ih, map_add h, List.map_cons, List.foldl_cons]
  rw [ofList_eq_foldl, ofList_eq_foldl]
  exact fold l {}

theorem map_insertByAlt (c : Config) (l : List Config) :
    (insertByAlt c l).map change = insertByAlt (change c) (l.map change) := by
  induction l with
  | nil => rfl
  | cons d rest ih =>
    rw [insertByAlt, List.map_cons, insertByAlt, h.alt, h.alt]
    split
    · rfl
    · rw [List.map_cons, ih]

theorem map_sortByAlt (l : List Config) : (sortByAlt l).map change = sortByAlt (l.map change) := by
  induction l with
  | nil => rfl
  | cons c l ih =>
    rw [List.map_cons, sortByAlt, sortByAlt, List.foldr_cons, List.foldr_cons, map_insertByAlt h]
    exact congrArg _ ih

theorem map_sorted (f : Frontier) : f.sorted.map change = (f.map change).sorted := by
  simp only [sorted, map, map_sortByAlt h, List.any_map, Function.comp_def, h.guard]

theorem altsOf_map (l : List Config) : altsOf (l.map change) = altsOf l := by
  simp only [altsOf, List.map_map, Function.comp_def, h.alt]

end

end Frontier

variable (h : Config.IsFaithful change)

include h

/-- What changed configurations are merged into is the changed frontier. -/
theorem Search.frontier_map {search search' : Search}
    (hkept : search'.kept = search.kept.map change) :
    search'.frontier = search.frontier.map change := by
  rw [frontier, frontier, hkept, ← List.map_reverse, ← Frontier.map_ofList h,
    Frontier.map_sorted h]

/-! ## Verdicts -/

theorem altsAt_map (l : List Config) (c : Config) :
    altsAt (l.map change) (change c).place = altsAt l c.place := by
  have hplace (d : Config) : ((change d).place == (change c).place) = (d.place == c.place) := by
    rw [Bool.eq_iff_iff, beq_iff_eq, beq_iff_eq, h.place]
  rw [altsAt, altsAt, List.filter_map, Frontier.altsOf_map h]
  simp only [Function.comp_def, hplace]

theorem indistinguishable_map (l : List Config) :
    indistinguishable (l.map change) = indistinguishable l := by
  cases l with
  | nil => rfl
  | cons c l =>
    rw [List.map_cons, indistinguishable, indistinguishable, ← List.map_cons]
    simp only [altsByPlace_getD, List.all_map, Function.comp_def, altsAt_map h]

/-- A change that does not move configurations to the end of the invocation or away
    from it leaves verdicts as they are. -/
theorem Verdict.ofConfigs?_map {exit : LoopExit}
    (hend : ∀ c, exit.isAtEnd (change c) = exit.isAtEnd c) (afterEnd : Bool) (l : List Config) :
    Verdict.ofConfigs? exit afterEnd (l.map change) = Verdict.ofConfigs? exit afterEnd l := by
  have htaken (c : Config) : exit.isTakenBy (change c) = exit.isTakenBy c := by
    rw [LoopExit.isTakenBy, LoopExit.isTakenBy, h.alt]
  have hreached : exit.reached? (l.map change) = exit.reached? l := by
    simp only [LoopExit.reached?, List.any_map, Function.comp_def, htaken, hend]
  rw [ofConfigs?, ofConfigs?, hreached, Frontier.altsOf_map h, indistinguishable_map h]

end AdaptiveLL
