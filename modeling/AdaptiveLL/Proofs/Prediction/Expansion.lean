import AdaptiveLL.Prediction.Closure
import AdaptiveLL.Proofs.Network.Acceptance

/-!
# What a closure does with one configuration

A configuration is followed by another one in a closure (`Follows`) only if the
network makes a free step from where the one stands to where the other does
(`Follows.freeStep`). Every free step is followed that does not return from the
invocation that predicts (`exists_follows`), and the configurations are kept that
stand where nothing more happens without a token (`isKept_iff`).
-/

namespace AdaptiveLL

/-- Where the configurations of a key stand. -/
def Config.Key.point (k : Config.Key) : Point :=
  ⟨k.state, k.context⟩

/-- Where a configuration stands. -/
def Config.point (c : Config) : Point :=
  c.toKey.point

/-- The alternative and the point of a configuration tell its key. -/
theorem Config.Key.eq_of_point {k l : Config.Key} (halt : k.alt = l.alt) (h : k.point = l.point) :
    k = l := by
  obtain ⟨hstate, hcontext⟩ := Point.mk.inj h
  exact Config.Key.mk.injEq .. |>.mpr ⟨hstate, halt, hcontext⟩

theorem Config.same_self (c : Config) : c.same c = true :=
  Config.mark_eq_iff.1 rfl

theorem Config.toKey_of_same {c d : Config} (h : c.same d = true) : c.toKey = d.toKey :=
  beq_iff_eq.1 (Bool.and_eq_true_iff.1 h).1

variable (net : Network) (exit : LoopExit) (collect : Bool)

/-- A closure comes from one configuration to another one at once. -/
def Follows (c d : Config) : Prop :=
  ∃ e, expand net exit collect c = .ok e ∧ d ∈ e.next

/-- A closure keeps a configuration. -/
def IsKept (c : Config) : Prop :=
  ∃ e, expand net exit collect c = .ok e ∧ e.kept = true

variable {net exit collect}

theorem expand_eq_ok {c : Config} {e : Expansion} : expand net exit collect c = .ok e ↔
    ∃ s, net.state c.state = .ok s ∧ e = expandAt exit collect s c := by
  rw [expand]
  cases net.state c.state with
  | error fault => exact ⟨nofun, nofun⟩
  | ok s =>
    constructor
    · intro h
      exact ⟨s, rfl, (Except.ok.inj h).symm⟩
    · rintro ⟨_, ⟨⟩, rfl⟩
      rfl

theorem Network.state_ne_outOfFuel (net : Network) (id : StateId) :
    net.state id ≠ .error .outOfFuel := by
  rw [state]
  cases numbered? net.states id with
  | none => rintro ⟨⟩
  | some s => rintro ⟨⟩

/-- An expansion fails only where a state is missing. -/
theorem expand_eq_error {c : Config} {fault : Fault} :
    expand net exit collect c = .error fault ↔ net.state c.state = .error fault := by
  rw [expand]
  cases net.state c.state with
  | error fault' =>
    exact ⟨fun h => congrArg _ (Except.error.inj h), fun h => congrArg _ (Except.error.inj h)⟩
  | ok s => exact ⟨nofun, nofun⟩

/-- A configuration that has not been looked at is expanded, and what follows it waits
    before the others. -/
theorem closureFrom_of_not_seen {fuel : Nat} {c : Config} {work : List Config} {search : Search}
    (h : search.hasSeen c = false) : closureFrom net exit collect (fuel + 1) (c :: work) search =
      expand net exit collect c >>= fun e =>
        closureFrom net exit collect fuel (e.next.reverse ++ work) (search.visit c e.kept) := by
  rw [closureFrom, h, if_neg Bool.false_ne_true]
  cases expand net exit collect c with
  | error fault => rfl
  | ok e => rfl

/-! ## Free transitions -/

/-- How a configuration is changed by a free transition. -/
theorem freeStep_eq_some {c d : Config} {t : Transition} (h : freeStep collect c t = some d)
    (ht : net.HasTransition c.state t) :
    net.FreeStep c.point d.point ∧ d.alt = c.alt ∧
      (d.guard = c.guard ∨ ∃ p, collect = true ∧ t.label = .predicate p ∧
        d.guard = c.guard.require p) := by
  obtain ⟨target, label⟩ := t
  cases label with
  | epsilon =>
    cases h
    exact ⟨.epsilon ht, rfl, .inl rfl⟩
  | action index =>
    cases h
    exact ⟨.action ht, rfl, .inl rfl⟩
  | call rule follow =>
    cases h
    exact ⟨.call ht, rfl, .inl rfl⟩
  | predicate p =>
    cases h
    refine ⟨.predicate ht, rfl, ?_⟩
    dsimp only
    split
    · next hc =>
      rw [Bool.and_eq_true, Bool.and_eq_true] at hc
      exact .inr ⟨p, hc.1.1, rfl, rfl⟩
    · exact .inl rfl
  | _ => cases h

namespace Follows

variable {c d : Config}

/-- What one configuration has to do with the next. -/
theorem cases (h : Follows net exit collect c d) :
    (∃ t, net.HasTransition c.state t ∧ freeStep collect c t = some d) ∨
      ∃ follow context, net.IsStop c.state ∧ c.context = follow :: context ∧
        exit.isAtEnd c = false ∧ d = c.returned follow context := by
  obtain ⟨e, he, hd⟩ := h
  obtain ⟨s, hs, rfl⟩ := expand_eq_ok.1 he
  rw [expandAt] at hd
  split at hd
  · next hk =>
    split at hd
    · cases hd
    · next hend =>
      cases hc : c.context with
      | nil =>
        rw [hc] at hd
        cases hd
      | cons follow context =>
        rw [hc] at hd
        obtain rfl := List.mem_singleton.1 hd
        exact .inr ⟨follow, context, ⟨s, hs, hk⟩, rfl, Bool.eq_false_iff.2 hend, rfl⟩
  · next hk =>
    obtain ⟨t, ht, htd⟩ := List.mem_filterMap.1 hd
    exact .inl ⟨t, ⟨s, hs, hk, ht⟩, htd⟩

/-- The network makes a free step from one configuration to the next. -/
theorem freeStep (h : Follows net exit collect c d) : net.FreeStep c.point d.point := by
  obtain ⟨t, ht, hd⟩ | ⟨follow, context, ⟨s, hs, hk⟩, hc, _, rfl⟩ := h.cases
  · exact (freeStep_eq_some hd ht).1
  · rw [Config.point, Config.Key.point, hc]
    exact .exit hs hk

theorem alt (h : Follows net exit collect c d) : d.alt = c.alt := by
  obtain ⟨t, ht, hd⟩ | ⟨_, _, _, _, _, rfl⟩ := h.cases
  · exact (freeStep_eq_some hd ht).2.1
  · rfl

/-- The guard is kept, unless a predicate is collected. -/
theorem guard (h : Follows net exit collect c d) : d.guard = c.guard ∨
    ∃ t p, collect = true ∧ net.HasTransition c.state t ∧ t.label = .predicate p ∧
      d.guard = c.guard.require p := by
  obtain ⟨t, ht, hd⟩ | ⟨_, _, _, _, _, rfl⟩ := h.cases
  · obtain hg | ⟨p, hc, hl, hg⟩ := (freeStep_eq_some hd ht).2.2
    · exact .inl hg
    · exact .inr ⟨t, p, hc, ht, hl, hg⟩
  · exact .inl rfl

end Follows

/-! ## What is followed and kept -/

variable {c : Config}

theorem isAtEnd_of_inactive (h : exit.active = false) (c : Config) : exit.isAtEnd c = false := by
  rw [LoopExit.isAtEnd, h]
  rfl

/-- A transition that is free is followed. -/
theorem follows_of_freeStep {d : Config} {t : Transition} (ht : net.HasTransition c.state t)
    (hd : freeStep collect c t = some d) : Follows net exit collect c d := by
  obtain ⟨s, hs, hk, hmem⟩ := ht
  refine ⟨_, expand_eq_ok.2 ⟨s, hs, rfl⟩, ?_⟩
  rw [expandAt, if_neg hk]
  exact List.mem_filterMap.2 ⟨t, hmem, hd⟩

/-- A return is followed, unless it is from the invocation that predicts. -/
theorem follows_returned {s : State} {follow : StateId} {context : List StateId}
    (hs : net.state c.state = .ok s) (hk : s.kind = .ruleStop) (hc : c.context = follow :: context)
    (hend : exit.isAtEnd c = false) : Follows net exit collect c (c.returned follow context) := by
  refine ⟨_, expand_eq_ok.2 ⟨s, hs, rfl⟩, ?_⟩
  rw [expandAt, if_pos hk, hend, if_neg Bool.false_ne_true, hc]
  exact List.mem_singleton.2 rfl

/-- Every free step of the network is followed, unless it returns from the invocation that
    predicts. -/
theorem exists_follows (hend : c.context ≠ [] → exit.isAtEnd c = false) {q : Point}
    (h : net.FreeStep c.point q) : ∃ d, Follows net exit collect c d ∧ d.point = q := by
  obtain ⟨⟨state, alt, context⟩, guard, depth, left⟩ := c
  cases h with
  | epsilon ht => exact ⟨_, follows_of_freeStep ht rfl, rfl⟩
  | predicate ht => exact ⟨_, follows_of_freeStep ht rfl, rfl⟩
  | action ht => exact ⟨_, follows_of_freeStep ht rfl, rfl⟩
  | call ht => exact ⟨_, follows_of_freeStep ht rfl, rfl⟩
  | @exit _ follow s context hs hk =>
    let c : Config := ⟨⟨state, alt, follow :: context⟩, guard, depth, left⟩
    exact ⟨c.returned follow context,
      follows_returned hs hk rfl (hend (List.cons_ne_nil follow context)), rfl⟩

/-- What is kept are the configurations at which a run waits for a token, and those that stop
    at the end of a rule: without a caller left, or by the alternative that leaves a loop where
    the invocation that predicts ends. -/
theorem isKept_iff : IsKept net exit collect c ↔
    (net.IsStop c.state ∧
      if exit.isAtEnd c = true then exit.isTakenBy c = true else c.context = []) ∨
    ∃ t, net.HasTransition c.state t ∧ t.label.isFree = false := by
  constructor
  · rintro ⟨e, he, hk⟩
    obtain ⟨s, hs, rfl⟩ := expand_eq_ok.1 he
    rw [expandAt] at hk
    split at hk
    · next hstop =>
      refine .inl ⟨⟨s, hs, hstop⟩, ?_⟩
      split at hk
      · next hend => rwa [if_pos hend]
      · next hend =>
        rw [if_neg hend]
        cases hc : c.context with
        | nil => rfl
        | cons follow context =>
          rw [hc] at hk
          cases hk
    · next hstop =>
      obtain ⟨t, ht, hl⟩ := List.any_eq_true.1 hk
      exact .inr ⟨t, ⟨s, hs, hstop, ht⟩, by simpa using hl⟩
  · rintro (⟨⟨s, hs, hstop⟩, hc⟩ | ⟨t, ⟨s, hs, hstop, ht⟩, hl⟩)
    · refine ⟨_, expand_eq_ok.2 ⟨s, hs, rfl⟩, ?_⟩
      rw [expandAt, if_pos hstop]
      split
      · next hend => rwa [if_pos hend] at hc
      · next hend =>
        rw [if_neg hend] at hc
        rw [hc]
    · refine ⟨_, expand_eq_ok.2 ⟨s, hs, rfl⟩, ?_⟩
      rw [expandAt, if_neg hstop]
      exact List.any_eq_true.2 ⟨t, ht, by simp [hl]⟩

/-- A decision that looks beyond its rule keeps the configurations at rest. -/
theorem isKept_iff_rests (hx : exit.active = false) :
    IsKept net exit collect c ↔ net.Rests c.point := by
  rw [isKept_iff, isAtEnd_of_inactive hx, if_neg Bool.false_ne_true]
  exact Iff.rfl

end AdaptiveLL
