import AdaptiveLL.Proofs.Network.Acceptance

/-!
# Survival

A point *survives* some types if a run from there consumes tokens of these types
and then comes to rest (`Network.Survives`): it may wait for a token, or a rule has
come to its end that has no caller, which consumes the end of the input as well.
Runs that come to a dead end do not count.

A parse is committed to the points it comes to. It has lost nothing by its
commitments as long as its point survives what is ahead as far as the point does
that it has started from (`Network.Keeps`). Every step that is the only one keeps it
so (`Keeps.step`, `Keeps.token`).

Where there is always a way on and no free cycle, runs do not come to dead ends
(`hasNoDeadEnd_of_goesOn`), and whatever can be consumed is survived.
-/

namespace AdaptiveLL.Network

variable (net : Network)

/-- A run from a point consumes tokens of some types, possibly the end of the input at
    the end of a rule that has no caller. -/
def Consumes (p : Point) (w : List Int) : Prop :=
  (∃ q, net.Run p w q) ∨
    ∃ v stop, w = v ++ [Token.endOfInput] ∧ net.IsStop stop ∧ net.Run p v ⟨stop, []⟩

/-- A run from a point consumes tokens of some types and comes to rest. -/
def Survives (p : Point) (w : List Int) : Prop :=
  (∃ q, net.Run p w q ∧ net.Rests q) ∨
    ∃ v stop, w = v ++ [Token.endOfInput] ∧ net.IsStop stop ∧ net.Run p v ⟨stop, []⟩

/-- Wherever a run from a point has come to, it can go on to rest. -/
def HasNoDeadEnd (p : Point) : Prop :=
  ∀ w q, net.Run p w q → ∃ r, net.Reaches q r ∧ net.Rests r

/-- A run has come to a point by some types, and this point survives what is ahead as
    far as the start of the run does. -/
structure Keeps (start : Point) (consumed ahead : List Int) (p : Point) : Prop where
  run : net.Run start consumed p
  survives : ∀ u, u <+: ahead → net.Survives start (consumed ++ u) → net.Survives p u

variable {net} {p q start : Point} {u v w consumed ahead : List Int} {type : Int}

/-- Where runs do not come to dead ends, whatever is consumed is survived. -/
theorem Consumes.survives (h : net.Consumes p w) (hp : net.HasNoDeadEnd p) :
    net.Survives p w := by
  obtain ⟨q, hrun⟩ | hend := h
  · obtain ⟨r, hreach, hrests⟩ := hp w q hrun
    have hrun := hrun.trans (run_nil_iff.2 hreach)
    rw [List.append_nil] at hrun
    exact .inl ⟨r, hrun, hrests⟩
  · exact .inr hend

/-- What follows a part of some types is survived by some point of rest that the part
    leads to. -/
theorem survives_append_iff (hv : Token.endOfInput ∉ v) :
    net.Survives p (v ++ w) ↔ ∃ q, net.Run p v q ∧ net.Rests q ∧ net.Survives q w := by
  constructor
  · rintro (⟨r, hrun, hrests⟩ | ⟨v', stop, hw, hstop, hrun⟩)
    · obtain ⟨q, hv, hq, hw⟩ := hrun.cut_at_rest hrests
      exact ⟨q, hv, hq, .inl ⟨r, hw, hrests⟩⟩
    · -- The end of the input is not in the first part, so it is the last of the second.
      rcases List.eq_nil_or_concat w with rfl | ⟨w', type, rfl⟩
      · rw [List.append_nil] at hw
        rw [hw] at hv
        exact absurd (List.mem_append_right _ List.mem_cons_self) hv
      · rw [List.concat_eq_append, ← List.append_assoc] at hw
        obtain ⟨rfl, htype⟩ := List.append_inj' hw rfl
        obtain ⟨q, hv, hq, hw⟩ := hrun.cut_at_rest (.inl ⟨hstop, rfl⟩)
        exact ⟨q, hv, hq, .inr ⟨w', stop, by rw [List.concat_eq_append, htype], hstop, hw⟩⟩
  · rintro ⟨q, hv, _, ⟨r, hrun, hrests⟩ | ⟨w', stop, rfl, hstop, hrun⟩⟩
    · exact .inl ⟨r, hv.trans hrun, hrests⟩
    · exact .inr ⟨v ++ w', stop, (List.append_assoc ..).symm, hstop, hv.trans hrun⟩

/-- Where more is survived, so is a part of it. -/
theorem Survives.of_append (hv : Token.endOfInput ∉ v) (h : net.Survives p (v ++ w)) :
    net.Survives p v := by
  obtain ⟨q, hrun, hrests, _⟩ := (survives_append_iff hv).1 h
  exact .inl ⟨q, hrun, hrests⟩

/-- A point that is not at rest survives by a free step. -/
theorem Survives.exists_freeStep (h : net.Survives p w) (hp : ¬net.Rests p) :
    ∃ q, net.FreeStep p q ∧ net.Survives q w := by
  obtain ⟨r, hrun, hrests⟩ | ⟨v, stop, rfl, hstop, hrun⟩ := h
  · cases hrun with
    | refl => exact absurd hrests hp
    | free hs hrun => exact ⟨_, hs, .inl ⟨r, hrun, hrests⟩⟩
    | token ht ha => exact absurd (rests_of_accepts ht ha) hp
  · cases hrun with
    | refl => exact absurd (.inl ⟨hstop, rfl⟩) hp
    | free hs hrun => exact ⟨_, hs, .inr ⟨v, stop, rfl, hstop, hrun⟩⟩
    | token ht ha => exact absurd (rests_of_accepts ht ha) hp

/-- How a free step is made. -/
theorem FreeStep.cases_behind {id : StateId} {context : List StateId}
    (h : net.FreeStep ⟨id, context⟩ q) :
    (∃ t, net.HasTransition id t ∧ t.label.isFree = true ∧ q = behind t context) ∨
      ∃ follow rest, net.IsStop id ∧ context = follow :: rest ∧ q = ⟨follow, rest⟩ := by
  cases h with
  | epsilon ht => exact .inl ⟨_, ht, rfl, rfl⟩
  | predicate ht => exact .inl ⟨_, ht, rfl, rfl⟩
  | action ht => exact .inl ⟨_, ht, rfl, rfl⟩
  | call ht => exact .inl ⟨_, ht, rfl, rfl⟩
  | exit hs hk => exact .inr ⟨_, _, ⟨_, hs, hk⟩, rfl, rfl⟩

/-- Where the one transition that leaves a state consumes a token, what is survived is
    so behind this transition. -/
theorem Survives.of_token {id : StateId} {context : List StateId} {t : Transition}
    (h : net.Survives ⟨id, context⟩ (type :: w)) (ht : net.HasTransition id t)
    (hfree : t.label.isFree = false) (honly : ∀ t', net.HasTransition id t' → t' = t) :
    t.label.accepts type = true ∧ net.Survives ⟨t.target, context⟩ w := by
  have hnone {q : Point} : ¬net.FreeStep ⟨id, context⟩ q := by
    intro hs
    obtain ⟨t', ht', hfree', _⟩ | ⟨_, _, hstop, _⟩ := hs.cases_behind
    · rw [honly t' ht', hfree] at hfree'
      cases hfree'
    · exact ht.not_isStop hstop
  have first {v : List Int} {r : Point} (hrun : net.Run ⟨id, context⟩ (type :: v) r) :
      t.label.accepts type = true ∧ net.Run ⟨t.target, context⟩ v r := by
    cases hrun with
    | free hs _ => exact absurd hs hnone
    | token ht' ha hrun =>
      obtain rfl := honly _ ht'
      exact ⟨ha, hrun⟩
  obtain ⟨r, hrun, hrests⟩ | ⟨v, stop, hv, hstop, hrun⟩ := h
  · exact ⟨(first hrun).1, .inl ⟨r, (first hrun).2, hrests⟩⟩
  · cases v with
    | nil =>
      cases hrun with
      | refl => exact absurd hstop ht.not_isStop
      | free hs _ => exact absurd hs hnone
    | cons type' v =>
      obtain ⟨rfl, rfl⟩ := List.cons.inj hv
      exact ⟨(first hrun).1, .inr ⟨v, stop, rfl, hstop, (first hrun).2⟩⟩

/-- A point that only free transitions leave is not at rest. -/
theorem not_rests_of_isFree {id : StateId} {context : List StateId} (hstop : ¬net.IsStop id)
    (hfree : ∀ t, net.HasTransition id t → t.label.isFree = true) : ¬net.Rests ⟨id, context⟩ := by
  rintro (⟨h, _⟩ | ⟨t, ht, h⟩)
  · exact hstop h
  · rw [hfree t ht] at h
    cases h

/-- The stop of a rule that has a caller is not at rest. -/
theorem not_rests_of_stop {id : StateId} {context : List StateId} (hstop : net.IsStop id)
    (hcontext : context ≠ []) : ¬net.Rests ⟨id, context⟩ := by
  rintro (⟨_, h⟩ | ⟨t, ht, _⟩)
  · exact hcontext h
  · exact ht.not_isStop hstop

/-! ## Keeping what is survived -/

namespace Keeps

/-- A run has lost nothing where it starts. -/
theorem refl (start : Point) (ahead : List Int) : net.Keeps start [] ahead start :=
  ⟨.refl start, fun _ _ h => h⟩

/-- A free step that loses nothing of what is survived. -/
theorem of_freeStep (h : net.Keeps start consumed ahead p) (hs : net.FreeStep p q)
    (hq : ∀ u, u <+: ahead → net.Survives p u → net.Survives q u) :
    net.Keeps start consumed ahead q where
  run := by
    have hrun := h.run.trans (.free hs (.refl q))
    rwa [List.append_nil] at hrun
  survives u hu hstart := hq u hu (h.survives u hu hstart)

/-- The only step from a point that is not at rest loses nothing. -/
theorem step (h : net.Keeps start consumed ahead p) (hp : ¬net.Rests p) (hs : net.FreeStep p q)
    (honly : ∀ q', net.FreeStep p q' → q' = q) : net.Keeps start consumed ahead q := by
  refine h.of_freeStep hs fun u _ hsurvives => ?_
  obtain ⟨q', hs', hsurvives⟩ := hsurvives.exists_freeStep hp
  rwa [← honly q' hs']

/-- A token that is consumed by the one transition there is. -/
theorem token {id : StateId} {context : List StateId} {t : Transition}
    (h : net.Keeps start consumed (type :: ahead) ⟨id, context⟩) (ht : net.HasTransition id t)
    (ha : t.label.accepts type = true) (honly : ∀ t', net.HasTransition id t' → t' = t) :
    net.Keeps start (consumed ++ [type]) ahead ⟨t.target, context⟩ where
  run := h.run.trans (.token ht ha (.refl _))
  survives u hu hstart := by
    rw [List.append_assoc, List.singleton_append] at hstart
    have hsurvives := h.survives (type :: u) (List.cons_prefix_cons.2 ⟨rfl, hu⟩) hstart
    exact (hsurvives.of_token ht (Label.isFree_eq_false_of_accepts ha) honly).2

end Keeps

/-! ## Dead ends -/

/-- Whether there is a way on from every state that is not the stop of a rule. -/
def goesOn (net : Network) : Bool :=
  net.states.toList.all fun s => decide (s.kind = .ruleStop) || !s.transitions.isEmpty

/-- A point that is not at rest makes a free step where there is a way on. -/
theorem exists_freeStep_of_goesOn (h : net.goesOn = true) (hp : net.HasState p.state)
    (hrests : ¬net.Rests p) : ∃ q, net.FreeStep p q := by
  obtain ⟨id, context⟩ := p
  obtain ⟨s, hs⟩ := hp
  by_cases hk : s.kind = .ruleStop
  · cases context with
    | nil => exact absurd (.inl ⟨⟨s, hs, hk⟩, rfl⟩) hrests
    | cons follow rest => exact ⟨_, .exit hs hk⟩
  · obtain ⟨n, rfl, hn⟩ := state_eq_ok_iff.1 hs
    have hall := List.all_eq_true.1 h s (Array.mem_toList_iff.2 (Array.mem_of_getElem? hn))
    rw [decide_eq_false hk, Bool.false_or, Bool.not_eq_true', List.isEmpty_eq_false_iff] at hall
    obtain ⟨t, ht⟩ := List.exists_mem_of_ne_nil _ hall
    have htrans : net.HasTransition n t := ⟨s, hs, hk, ht⟩
    cases hfree : t.label.isFree with
    | true => exact ⟨_, freeStep_behind htrans hfree context⟩
    | false => exact absurd (.inr ⟨t, htrans, hfree⟩) hrests

/-- Where there is always a way on, a run that consumes nothing more can go on as long as
    it is not at rest, but not forever. -/
theorem hasNoDeadEnd_of_goesOn (h : net.goesOn = true) (hcycle : ¬net.HasFreeCycle)
    (hnet : net.IsClosed) (hp : net.IsIn p) : net.HasNoDeadEnd p := by
  intro w q hrun
  have hq : net.IsIn q := hrun.isIn hnet hp
  clear hrun
  induction q using (wellFounded_freeStep hcycle).induction with
  | h q ih =>
  by_cases hrests : net.Rests q
  · exact ⟨q, .refl, hrests⟩
  · obtain ⟨q', hs⟩ := exists_freeStep_of_goesOn h hq.1 hrests
    obtain ⟨r, hreach, hr⟩ := ih q' hs (hs.isIn hnet hq)
    exact ⟨r, .head hs hreach, hr⟩

end AdaptiveLL.Network
