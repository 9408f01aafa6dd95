import AdaptiveLL.Proofs.Network.Recursion

/-!
# Acceptance

A point *accepts* a word if a run from there spells the word, and possibly the end
of the input behind it, and ends at the stop of a rule that has no caller
(`Network.Accepts`).

Runs can be cut where they wait for a token or have come to their end
(`Network.Rests`), so whether a point accepts a word depends on the points of
rest that are come to by a part of it only (`accepts_append_iff`).

In a network that is closed (`Network.IsClosed`), runs do not leave it
(`Run.isIn`).
-/

namespace AdaptiveLL.Network

variable (net : Network)

/-- A state is the stop of a rule. -/
def IsStop (id : StateId) : Prop :=
  ∃ s, net.state id = .ok s ∧ s.kind = .ruleStop

/-- A run may wait here for a token: one is consumed on the way on, or no way is
    left because a rule has come to its end that has no caller. -/
def Rests (p : Point) : Prop :=
  (net.IsStop p.state ∧ p.context = []) ∨
    ∃ t, net.HasTransition p.state t ∧ t.label.isFree = false

/-- A run waits here for a token, or for one of several. -/
def Waits (p : Point) : Prop :=
  ∃ t, net.HasTransition p.state t ∧ t.label.isFree = false

/-- A run from a point spells a word, and possibly the end of the input behind it,
    and comes to the end of a rule that has no caller. -/
def Accepts (p : Point) (w : List Int) : Prop :=
  ∃ stop, net.IsStop stop ∧
    (net.Run p w ⟨stop, []⟩ ∨ net.Run p (w ++ [Token.endOfInput]) ⟨stop, []⟩)

/-- Every transition that consumes a token matches some type. -/
def IsMatchable : Prop :=
  ∀ id t, net.HasTransition id t → t.label.isFree = false → ∃ type, t.label.accepts type = true

/-- No transition is under a predicate. -/
def HasNoPredicate : Prop :=
  ∀ id t, net.HasTransition id t → ∀ p, t.label ≠ .predicate p

variable {net} {p q r : Point} {v w : List Int} {type : Int}

/-! ## Cutting runs -/

theorem Reaches.run (h : net.Reaches p q) (hrun : net.Run q w r) : net.Run p w r :=
  (run_nil_iff.2 h).trans hrun

/-- A run that consumes a token makes free steps up to there. -/
theorem run_cons_iff : net.Run p (type :: w) r ↔ ∃ id context t, net.Reaches p ⟨id, context⟩ ∧
    net.HasTransition id t ∧ t.label.accepts type = true ∧ net.Run ⟨t.target, context⟩ w r := by
  constructor
  · intro h
    generalize hv : type :: w = v at h
    induction h with
    | refl _ => cases hv
    | free hs _ ih =>
      obtain ⟨id, context, t, hreach, ht⟩ := ih hv
      exact ⟨id, context, t, .head hs hreach, ht⟩
    | token ht ha hrun =>
      cases hv
      exact ⟨_, _, _, .refl, ht, ha, hrun⟩
  · rintro ⟨id, context, t, hreach, ht, ha, hrun⟩
    exact hreach.run (.token ht ha hrun)

/-- A run can be cut between two parts of what it spells. -/
theorem run_append_iff : net.Run p (v ++ w) r ↔ ∃ q, net.Run p v q ∧ net.Run q w r := by
  constructor
  · intro h
    induction v generalizing p with
    | nil => exact ⟨p, .refl p, h⟩
    | cons type v ih =>
      obtain ⟨id, context, t, hreach, ht, ha, hrun⟩ := run_cons_iff.1 h
      obtain ⟨q, hv, hw⟩ := ih hrun
      exact ⟨q, run_cons_iff.2 ⟨id, context, t, hreach, ht, ha, hv⟩, hw⟩
  · rintro ⟨q, hv, hw⟩
    exact hv.trans hw

/-- A token is consumed where a run waits. -/
theorem waits_of_accepts {id : StateId} {context : List StateId} {t : Transition}
    (ht : net.HasTransition id t) (ha : t.label.accepts type = true) : net.Waits ⟨id, context⟩ :=
  ⟨t, ht, Label.isFree_eq_false_of_accepts ha⟩

/-- A token is consumed from a point of rest. -/
theorem rests_of_accepts {id : StateId} {context : List StateId} {t : Transition}
    (ht : net.HasTransition id t) (ha : t.label.accepts type = true) : net.Rests ⟨id, context⟩ :=
  .inr (waits_of_accepts ht ha)

/-- A run that ends at rest makes free steps to a point of rest before it consumes
    anything. -/
theorem Run.exists_rests (h : net.Run p w r) (hr : net.Rests r) :
    ∃ q, net.Reaches p q ∧ net.Rests q ∧ net.Run q w r := by
  cases w with
  | nil => exact ⟨r, run_nil_iff.1 h, hr, .refl r⟩
  | cons type w =>
    obtain ⟨id, context, t, hreach, ht, ha, hrun⟩ := run_cons_iff.1 h
    exact ⟨_, hreach, rests_of_accepts ht ha, .token ht ha hrun⟩

/-- A run that ends at rest can be cut at a point of rest. -/
theorem Run.cut_at_rest (h : net.Run p (v ++ w) r) (hr : net.Rests r) :
    ∃ q, net.Run p v q ∧ net.Rests q ∧ net.Run q w r := by
  obtain ⟨q, hv, hw⟩ := run_append_iff.1 h
  obtain ⟨q', hreach, hq', hw'⟩ := hw.exists_rests hr
  refine ⟨q', ?_, hq', hw'⟩
  simpa using hv.trans (run_nil_iff.2 hreach)

/-- What follows a part of a word is accepted by some point of rest that the part
    leads to. -/
theorem accepts_append_iff :
    net.Accepts p (v ++ w) ↔ ∃ q, net.Run p v q ∧ net.Rests q ∧ net.Accepts q w := by
  constructor
  · rintro ⟨stop, hstop, h⟩
    have hrests : net.Rests ⟨stop, []⟩ := .inl ⟨hstop, rfl⟩
    rcases h with h | h
    · obtain ⟨q, hv, hq, hw⟩ := h.cut_at_rest hrests
      exact ⟨q, hv, hq, stop, hstop, .inl hw⟩
    · rw [List.append_assoc] at h
      obtain ⟨q, hv, hq, hw⟩ := h.cut_at_rest hrests
      exact ⟨q, hv, hq, stop, hstop, .inr hw⟩
  · rintro ⟨q, hv, _, stop, hstop, h⟩
    refine ⟨stop, hstop, h.imp hv.trans fun h => ?_⟩
    rw [List.append_assoc]
    exact hv.trans h

/-! ## The first step of a run -/

theorem freeStep_behind {id : StateId} {t : Transition} (ht : net.HasTransition id t)
    (hfree : t.label.isFree = true) (context : List StateId) :
    net.FreeStep ⟨id, context⟩ (behind t context) := by
  obtain ⟨target, label⟩ := t
  cases label with
  | epsilon => exact .epsilon ht
  | call => exact .call ht
  | predicate => exact .predicate ht
  | action => exact .action ht
  | _ => cases hfree

/-- Where a run comes to that spells a word, if it takes the way on of some index
    wherever it follows a transition. -/
def walk (net : Network) : List Nat → List Int → Point → Option Point
  | [], [], p => some p
  | [], _ :: _, _ => none
  | way :: ways, w, p =>
    match net.state p.state with
    | .error _ => none
    | .ok s =>
      if s.kind = .ruleStop then
        match p.context with
        | [] => none
        | follow :: rest => net.walk ways w ⟨follow, rest⟩
      else
        match s.transitions[way]? with
        | none => none
        | some t =>
          if t.label.isFree then net.walk ways w (behind t p.context)
          else
            match w with
            | [] => none
            | type :: w =>
              if t.label.accepts type then net.walk ways w ⟨t.target, p.context⟩ else none

/-- A walk is a run. -/
theorem run_of_walk (ways : List Nat) (h : net.walk ways w p = some q) : net.Run p w q := by
  fun_induction walk net ways w p with
  | case1 p =>
    cases h
    exact .refl _
  | case5 way ways w p s hs hk follow rest hcontext ih =>
    obtain ⟨id, context⟩ := p
    obtain rfl : context = follow :: rest := hcontext
    exact .free (.exit hs hk) (ih h)
  | case7 way ways w p s hs hk t ht hfree ih =>
    have ht : net.HasTransition p.state t := ⟨s, hs, hk, List.mem_of_getElem? ht⟩
    exact .free (freeStep_behind ht hfree p.context) (ih h)
  | case9 way ways p s hs hk t ht hfree type w ha ih =>
    exact .token ⟨s, hs, hk, List.mem_of_getElem? ht⟩ ha (ih h)
  | _ => cases h

theorem not_isStop {id : StateId} {s : State} (hs : net.state id = .ok s)
    (hk : s.kind ≠ .ruleStop) : ¬net.IsStop id := by
  rintro ⟨s', hs', hk'⟩
  rw [hs] at hs'
  cases hs'
  exact hk hk'

theorem HasTransition.mem {id : StateId} {s : State} {t : Transition}
    (h : net.HasTransition id t) (hs : net.state id = .ok s) : t ∈ s.transitions := by
  obtain ⟨s', hs', _, ht⟩ := h
  rw [hs] at hs'
  cases hs'
  exact ht

theorem HasTransition.not_isStop {id : StateId} {t : Transition} (h : net.HasTransition id t) :
    ¬net.IsStop id := by
  obtain ⟨s, hs, hk, _⟩ := h
  exact Network.not_isStop hs hk

/-- How a word is accepted where the end of the input is matched by no transition. -/
theorem Accepts.cases
    (hend : ∀ id t, net.HasTransition id t → t.label.accepts Token.endOfInput = false)
    {id : StateId} {context : List StateId} (h : net.Accepts ⟨id, context⟩ w) :
    (net.IsStop id ∧ context = []) ∨
      (∃ follow rest, net.IsStop id ∧ context = follow :: rest ∧ net.Accepts ⟨follow, rest⟩ w) ∨
      (∃ t, net.HasTransition id t ∧ t.label.isFree = true ∧ net.Accepts (behind t context) w) ∨
      ∃ t type v, net.HasTransition id t ∧ t.label.accepts type = true ∧ w = type :: v ∧
        net.Accepts ⟨t.target, context⟩ v := by
  obtain ⟨stop, hstop, hrun | hrun⟩ := h
  · have accepts {q : Point} {v : List Int} (hq : net.Run q v ⟨stop, []⟩) : net.Accepts q v :=
      ⟨stop, hstop, .inl hq⟩
    cases hrun with
    | refl => exact .inl ⟨hstop, rfl⟩
    | token ht ha hrest => exact .inr (.inr (.inr ⟨_, _, _, ht, ha, rfl, accepts hrest⟩))
    | free hs hrest =>
      cases hs with
      | epsilon ht => exact .inr (.inr (.inl ⟨_, ht, rfl, accepts hrest⟩))
      | predicate ht => exact .inr (.inr (.inl ⟨_, ht, rfl, accepts hrest⟩))
      | action ht => exact .inr (.inr (.inl ⟨_, ht, rfl, accepts hrest⟩))
      | call ht => exact .inr (.inr (.inl ⟨_, ht, rfl, accepts hrest⟩))
      | exit hs hk => exact .inr (.inl ⟨_, _, ⟨_, hs, hk⟩, rfl, accepts hrest⟩)
  · -- A run behind the end of the input would have to match it.
    obtain ⟨_, _, hlast⟩ := run_append_iff.1 hrun
    obtain ⟨id', _, t, _, ht, ha, _⟩ := run_cons_iff.1 hlast
    rw [hend id' t ht] at ha
    cases ha

/-! ## Networks that are closed -/

variable (net)

/-- A state exists. -/
def HasState (id : StateId) : Prop :=
  ∃ s, net.state id = .ok s

/-- The states of a point exist. -/
def IsIn (p : Point) : Prop :=
  net.HasState p.state ∧ ∀ id ∈ p.context, net.HasState id

/-- Transitions lead to states that exist, and so do the returns from calls. -/
def IsClosed : Prop :=
  ∀ id s, net.state id = .ok s → ∀ t ∈ s.transitions, net.HasState t.target ∧
    ∀ rule follow, t.label = .call rule follow → net.HasState follow

variable {net}

theorem IsClosed.target (hnet : net.IsClosed) {id : StateId} {t : Transition}
    (ht : net.HasTransition id t) : net.HasState t.target := by
  obtain ⟨s, hs, _, ht⟩ := ht
  exact (hnet id s hs t ht).1

theorem IsClosed.follow (hnet : net.IsClosed) {id target follow : StateId} {rule : RuleId}
    (ht : net.HasTransition id ⟨target, .call rule follow⟩) : net.HasState follow := by
  obtain ⟨s, hs, _, ht⟩ := ht
  exact (hnet id s hs _ ht).2 rule follow rfl

theorem FreeStep.isIn (hnet : net.IsClosed) (h : net.FreeStep p q) (hp : net.IsIn p) :
    net.IsIn q := by
  cases h with
  | epsilon ht => exact ⟨hnet.target ht, hp.2⟩
  | predicate ht => exact ⟨hnet.target ht, hp.2⟩
  | action ht => exact ⟨hnet.target ht, hp.2⟩
  | call ht => exact ⟨hnet.target ht, List.forall_mem_cons.2 ⟨hnet.follow ht, hp.2⟩⟩
  | exit => exact List.forall_mem_cons.1 hp.2

/-- A point that accepts a word is at a state that exists. -/
theorem Accepts.hasState (h : net.Accepts p w) : net.HasState p.state := by
  obtain ⟨stop, ⟨s, hs, _⟩, hrun⟩ := h
  have start {v : List Int} (hrun : net.Run p v ⟨stop, []⟩) : net.HasState p.state := by
    cases hrun with
    | refl => exact ⟨s, hs⟩
    | free hstep _ => exact hstep.exists_state
    | token ht _ _ => exact ht.imp fun _ h => h.1
  exact hrun.elim start start

/-- A run does not leave a network that is closed. -/
theorem Run.isIn (hnet : net.IsClosed) (h : net.Run p w q) (hp : net.IsIn p) : net.IsIn q := by
  induction h with
  | refl _ => exact hp
  | free hs _ ih => exact ih (hs.isIn hnet hp)
  | token ht _ _ ih => exact ih ⟨hnet.target ht, hp.2⟩

/-- Whether all transitions have a property. -/
def allTransitions (net : Network) (p : Transition → Bool) : Bool :=
  net.states.toList.all fun s => s.transitions.all p

theorem of_allTransitions {p : Transition → Bool} (h : net.allTransitions p = true) {id : StateId}
    {s : State} (hs : net.state id = .ok s) {t : Transition} (ht : t ∈ s.transitions) :
    p t = true := by
  obtain ⟨n, rfl, hn⟩ := state_eq_ok_iff.1 hs
  have hmem : s ∈ net.states.toList := Array.mem_toList_iff.2 (Array.mem_of_getElem? hn)
  exact List.all_eq_true.1 (List.all_eq_true.1 h s hmem) t ht

theorem not_accepts_of_allTransitions
    (h : net.allTransitions (fun t => !t.label.accepts type) = true) (id : StateId)
    (t : Transition) (ht : net.HasTransition id t) : t.label.accepts type = false := by
  obtain ⟨s, hs, _, ht⟩ := ht
  simpa using of_allTransitions h hs ht

/-- Whether a transition leads to a state that exists, and so does the return from
    the call it makes. -/
def leadsInside (net : Network) (t : Transition) : Bool :=
  (net.state t.target).toOption.isSome &&
    match t.label with
    | .call _ follow => (net.state follow).toOption.isSome
    | _ => true

theorem hasState_of_isSome {id : StateId} (h : (net.state id).toOption.isSome = true) :
    net.HasState id := by
  cases hs : net.state id with
  | error fault =>
    rw [hs] at h
    cases h
  | ok s => exact ⟨s, hs⟩

theorem isClosed_of_leadsInside (h : net.allTransitions net.leadsInside = true) :
    net.IsClosed := by
  intro id s hs t ht
  obtain ⟨htarget, hfollow⟩ := Bool.and_eq_true_iff.1 (of_allTransitions h hs ht)
  refine ⟨hasState_of_isSome htarget, fun rule follow hl => ?_⟩
  rw [hl] at hfollow
  exact hasState_of_isSome hfollow

/-! ## Parts that are not left -/

/-- Whether a transition leads out of some states on a word of tokens of some types. -/
def leaves (types : List Int) (ids : List StateId) (t : Transition) : Bool :=
  match t.label with
  | .call .. => true
  | label => (label.isFree || types.any label.accepts) && !ids.contains t.target

/-- Whether no transition leads out of some states on a word of tokens of some types. -/
def confines (net : Network) (types : List Int) (ids : List StateId) : Bool :=
  ids.all fun id => (net.state id).toOption.all fun s => !s.transitions.any (leaves types ids)

theorem leaves_of_confines {types : List Int} {ids : List StateId}
    (h : net.confines types ids = true) {id : StateId} (hid : id ∈ ids) {t : Transition}
    (ht : net.HasTransition id t) : leaves types ids t = false := by
  obtain ⟨s, hs, _, ht⟩ := ht
  have hall := List.all_eq_true.1 h id hid
  rw [hs] at hall
  have hnone : s.transitions.any (leaves types ids) = false := (Bool.not_eq_eq_eq_not ..).1 hall
  exact Bool.eq_false_iff.2 (List.any_eq_false.1 hnone t ht)

/-- A run on such a word does not leave the states. -/
theorem Run.mem_of_confines {types : List Int} {ids : List StateId}
    (h : net.confines types ids = true) (hrun : net.Run p w q) (hw : w ⊆ types)
    (hp : p.state ∈ ids) (hc : p.context = []) : q.state ∈ ids ∧ q.context = [] := by
  have stays {id : StateId} {t : Transition} (hid : id ∈ ids) (ht : net.HasTransition id t)
      (hcall : ∀ callee follow, t.label ≠ .call callee follow)
      (hl : (t.label.isFree || types.any t.label.accepts) = true) : t.target ∈ ids := by
    have hleaves := leaves_of_confines h hid ht
    rw [leaves] at hleaves
    split at hleaves
    · next callee follow hlabel => exact absurd hlabel (hcall callee follow)
    · rw [hl] at hleaves
      simpa using hleaves
  induction hrun with
  | refl _ => exact ⟨hp, hc⟩
  | free hs _ ih =>
    cases hs with
    | epsilon ht => exact ih hw (stays hp ht (by rintro _ _ ⟨⟩) rfl) hc
    | predicate ht => exact ih hw (stays hp ht (by rintro _ _ ⟨⟩) rfl) hc
    | action ht => exact ih hw (stays hp ht (by rintro _ _ ⟨⟩) rfl) hc
    | call ht =>
      have hleaves := leaves_of_confines h hp ht
      cases hleaves
    | exit => cases hc
  | @token id t _ type _ _ ht ha _ ih =>
    obtain ⟨htype, hw⟩ := List.cons_subset.1 hw
    refine ih hw (stays hp ht (fun callee follow hl => ?_) ?_) hc
    · rw [hl] at ha
      cases ha
    · rw [List.any_eq_true.2 ⟨type, htype, ha⟩, Bool.or_true]

end AdaptiveLL.Network
