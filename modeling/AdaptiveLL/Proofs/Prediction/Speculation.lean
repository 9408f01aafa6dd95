import AdaptiveLL.Proofs.Prediction.Transparency

/-!
# What a prediction does to the host

A prediction evaluates predicates speculatively, in the invocation and at the
place where it is made, and changes the host in no other way
(`Grammar.speculates_predictAt`). This holds with every cache.
-/

namespace AdaptiveLL

open Relation

variable {σ : Type}

/-- Some predicates are evaluated speculatively, one after the other, which may
    change the host. -/
def Grammar.Speculates (g : Grammar σ) (frame : Option Frame) (input : Input) : σ → σ → Prop :=
  ReflTransGen fun host host' => ∃ index p, g.predicate index = .ok p ∧
    host' = (p.speculate frame input input.position host).2

namespace Setting

variable (setting : Setting σ)

/-- A computation changes the host by evaluating predicates speculatively only. -/
def OnlySpeculates {α : Type} (e : Effect (Hearing σ) α) : Prop :=
  ∀ hearing, setting.grammar.Speculates setting.frame setting.input hearing.host
    (e hearing).2.host

variable {setting}

theorem onlySpeculates_isCongruence :
    Effect.IsCongruence fun _ (e : Effect (Hearing σ) _) (_ : Effect (Hearing σ) _) =>
      setting.OnlySpeculates e where
  pure a hearing := .refl
  bind {α β e e' f f'} h hf hearing := by
    have h := h hearing
    rw [bind_apply]
    rcases hr : e hearing with ⟨fault | a, hearing'⟩
    · rw [hr] at h
      exact h
    · rw [hr] at h
      exact h.trans (hf a hearing')

theorem onlySpeculates_truth (p : Int) : setting.OnlySpeculates (setting.truth p) := by
  intro hearing
  rw [truth, bind_apply, get_apply]
  dsimp only
  cases hearing.truths.lookup p with
  | some truth => exact .refl
  | none =>
    dsimp only
    rw [evaluate, bind_apply, Effect.ofExcept_apply]
    cases hp : setting.grammar.predicate p with
    | error fault => exact .refl
    | ok predicate =>
      dsimp only
      rw [bind_apply, Effect.zoom_apply]
      refine .single ⟨p, predicate, hp, ?_⟩
      rcases predicate.speculate setting.frame setting.input setting.input.position
        hearing.host with ⟨fault | truth, host⟩
      · rfl
      · rfl

theorem onlySpeculates_settle (n : Node) : setting.OnlySpeculates (setting.settle n) :=
  settle_congr onlySpeculates_isCongruence onlySpeculates_truth (rfl : setting.exit = _) n

variable {fuel : Nat} {options : PredictOptions}

/-- To come to a node leaves what has been found out by predicates as it is. -/
theorem toHearing_start (trial : Trial σ) :
    (setting.start fuel trial).2.toHearing = trial.toHearing := by
  rw [start, bind_apply, get_apply]
  dsimp only
  cases trial.automaton.start? setting.outer with
  | some id => rfl
  | none =>
    dsimp only
    rw [bind_apply, Effect.ofExcept_apply]
    cases startFrontier setting.grammar.toNetwork setting.exit fuel setting.decision
      setting.outer with
    | error fault => rfl
    | ok frontier => rfl

theorem toHearing_next (id : Nat) (type : Int) (trial : Trial σ) :
    (setting.next fuel id type trial).2.toHearing = trial.toHearing := by
  rw [next, bind_apply, get_apply]
  dsimp only
  cases trial.automaton.edge? id type with
  | some target => rfl
  | none =>
    dsimp only
    rw [bind_apply, Effect.ofExcept_apply]
    cases nextFrontier setting.grammar.toNetwork setting.exit fuel
      (trial.automaton.node id).frontier type with
    | error fault => rfl
    | ok frontier => rfl

theorem speculates_follow (tokens : List Token) (id stop lookahead : Nat) (trial : Trial σ) :
    setting.grammar.Speculates setting.frame setting.input trial.host
      (setting.follow fuel options tokens id stop lookahead trial).2.host := by
  let R (host : σ) : Prop :=
    setting.grammar.Speculates setting.frame setting.input trial.host host
  refine follow_keeps (P := fun _ trial' => R trial'.host) (Q := fun trial' => R trial'.host)
    (fun _ _ h => h) (fun i trial' h => ?_) (fun i type trial' h => ?_) tokens stop lookahead .refl
  · have hsettle : setting.OnlySpeculates (setting.settle (trial'.automaton.node i)) :=
      onlySpeculates_settle _
    exact .of_state (P := fun hearing : Hearing σ => R hearing.host)
      (h.trans (hsettle trial'.toHearing))
  · refine .of_state (P := fun trial'' : Trial σ => R trial''.host) ?_
    rw [toHearing_next]
    exact h

end Setting

namespace Grammar

variable {g : Grammar σ} {fuel : Nat} {options : PredictOptions} {id : StateId} {input : Input}
  {stack : Stack} {cache : Cache} {host : σ}

theorem setting_frame {setting : Setting σ} (h : g.setting id input stack = .ok setting) :
    setting.frame = stack.frames.head? := by
  obtain ⟨s, _, h⟩ := Except.exists_of_bind h
  cases hd : s.decision with
  | none =>
    rw [hd] at h
    cases h
  | some number =>
    rw [hd] at h
    obtain ⟨exit, _, h⟩ := Except.exists_of_bind h
    cases h
    rfl

/-- A prediction changes the host by evaluating predicates speculatively only, in
    the current invocation and at the place where it is made. -/
theorem speculates_predictAt (g : Grammar σ) (fuel : Nat) (options : PredictOptions) (id : StateId)
    (input : Input) (stack : Stack) (cache : Cache) (host : σ) :
    g.Speculates stack.frames.head? input host
      (g.predictAt fuel options id input stack (cache, host)).2.2 := by
  obtain ⟨fault, hfault⟩ | ⟨setting, a, hs, ha⟩ :=
    g.predictAt_cases fuel options id input stack cache host
  · rw [hfault]
    exact .refl
  · have hframe := setting_frame hs
    rw [predictAt_of_ok hs ha]
    obtain ⟨rfl, _, _, _, _, rfl⟩ := setting_eq_ok hs
    rw [← hframe]
    refine of_bind (P := fun trial : Trial σ =>
      setting.grammar.Speculates setting.frame setting.input host trial.host) ?_
      fun i trial _ htrial => htrial.trans (Setting.speculates_follow _ i _ _ trial)
    rw [Setting.toHearing_start]
    exact .refl

end Grammar

end AdaptiveLL
