import AdaptiveLL.Proofs.Prediction.Simulation

/-!
# Predictions end

A frontier behind the end of the input always settles the decision
(`Setting.settle_afterEnd`), so a prediction looks no further. If there is fuel
enough for its frontiers, and no predicate runs out of fuel of its own, a
prediction does not (`Setting.simulate_ends`).
-/

namespace AdaptiveLL

variable {σ S T α β : Type}

/-- A computation does not run out of fuel. -/
def Effect.Ends (e : Effect S α) : Prop :=
  ∀ s, (e s).1 ≠ .error .outOfFuel

namespace Effect.Ends

theorem pure (a : α) : Ends (Pure.pure a : Effect S α) :=
  fun _ => nofun

theorem modify (f : S → S) : Ends (modify f : Effect S PUnit) :=
  fun _ => nofun

theorem get : Ends (MonadState.get : Effect S S) :=
  fun _ => nofun

theorem zoom {get : S → T} {put : T → S → S} {e : Effect T α} (h : e.Ends) :
    Ends (Effect.zoom get put e) :=
  fun s => h (get s)

theorem bind {e : Effect S α} {f : α → Effect S β} (h : e.Ends) (hf : ∀ a, (f a).Ends) :
    Ends (e >>= f) := by
  intro s
  have hs := h s
  rw [bind_apply]
  rcases hr : e s with ⟨fault | a, s'⟩
  · rw [hr] at hs
    exact fun he => hs (congrArg _ (Except.error.inj he))
  · exact hf a s'

/-- Computations put together of such that do not run out of fuel do not either. -/
theorem isCongruence : IsCongruence fun _ (e : Effect S _) (_ : Effect S _) => e.Ends where
  pure a := pure a
  bind h hf := h.bind hf

end Effect.Ends

/-- No predicate of a grammar runs out of fuel. -/
def Grammar.PredicatesEnd (g : Grammar σ) : Prop :=
  ∀ index p, g.predicate index = .ok p → ∀ scene, (p.evaluate scene).Ends

namespace Setting

variable {setting : Setting σ}

/-! ## Evaluating predicates -/

section

variable (h : setting.grammar.PredicatesEnd)

include h

theorem evaluate_ends (p : Int) : (setting.evaluate p).Ends := by
  rw [evaluate]
  cases hp : setting.grammar.predicate p with
  | error fault =>
    rw [Grammar.predicate] at hp
    split at hp
    · cases hp
    · cases hp
      exact fun _ => nofun
  | ok predicate =>
    have hspeculate : (predicate.speculate setting.frame setting.input
        setting.input.position).Ends := Effect.Ends.zoom (h p predicate hp _)
    rw [Effect.ofExcept_ok_bind]
    exact hspeculate.zoom.bind fun _ => (Effect.Ends.modify _).bind fun _ => .pure _

theorem truth_ends (p : Int) : (setting.truth p).Ends := by
  refine Effect.Ends.get.bind fun hearing => ?_
  split
  · exact .pure _
  · exact evaluate_ends h p

theorem settle_ends (n : Node) : (setting.settle n).Ends :=
  settle_congr Effect.Ends.isCongruence (truth_ends h) (rfl : setting.exit = _) n

end

/-! ## Behind the end of the input -/

theorem altsOf_ne_nil {l : List Config} (h : l ≠ []) : Frontier.altsOf l ≠ [] := by
  obtain ⟨c, l, rfl⟩ := List.exists_cons_of_ne_nil h
  have hmem : c.alt ∈ Frontier.altsOf (c :: l) := Ascending.mem_ofList.2 List.mem_cons_self
  exact List.ne_nil_of_mem hmem

/-- Behind the end of the input there is nothing to wait for. -/
theorem ofConfigs?_afterEnd (exit : LoopExit) {l : List Config} (h : l ≠ []) :
    (Verdict.ofConfigs? exit true l).isSome := by
  rw [Verdict.ofConfigs?]
  split
  · rfl
  split
  · next halts => exact absurd halts (altsOf_ne_nil h)
  · rfl
  · split <;> rfl

/-- Behind the end of the input, a decision is settled. -/
theorem settle_afterEnd (f : Frontier) (hearing : Hearing σ) :
    (setting.settle (.ofFrontier setting.exit true f) hearing).1 ≠ .ok none := by
  rw [settle]
  split
  · rintro ⟨⟩
  · next hempty =>
    have hitems : f.items ≠ [] := fun he => hempty (List.isEmpty_iff.2 he)
    split
    · -- Some configurations may be ruled out, but those that are left settle the decision.
      rw [settleGuarded, bind_apply]
      split
      · next configs hearing' _ =>
        dsimp only
        split
        · rw [bind_apply]
          split <;> rintro ⟨⟩
        · next hconfigs =>
          obtain ⟨v, hv⟩ := Option.isSome_iff_exists.1
            (ofConfigs?_afterEnd setting.exit fun he => hconfigs (List.isEmpty_iff.2 he))
          rw [Node.ofFrontier]
          dsimp only
          rw [hv]
          dsimp only
          rw [bind_apply]
          split
          · split <;> rintro ⟨⟩
          · rintro ⟨⟩
      · rintro ⟨⟩
    · next hg =>
      obtain ⟨v, hv⟩ := Option.isSome_iff_exists.1 (ofConfigs?_afterEnd setting.exit hitems)
      rw [Node.ofFrontier] at hg ⊢
      dsimp only at hg ⊢
      rw [if_neg hg, hv]
      rintro ⟨⟩

theorem eq_false_of_settle {afterEnd : Bool} {f : Frontier} {hearing hearing' : Hearing σ}
    (h : setting.settle (.ofFrontier setting.exit afterEnd f) hearing = (.ok none, hearing')) :
    afterEnd = false := by
  cases afterEnd with
  | false => rfl
  | true => exact absurd (congrArg Prod.fst h) (settle_afterEnd f hearing)

variable {fuel : Nat} (options : PredictOptions)

/-- The simulation of a prediction looks no further than the end of the input. -/
theorem simulateFrom_ends (h : setting.grammar.PredicatesEnd) (tokens : List Token)
    {afterEnd : Bool} (hend : afterEnd = true ∨ ∃ t ∈ tokens, t.isEnd = true) {f : Frontier}
    (hfuel : Suffices setting.grammar.toNetwork setting.exit fuel tokens f) (stop lookahead : Nat) :
    (setting.simulateFrom fuel options tokens afterEnd f stop lookahead).Ends := by
  intro hearing
  have hsettle := settle_ends h (.ofFrontier setting.exit afterEnd f) hearing
  rcases hr : setting.settle (.ofFrontier setting.exit afterEnd f) hearing with
    ⟨fault | (_ | outcome), hearing'⟩
  · rw [simulateFrom_of_error hr]
    rw [hr] at hsettle
    exact fun he => hsettle (congrArg _ (Except.error.inj he))
  · by_cases hstops : options.stops lookahead = true
    · rw [simulateFrom_of_stops hr hstops]
      rintro ⟨⟩
    rw [simulateFrom_of_open hr (Bool.eq_false_iff.2 hstops)]
    -- The input ends with one of the tokens that are still ahead.
    obtain ⟨t', ht', he⟩ := hend.resolve_left (by simp [eq_false_of_settle hr])
    match tokens with
    | [] => cases ht'
    | t :: rest =>
      dsimp only
      cases hg : nextFrontier setting.grammar.toNetwork setting.exit fuel f t.type with
      | error fault => exact fun he => hfuel.1 (hg.trans (congrArg _ (Except.error.inj he)))
      | ok g =>
        refine simulateFrom_ends h rest ?_ (hfuel.2 g hg) t.index (lookahead + 1) hearing'
        rcases List.mem_cons.1 ht' with rfl | ht'
        · exact .inl he
        · exact .inr ⟨t', ht', he⟩
  · rw [simulateFrom_of_settled hr]
    rintro ⟨⟩

/-- With enough fuel for its frontiers, a prediction does not run out of it. -/
theorem simulate_ends (h : setting.grammar.PredicatesEnd)
    (hend : setting.input.IsEnded) (hfuel : setting.HasFuel fuel) :
    (setting.simulate fuel options).Ends := by
  rw [simulate]
  cases hf : startFrontier setting.grammar.toNetwork setting.exit fuel setting.decision
    setting.outer with
  | error fault => exact fun _ he => hfuel.1 (hf.trans (congrArg _ (Except.error.inj he)))
  | ok f =>
    rw [Effect.ofExcept_ok_bind]
    exact simulateFrom_ends options h _ (.inr hend) (hfuel.2 f hf) _ _

end Setting

end AdaptiveLL
