import AdaptiveLL.Proofs.Convergence
import AdaptiveLL.Proofs.Prediction.Safety

/-!
# Predictions terminate

Without left recursion, the frontiers that a prediction computes are finite, and behind the end
of the input every node settles the decision. So a prediction comes to one result with whatever
fuel, once there is enough of it, if no predicate runs on for ever (`Setting.run_converges`).
It does so whatever the automaton has been grown by (`Grammar.predictAt_converges`).
-/

namespace AdaptiveLL

open Effect

variable {σ : Type}

/-- Predicates that raise no want of fuel come to an end. -/
theorem Grammar.predicatesEnd_of_not_raises {g : Grammar σ} (h : ¬g.Raises .outOfFuel) :
    g.PredicatesEnd :=
  fun _ _ hp _ _ he => h (.predicate hp he)

namespace Setting

variable {setting : Setting σ} (hleft : ¬setting.grammar.toNetwork.IsLeftRecursive)

section

include hleft

theorem start_converges (trial : Trial σ) : Converges setting.start trial := by
  unfold start
  refine .bind_of_ok rfl ?_
  split
  · exact .of_ok rfl
  · exact .bind (.ofExcept (startFrontier_isFueled _ _ _ _) (startFrontier_halts hleft _ _) _)
      fun _ _ _ _ => .of_ok rfl

theorem next_converges (trial : Trial σ) (i : Nat) (type : Int) :
    Converges (fun fuel => setting.next fuel i type) trial := by
  unfold next
  refine .bind_of_ok rfl ?_
  split
  · exact .of_ok rfl
  · exact .bind (.ofExcept (nextFrontier_isFueled _ _ _ _) (nextFrontier_halts hleft _ _) _)
      fun _ _ _ _ => .of_ok rfl

end

variable (hpredicates : setting.grammar.PredicatesEnd) (options : PredictOptions)

include hpredicates

/-- What follows the question whether a node settles the decision comes to a result, if it does
    so where the node does not settle it; that is not behind the end of the input. -/
theorem settle_converges {β : Type} {f : Option Outcome → Nat → Effect (Trial σ) β}
    {trial : Trial σ} {n : Node}
    (hn : n.IsProper setting.grammar.toNetwork setting.exit setting.decision)
    (hsome : ∀ outcome trial', Converges (f (some outcome)) trial')
    (hnone : ∀ trial', n.afterEnd = false → trial'.automaton = trial.automaton →
      Converges (f none) trial') :
    Converges (fun fuel => do
      let outcome ← Effect.zoom Trial.toHearing
        (fun hearing trial => { trial with toHearing := hearing }) (setting.settle n)
      f outcome fuel) trial := by
  refine .bind (.zoom (converges_const (settle_ends hpredicates n _))) fun _ outcome trial' h => ?_
  cases outcome with
  | some outcome => exact hsome outcome trial'
  | none =>
    rw [zoom_apply] at h
    obtain ⟨hsettle, rfl⟩ := Prod.mk.inj h
    refine hnone _ ?_ rfl
    rw [settle_eq_of_isProper hn] at hsettle
    cases hend : n.afterEnd with
    | false => rfl
    | true =>
      rw [hend] at hsettle
      exact absurd hsettle (settle_afterEnd n.frontier trial.toHearing)

variable (hnet : setting.grammar.toNetwork.IsClosed)

include hleft hnet

/-- From a proper node on, a prediction comes to a result, as it looks no further than the end of
    the input. -/
theorem follow_converges (tokens : List Token) {trial : Trial σ} {i : Nat} {n : Node}
    (stop lookahead : Nat) (ha : trial.automaton.Obeys setting.law)
    (hn : trial.automaton.nodes[i]? = some n)
    (hend : n.afterEnd = true ∨ ∃ t ∈ tokens, t.isEnd = true) :
    Converges (fun fuel => setting.follow fuel options tokens i stop lookahead) trial := by
  induction tokens generalizing trial i n stop lookahead with
  | nil =>
    unfold follow
    refine .bind_of_ok rfl ?_
    rw [Automaton.node_eq hn]
    refine settle_converges hpredicates (ha.node i n hn) (fun _ _ => .of_ok rfl) fun _ hnend _ => ?_
    simp [hnend] at hend
  | cons token rest ih =>
    have hproper := ha.node i n hn
    unfold follow
    refine .bind_of_ok rfl ?_
    rw [Automaton.node_eq hn]
    refine settle_converges hpredicates hproper (fun _ _ => .of_ok rfl) fun trial' hnend hsame => ?_
    rw [← hsame] at ha hn
    dsimp only
    split
    · exact .of_ok rfl
    refine (next_converges hleft trial' i token.type).bind fun fuel j trial'' hnext => ?_
    obtain ⟨fault, _, he⟩ | ⟨k, a, m, he, ha', hm, hafter, _⟩ :=
      next_obeys fuel trial' ha hn token.type fun f hf =>
        ⟨⟨rfl, isProper_nextFrontier hproper.config hf⟩, rfl,
          fun hc => isIn_nextFrontier hnet hc hf⟩
    · cases hnext.symm.trans he
    · cases hnext.symm.trans he
      -- The token that ends the input is this one, or it is still ahead.
      obtain ⟨t, ht, htend⟩ := hend.resolve_left (by simp [hnend])
      rcases List.mem_cons.1 ht with rfl | ht
      · exact ih _ _ ha' hm (.inl (hafter.trans htend))
      · exact ih _ _ ha' hm (.inr ⟨t, ht, htend⟩)

/-- A prediction comes to a result. -/
theorem run_converges {trial : Trial σ} (ha : trial.automaton.Obeys setting.law)
    (hdecision : ∀ t ∈ setting.decision.transitions,
      setting.grammar.toNetwork.HasState t.target) (hended : setting.input.IsEnded) :
    Converges (fun fuel => setting.run fuel options) trial := by
  unfold run
  refine (start_converges hleft trial).bind fun fuel i trial' hstart => ?_
  obtain ⟨fault, _, he⟩ | ⟨k, a, n, he, ha', hn, _⟩ :=
    start_obeys fuel trial ha fun f hf => ⟨⟨rfl, isProper_startFrontier hf⟩, rfl,
      fun houter => isIn_startFrontier hnet (fun t ht => ⟨hdecision t ht, houter⟩) hf⟩
  · cases hstart.symm.trans he
  · cases hstart.symm.trans he
    exact follow_converges hleft hpredicates options hnet _ _ _ ha' hn (.inr hended)

end Setting

/-- With a proper cache, a prediction at a decision comes to a result. -/
theorem Grammar.predictAt_converges {g : Grammar σ} (hg : g.IsSound)
    (hnet : g.toNetwork.IsClosed) (hleft : ¬g.toNetwork.IsLeftRecursive)
    (hpredicates : g.PredicatesEnd) {cache : Cache} (h : cache.IsProper g) {id : StateId}
    {s : State} (hs : g.state id = .ok s) (hd : s.decision.isSome = true)
    (options : PredictOptions) {input : Input} (hended : input.IsEnded) (stack : Stack) (host : σ) :
    Converges (fun fuel => g.predictAt fuel options id input stack) (cache, host) := by
  obtain ⟨number, hn⟩ := Option.isSome_iff_exists.1 hd
  obtain ⟨setting, hset, rfl⟩ := exists_setting hg hs hn input stack
  obtain ⟨rfl, _, hnumber, hexit, _, rfl⟩ := setting_eq_ok hset
  obtain ⟨a, ha, hproper⟩ := h.exists_automaton hg hs hnumber hexit
    (Automaton.obeys_empty _ _ _) options
  have hrun : Converges (fun fuel => setting.run fuel options) { automaton := a, host } :=
    Setting.run_converges hleft hpredicates options hnet hproper
      (fun t ht => (hnet id _ hs t ht).1) hended
  unfold predictAt
  rw [hset]
  refine .bind_of_ok rfl (.bind_of_ok rfl ?_)
  dsimp only
  rw [ha]
  exact .bind_of_ok rfl (.bind (.zoom hrun) fun _ _ _ _ => .of_ok rfl)

end AdaptiveLL
