import AdaptiveLL.Proofs.Prediction.Halting
import AdaptiveLL.Proofs.Prediction.Likeness
import AdaptiveLL.Proofs.Token.Input

/-!
# Predictions without an automaton

`Setting.simulate` is what a prediction comes to if nothing is remembered, not
even during the prediction: it moves from frontier to frontier until one settles
the decision.

* `exists_suffices`: without left recursion, some fuel is enough for all the
  frontiers on the way.
* `nextFrontier_view`, `Setting.settle_view`: two frontiers on which a decision
  has the same view lead to such frontiers, and settle the decision equally.
* `Setting.simulateFrom_of_settled`, `Setting.simulateFrom_of_open`: at a frontier the
  simulation ends, or the next token is looked at.
-/

namespace AdaptiveLL

variable {σ : Type}

/-- What of a frontier matters to a decision. Only that of a non-greedy loop takes
    notice of where the configurations stand relative to the invocation. -/
def LoopExit.view (exit : LoopExit) (f : Frontier) : Frontier :=
  if exit.active then f else f.forget

variable {net : Network} {exit : LoopExit}

theorem nextFrontier_view (net : Network) (fuel : Nat) (type : Int) {f g : Frontier}
    (h : exit.view f = exit.view g) : (nextFrontier net exit fuel f type).map exit.view =
      (nextFrontier net exit fuel g type).map exit.view := by
  cases hx : exit.active with
  | true =>
    obtain rfl : f = g := by simpa [LoopExit.view, hx] using h
    rfl
  | false =>
    have hview : exit.view = Frontier.forget := by
      funext f
      rw [LoopExit.view, hx]
      rfl
    rw [hview] at h ⊢
    exact nextFrontier_forget hx h

theorem nextFrontier_eq_ok_of_view {fuel : Nat} {type : Int} {f g f' : Frontier}
    (h : exit.view f = exit.view g) (hf : nextFrontier net exit fuel f type = .ok f') :
    ∃ g', nextFrontier net exit fuel g type = .ok g' ∧ exit.view f' = exit.view g' := by
  have hmap := nextFrontier_view net fuel type h
  rw [hf] at hmap
  cases hg : nextFrontier net exit fuel g type with
  | error fault =>
    rw [hg] at hmap
    cases hmap
  | ok g' =>
    rw [hg] at hmap
    exact ⟨g', rfl, Except.ok.inj hmap⟩

theorem nextFrontier_eq_error_of_view {fuel : Nat} {type : Int} {f g : Frontier} {fault : Fault}
    (h : exit.view f = exit.view g) (hf : nextFrontier net exit fuel f type = .error fault) :
    nextFrontier net exit fuel g type = .error fault := by
  have hmap := nextFrontier_view net fuel type h
  rw [hf] at hmap
  cases hg : nextFrontier net exit fuel g type with
  | error fault' =>
    rw [hg] at hmap
    exact congrArg _ (Except.error.inj hmap).symm
  | ok g' =>
    rw [hg] at hmap
    cases hmap

theorem Setting.settle_view (setting : Setting σ) (afterEnd : Bool) {f g : Frontier}
    (h : setting.exit.view f = setting.exit.view g) :
    setting.settle (.ofFrontier setting.exit afterEnd f) =
      setting.settle (.ofFrontier setting.exit afterEnd g) := by
  cases hx : setting.exit.active with
  | true =>
    obtain rfl : f = g := by simpa [LoopExit.view, hx] using h
    rfl
  | false =>
    have hfg : f.forget = g.forget := by simpa [LoopExit.view, hx] using h
    rw [← setting.settle_forget hx afterEnd f, hfg, setting.settle_forget hx]

/-! ## Fuel for all the frontiers on the way -/

variable (net exit)

/-- Some fuel is enough for every frontier that some tokens lead to. -/
def Suffices (fuel : Nat) : List Token → Frontier → Prop
  | [], _ => True
  | t :: rest, f => nextFrontier net exit fuel f t.type ≠ .error .outOfFuel ∧
    ∀ g, nextFrontier net exit fuel f t.type = .ok g → Suffices fuel rest g

variable {net exit}

/-- Without left recursion, there is fuel enough for every frontier on the way. -/
theorem exists_suffices (exit : LoopExit) (h : ¬net.IsLeftRecursive) (tokens : List Token)
    (f : Frontier) : ∃ n, ∀ fuel ≥ n, Suffices net exit fuel tokens f := by
  induction tokens generalizing f with
  | nil => exact ⟨0, fun _ _ => trivial⟩
  | cons t rest ih =>
    -- What is enough for the next frontier is known first, then what is for the others.
    have hhalts : Halts fun n => nextFrontier net exit n f t.type := nextFrontier_halts h f t.type
    obtain ⟨n, hn⟩ := hhalts
    have heq (fuel : Nat) (hf : fuel ≥ n) :=
      (nextFrontier_isFueled net exit f t.type).eq_of_le hn hf
    cases hr : nextFrontier net exit n f t.type with
    | error fault =>
      refine ⟨n, fun fuel hf => ?_⟩
      rw [Suffices, heq fuel hf]
      exact ⟨hn, fun g hg => by rw [hr] at hg; cases hg⟩
    | ok g =>
      obtain ⟨m, hm⟩ := ih g
      refine ⟨max n m, fun fuel hf => ?_⟩
      rw [Suffices, heq fuel ((le_max_left n m).trans hf)]
      refine ⟨hn, fun g' hg' => ?_⟩
      rw [hr] at hg'
      cases hg'
      exact hm fuel ((le_max_right n m).trans hf)

namespace Setting

variable (setting : Setting σ) (fuel : Nat) (options : PredictOptions)

/-- Some fuel is enough for every frontier of a prediction. -/
def HasFuel : Prop :=
  startFrontier setting.grammar.toNetwork setting.exit fuel setting.decision setting.outer ≠
      .error .outOfFuel ∧
    ∀ f, startFrontier setting.grammar.toNetwork setting.exit fuel setting.decision setting.outer =
      .ok f → Suffices setting.grammar.toNetwork setting.exit fuel setting.input.ahead f

/-- Without left recursion, there is fuel enough for a prediction. -/
theorem exists_hasFuel (h : ¬setting.grammar.toNetwork.IsLeftRecursive) :
    ∃ n, ∀ fuel ≥ n, setting.HasFuel fuel := by
  have hhalts : Halts fun n => startFrontier setting.grammar.toNetwork setting.exit n
    setting.decision setting.outer := startFrontier_halts h _ _
  obtain ⟨n, hn⟩ := hhalts
  have heq (fuel : Nat) (hf : fuel ≥ n) := (startFrontier_isFueled setting.grammar.toNetwork
    setting.exit setting.decision setting.outer).eq_of_le hn hf
  cases hr : startFrontier setting.grammar.toNetwork setting.exit n setting.decision
    setting.outer with
  | error fault =>
    refine ⟨n, fun fuel hf => ?_⟩
    rw [HasFuel, heq fuel hf]
    exact ⟨hn, fun f hff => by rw [hr] at hff; cases hff⟩
  | ok f =>
    obtain ⟨m, hm⟩ := exists_suffices setting.exit h setting.input.ahead f
    refine ⟨max n m, fun fuel hf => ?_⟩
    rw [HasFuel, heq fuel ((le_max_left n m).trans hf)]
    refine ⟨hn, fun f' hff => ?_⟩
    rw [hr] at hff
    cases hff
    exact hm fuel ((le_max_right n m).trans hf)

/-- How much fuel is enough depends neither on the current invocation nor on the
    number of the decision. -/
theorem HasFuel.of_eq {setting setting' : Setting σ} {fuel : Nat} (h : setting.HasFuel fuel)
    (hg : setting'.grammar = setting.grammar) (hx : setting'.exit = setting.exit)
    (hd : setting'.decision = setting.decision) (ho : setting'.outer = setting.outer)
    (hi : setting'.input = setting.input) : setting'.HasFuel fuel := by
  rw [HasFuel, hg, hx, hd, ho, hi]
  exact h

/-! ## Simulation -/

/-- Moves from a frontier over the tokens ahead until the decision is settled. -/
def simulateFrom : List Token → Bool → Frontier → Nat → Nat →
    Effect (Hearing σ) (Outcome × Nat × Nat)
  | tokens, afterEnd, f, stop, lookahead => do
    match ← setting.settle (.ofFrontier setting.exit afterEnd f) with
    | some outcome => return (outcome, stop, lookahead)
    | none =>
      if options.stops lookahead then return (.aborted, stop, lookahead)
      else
        match tokens with
        | [] => throw .outOfFuel
        | token :: rest =>
          let g ← Effect.ofExcept
            (nextFrontier setting.grammar.toNetwork setting.exit fuel f token.type)
          simulateFrom rest (token.type == Token.endOfInput) g token.index (lookahead + 1)

/-- Makes a prediction without an automaton. -/
def simulate : Effect (Hearing σ) (Outcome × Nat × Nat) := do
  let f ← Effect.ofExcept
    (startFrontier setting.grammar.toNetwork setting.exit fuel setting.decision setting.outer)
  setting.simulateFrom fuel options setting.input.ahead false f setting.input.position 0

/-- Whether a cache is used makes no difference where there is no automaton. -/
theorem simulateFrom_useCache (b : Bool) (tokens : List Token) (afterEnd : Bool) (f : Frontier)
    (stop lookahead : Nat) :
    setting.simulateFrom fuel { options with useCache := b } tokens afterEnd f stop lookahead =
      setting.simulateFrom fuel options tokens afterEnd f stop lookahead := by
  have hstops (k : Nat) : PredictOptions.stops { options with useCache := b } k = options.stops k :=
    rfl
  induction tokens generalizing afterEnd f stop lookahead with
  | nil => simp only [simulateFrom, hstops]
  | cons t rest ih => simp only [simulateFrom, hstops, ih]

theorem simulate_useCache (b : Bool) :
    setting.simulate fuel { options with useCache := b } = setting.simulate fuel options := by
  rw [simulate, simulate]
  exact bind_congr fun f => setting.simulateFrom_useCache fuel options b _ _ _ _ _

/-- Simulations from one frontier compare as the evaluations of the predicates do. -/
theorem simulateFrom_congr {τ : Type} {setting : Setting σ} {setting' : Setting τ}
    {R : ∀ ⦃α : Type⦄, Effect (Hearing σ) α → Effect (Hearing τ) α → Prop}
    (hR : Effect.IsCongruence R)
    (hexcept : ∀ {α : Type} (r : Except Fault α), R (Effect.ofExcept r) (Effect.ofExcept r))
    (h : ∀ p, R (setting.truth p) (setting'.truth p))
    (hnet : setting.grammar.toNetwork = setting'.grammar.toNetwork)
    (hexit : setting.exit = setting'.exit) (tokens : List Token) (afterEnd : Bool) (f : Frontier)
    (stop lookahead : Nat) :
    R (setting.simulateFrom fuel options tokens afterEnd f stop lookahead)
      (setting'.simulateFrom fuel options tokens afterEnd f stop lookahead) := by
  induction tokens generalizing afterEnd f stop lookahead with
  | nil =>
    rw [simulateFrom, simulateFrom, hexit]
    refine hR.bind (settle_congr hR h hexit _) fun outcome => ?_
    cases outcome with
    | some outcome => exact hR.pure _
    | none =>
      dsimp only
      split
      · exact hR.pure _
      · exact hexcept (.error _)
  | cons t rest ih =>
    rw [simulateFrom, simulateFrom, hexit]
    refine hR.bind (settle_congr hR h hexit _) fun outcome => ?_
    cases outcome with
    | some outcome => exact hR.pure _
    | none =>
      dsimp only
      split
      · exact hR.pure _
      · rw [hnet]
        exact hR.bind (hexcept _) fun g => ih _ g _ _

section

variable {setting : Setting σ} {fuel : Nat} {options : PredictOptions} {f : Frontier}
  {tokens : List Token} {stop lookahead : Nat} {hearing hearing' : Hearing σ} {afterEnd : Bool}

theorem simulateFrom_of_error {fault : Fault}
    (h : setting.settle (.ofFrontier setting.exit afterEnd f) hearing =
      (.error fault, hearing')) :
    setting.simulateFrom fuel options tokens afterEnd f stop lookahead hearing =
      (.error fault, hearing') := by
  cases tokens <;> rw [simulateFrom, bind_apply, h]

theorem simulateFrom_of_settled {outcome : Outcome}
    (h : setting.settle (.ofFrontier setting.exit afterEnd f) hearing =
      (.ok (some outcome), hearing')) :
    setting.simulateFrom fuel options tokens afterEnd f stop lookahead hearing =
      (.ok (outcome, stop, lookahead), hearing') := by
  cases tokens <;>
  · rw [simulateFrom, bind_apply, h]
    rfl

theorem simulateFrom_of_stops
    (h : setting.settle (.ofFrontier setting.exit afterEnd f) hearing = (.ok none, hearing'))
    (hstops : options.stops lookahead = true) :
    setting.simulateFrom fuel options tokens afterEnd f stop lookahead hearing =
      (.ok (.aborted, stop, lookahead), hearing') := by
  cases tokens <;>
  · rw [simulateFrom, bind_apply, h]
    dsimp only
    rw [if_pos hstops]
    rfl

/-- Where a frontier does not settle the decision, the next token is looked at. -/
theorem simulateFrom_of_open
    (h : setting.settle (.ofFrontier setting.exit afterEnd f) hearing = (.ok none, hearing'))
    (hstops : options.stops lookahead = false) :
    setting.simulateFrom fuel options tokens afterEnd f stop lookahead hearing =
      match tokens with
      | [] => (.error .outOfFuel, hearing')
      | t :: rest =>
        match nextFrontier setting.grammar.toNetwork setting.exit fuel f t.type with
        | .error fault => (.error fault, hearing')
        | .ok g => setting.simulateFrom fuel options rest (t.type == Token.endOfInput) g t.index
            (lookahead + 1) hearing' := by
  cases tokens with
  | nil =>
    rw [simulateFrom, bind_apply, h]
    dsimp only
    rw [hstops, if_neg Bool.false_ne_true, throw_apply]
  | cons t rest =>
    rw [simulateFrom, bind_apply, h]
    dsimp only
    rw [hstops, if_neg Bool.false_ne_true, bind_apply, Effect.ofExcept_apply]
    cases nextFrontier setting.grammar.toNetwork setting.exit fuel f t.type with
    | error fault => rfl
    | ok g => rfl

end

end Setting

end AdaptiveLL
