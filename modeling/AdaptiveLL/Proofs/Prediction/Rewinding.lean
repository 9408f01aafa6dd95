import AdaptiveLL.Grammar.Body
import AdaptiveLL.Proofs.Prediction.Persistence
import AdaptiveLL.Proofs.Token.Moves

/-!
# Predictions that move the input

A prediction can also be made by moving the input itself: the current token is read and then
consumed (`Setting.followMoving`), and when the prediction ends, by a result or by a fault, the
input goes back to the mark that was set when it began (`rewinding`). Of the token it stands
before, an input knows where it is, so this is the same prediction
(`Setting.followMoving_eq`), and what it changes is the cache and the host:

* going back is exact, as the inputs that are in use never stand behind their last token
  (`Input.IsInUse.seek_position`);
* at whatever token it ends, nothing is lost from the automaton (`followMoving_keeps`);
* hence a prediction has no effect but that one automaton grows
  (`Grammar.predictMoving_onlyGrowsCache`).
-/

namespace AdaptiveLL

variable {σ : Type}

/-- What is ahead is the current token, and then nothing or what is ahead once it is consumed. -/
theorem Input.IsEnded.of_ahead {s : Input} (h : s.IsEnded) {t : Token} {rest : List Token}
    (hahead : s.ahead = t :: rest) : t = s.current ∧ (rest = [] ∨ rest = s.consume.ahead) := by
  rw [h.ahead_eq] at hahead
  split at hahead
  · obtain ⟨rfl, rfl⟩ := List.cons.inj hahead
    exact ⟨rfl, .inl rfl⟩
  · obtain ⟨rfl, rfl⟩ := List.cons.inj hahead
    exact ⟨rfl, .inr rfl⟩

/-! ## The prediction -/

/-- Where a prediction is made, with what it can change. -/
structure Standpoint (σ : Type) where
  input : Input
  stack : Stack
  cache : Cache
  host : σ

/-- What changes during a prediction that moves the input. -/
structure MovingTrial (σ : Type) extends Trial σ where
  input : Input

/-- Goes back to the place of the input before a computation, however it ends. -/
def rewinding {α : Type} (e : Effect (Standpoint σ) α) : Effect (Standpoint σ) α :=
  fun s => ((e s).1, { (e s).2 with input := (e s).2.input.seek s.input.position })

namespace Setting

variable (setting : Setting σ) (fuel : Nat) (options : PredictOptions)

/-- Follows the automaton from a node, reading and consuming token by token, until the decision
    is settled, over at most some number of tokens. The predicates are told of the place that the
    prediction starts at, and not of that the input has been moved to. -/
def followMoving : Nat → Nat → Nat → Nat → Effect (MovingTrial σ) (Outcome × Nat × Nat)
  | steps, id, stop, lookahead => do
    let node := (← get).automaton.node id
    match ← Effect.zoom (fun moving => moving.toHearing)
        (fun hearing moving => { moving with toHearing := hearing }) (setting.settle node) with
    | some outcome => return (outcome, stop, lookahead)
    | none =>
      if options.stops lookahead then return (.aborted, stop, lookahead)
      else
        match steps with
        | 0 => throw .outOfFuel
        | steps + 1 =>
          let input := (← get).input
          let target ← Effect.zoom MovingTrial.toTrial
            (fun trial moving => { moving with toTrial := trial })
            (setting.next fuel id input.current.type)
          modify fun moving => { moving with input := moving.input.consume }
          followMoving steps target input.position (lookahead + 1)

/-- Makes a prediction with an automaton, moving the input. -/
def runMoving (steps : Nat) : Effect (MovingTrial σ) (Outcome × Nat × Nat) := do
  let id ← Effect.zoom MovingTrial.toTrial
    (fun trial moving => { moving with toTrial := trial }) (setting.start fuel)
  setting.followMoving fuel options steps id setting.input.position 0

end Setting

/-- Predicts at a state that decides by moving the input, over at most some number of tokens. -/
def Grammar.predictMoving (g : Grammar σ) (fuel : Nat) (options : PredictOptions) (steps : Nat)
    (id : StateId) : Effect (Standpoint σ) Prediction := do
  let s ← get
  let setting ← Effect.ofExcept (g.setting id s.input s.stack)
  let automaton ← Effect.ofExcept (options.automaton s.cache setting.number id)
  let (outcome, stop, lookahead) ← rewinding (Effect.zoom
    (fun s => { automaton, host := s.host, input := s.input })
    (fun moving s =>
      { s with
        input := moving.input
        cache := if options.useCache then s.cache.update setting.number moving.automaton
          else s.cache
        host := moving.host })
    (setting.runMoving fuel options steps))
  return { outcome, decision := setting.number, rule := setting.decision.rule,
           start := s.input.position, stop, lookahead }

namespace Setting

variable {setting : Setting σ} {fuel : Nat} {options : PredictOptions}

/-- From one point of a prediction to another, the tokens of the input have stayed as they are and
    nothing has been lost from the automaton. -/
structure Keeps (moving moving' : MovingTrial σ) : Prop where
  tokens : moving'.input.tokens = moving.input.tokens
  automaton : moving.automaton.GrowsInto moving'.automaton

theorem followMoving_keeps (steps id stop lookahead : Nat) (moving : MovingTrial σ) :
    Keeps moving (setting.followMoving fuel options steps id stop lookahead moving).2 := by
  induction steps generalizing id stop lookahead moving with
  | zero =>
    rw [followMoving, bind_apply, get_apply]
    refine of_bind (P := Keeps moving) ⟨rfl, .refl _⟩ fun settled moving' _ h => ?_
    cases settled with
    | some outcome => exact h
    | none =>
      dsimp only
      split <;> exact h
  | succ steps ih =>
    rw [followMoving, bind_apply, get_apply]
    refine of_bind (P := Keeps moving) ⟨rfl, .refl _⟩ fun settled moving' _ h => ?_
    cases settled with
    | some outcome => exact h
    | none =>
      dsimp only
      split
      · exact h
      rw [bind_apply, get_apply]
      refine of_bind (P := Keeps moving) ⟨h.tokens, h.automaton.trans (next_growsInto _ _ _)⟩
        fun target moving'' _ h' => ?_
      rw [bind_apply, modify_apply]
      obtain ⟨htokens, hgrows⟩ := ih target moving'.input.position (lookahead + 1)
        { moving'' with input := moving''.input.consume }
      exact ⟨htokens.trans ((Input.tokens_consume _).trans h'.tokens), h'.automaton.trans hgrows⟩

/-- To look at the tokens ahead is to move the input over them. At the last token, the input stays
    where it is, but then no token is ahead. -/
theorem followMoving_eq {tokens : List Token} {id stop lookahead : Nat} {moving : MovingTrial σ}
    (h : tokens = [] ∨
      tokens = moving.input.ahead ∧ moving.input.IsEnded ∧ moving.input.IsNumbered) :
    setting.follow fuel options tokens id stop lookahead moving.toTrial =
      ((setting.followMoving fuel options tokens.length id stop lookahead moving).1,
        (setting.followMoving fuel options tokens.length id stop lookahead moving).2.toTrial) := by
  induction tokens generalizing id stop lookahead moving with
  | nil =>
    rw [follow, List.length_nil, followMoving, bind_apply, get_apply, bind_apply, get_apply]
    dsimp only
    rw [bind_apply, Effect.zoom_apply, bind_apply, Effect.zoom_apply]
    rcases setting.settle (moving.automaton.node id) moving.toHearing with
      ⟨fault | (_ | outcome), hearing⟩
    · rfl
    · dsimp only
      split <;> rfl
    · rfl
  | cons t rest ih =>
    obtain h | ⟨hahead, hended, hnumbered⟩ := h
    · cases h
    obtain ⟨rfl, hrest⟩ := hended.of_ahead hahead.symm
    rw [follow, List.length_cons, followMoving, bind_apply, get_apply, bind_apply, get_apply]
    dsimp only
    rw [bind_apply, Effect.zoom_apply, bind_apply, Effect.zoom_apply]
    rcases setting.settle (moving.automaton.node id) moving.toHearing with
      ⟨fault | (_ | outcome), hearing⟩
    · rfl
    · dsimp only
      split
      · rfl
      rw [bind_apply, bind_apply, get_apply]
      dsimp only
      rw [bind_apply, Effect.zoom_apply]
      dsimp only
      rcases setting.next fuel id moving.input.current.type
        { moving.toTrial with toHearing := hearing } with ⟨fault | target, trial⟩
      · rfl
      · dsimp only
        rw [bind_apply, modify_apply, hnumbered.index_current hended]
        let moving' : MovingTrial σ := { toTrial := trial, input := moving.input.consume }
        have hmoved : rest = [] ∨
            rest = moving'.input.ahead ∧ moving'.input.IsEnded ∧ moving'.input.IsNumbered :=
          hrest.imp_right fun hrest =>
            ⟨hrest, hended.consume, hnumbered.of_tokens (Input.tokens_consume _)⟩
        exact ih hmoved
    · rfl

/-- A prediction that moves the input over all tokens ahead is the one that looks at them. -/
theorem runMoving_eq {moving : MovingTrial σ} (hinput : moving.input = setting.input)
    (h : setting.input.IsInUse) :
    setting.run fuel options moving.toTrial =
      ((setting.runMoving fuel options setting.input.ahead.length moving).1,
        (setting.runMoving fuel options setting.input.ahead.length moving).2.toTrial) := by
  obtain ⟨hended, _, hnumbered⟩ := h.isEnded
  rw [run, bind_apply, runMoving, bind_apply, Effect.zoom_apply]
  rcases setting.start fuel moving.toTrial with ⟨fault | id, trial⟩
  · rfl
  · let moving' : MovingTrial σ := { moving with toTrial := trial }
    have hmoved : setting.input.ahead = [] ∨
        setting.input.ahead = moving'.input.ahead ∧ moving'.input.IsEnded ∧
          moving'.input.IsNumbered :=
      .inr ⟨congrArg Input.ahead hinput.symm, hinput.symm ▸ hended, hinput.symm ▸ hnumbered⟩
    exact followMoving_eq hmoved

theorem runMoving_keeps (steps : Nat) (moving : MovingTrial σ) :
    Keeps moving (setting.runMoving fuel options steps moving).2 := by
  refine of_bind (P := Keeps moving) ⟨rfl, start_growsInto _⟩ fun id moving' _ h => ?_
  obtain ⟨htokens, hgrows⟩ := followMoving_keeps steps id setting.input.position 0 moving'
  exact ⟨htokens.trans h.tokens, h.automaton.trans hgrows⟩

end Setting

/-! ## What it changes -/

/-- Of two standpoints, the second one differs from the first one in the host, and in what has
    been added to the automaton of the decision of a state, if the options are to remember it. -/
structure Standpoint.OnlyGrowsCache (g : Grammar σ) (options : PredictOptions) (id : StateId)
    (s s' : Standpoint σ) : Prop where
  input : s'.input = s.input
  stack : s'.stack = s.stack
  cache : s.cache.GrowsInto s'.cache
  /-- The automaton of every other decision stays as it is. -/
  others : ∀ i : Nat, (∀ state, g.state id = .ok state → state.decision ≠ some i) →
    s'.cache.automata[i]? = s.cache.automata[i]?
  unused : options.useCache = false → s'.cache = s.cache

namespace Grammar

variable {g : Grammar σ} {fuel steps : Nat} {options : PredictOptions} {id : StateId}
  {s : Standpoint σ}

theorem predictMoving_of_error {fault : Fault} (h : g.setting id s.input s.stack = .error fault) :
    g.predictMoving fuel options steps id s = (.error fault, s) := by
  rw [predictMoving, bind_apply, get_apply]
  dsimp only
  rw [bind_apply, Effect.ofExcept_apply, h]

theorem predictMoving_of_automaton_error {setting : Setting σ} {fault : Fault}
    (h : g.setting id s.input s.stack = .ok setting)
    (ha : options.automaton s.cache setting.number id = .error fault) :
    g.predictMoving fuel options steps id s = (.error fault, s) := by
  rw [predictMoving, bind_apply, get_apply]
  dsimp only
  rw [bind_apply, Effect.ofExcept_apply, h]
  dsimp only
  rw [bind_apply, Effect.ofExcept_apply, ha]

/-- A prediction that moves the input, with an automaton. -/
theorem predictMoving_of_ok {setting : Setting σ} {a : Automaton} (hinput : s.input.IsInUse)
    (h : g.setting id s.input s.stack = .ok setting)
    (ha : options.automaton s.cache setting.number id = .ok a) :
    g.predictMoving fuel options steps id s =
      ((setting.runMoving fuel options steps
          { automaton := a, host := s.host, input := s.input }).1.map
          fun (outcome, stop, lookahead) =>
            { outcome, decision := setting.number, rule := setting.decision.rule,
              start := s.input.position, stop, lookahead },
        { s with
          cache := if options.useCache then
              s.cache.update setting.number (setting.runMoving fuel options steps
                { automaton := a, host := s.host, input := s.input }).2.automaton
            else s.cache
          host := (setting.runMoving fuel options steps
            { automaton := a, host := s.host, input := s.input }).2.host }) := by
  have hkeeps : Setting.Keeps { automaton := a, host := s.host, input := s.input }
      (setting.runMoving fuel options steps
        { automaton := a, host := s.host, input := s.input }).2 :=
    Setting.runMoving_keeps steps _
  rw [predictMoving, bind_apply, get_apply]
  dsimp only
  rw [bind_apply, Effect.ofExcept_apply, h]
  dsimp only
  rw [bind_apply, Effect.ofExcept_apply, ha]
  dsimp only
  rw [bind_apply, rewinding, Effect.zoom_apply]
  dsimp only
  rw [hinput.seek_position hkeeps.tokens]
  rcases setting.runMoving fuel options steps
    { automaton := a, host := s.host, input := s.input } with
    ⟨fault | ⟨outcome, stop, lookahead⟩, moving⟩
  · rfl
  · rfl

/-- A prediction has no effect but that the host sees its predicates and that the automaton of
    its decision grows, whether it comes to a result or to a fault, and after however many tokens.
    Over all tokens ahead it is the prediction that only looks at them. -/
theorem predictMoving_onlyGrowsCache (g : Grammar σ) (fuel : Nat) (options : PredictOptions)
    (steps : Nat) (id : StateId) (s : Standpoint σ) (hinput : s.input.IsInUse) :
    s.OnlyGrowsCache g options id (g.predictMoving fuel options steps id s).2 ∧
      (steps = s.input.ahead.length →
        g.predictAt fuel options id s.input s.stack (s.cache, s.host) =
          ((g.predictMoving fuel options steps id s).1,
            (g.predictMoving fuel options steps id s).2.cache,
            (g.predictMoving fuel options steps id s).2.host)) := by
  cases hs : g.setting id s.input s.stack with
  | error fault =>
    rw [predictMoving_of_error hs, predictAt_of_error hs]
    exact ⟨⟨rfl, rfl, .refl _, fun _ _ => rfl, fun _ => rfl⟩, fun _ => rfl⟩
  | ok setting =>
    cases ha : options.automaton s.cache setting.number id with
    | error fault =>
      rw [predictMoving_of_automaton_error hs ha, predictAt_of_automaton_error hs ha]
      exact ⟨⟨rfl, rfl, .refl _, fun _ _ => rfl, fun _ => rfl⟩, fun _ => rfl⟩
    | ok a =>
      obtain ⟨_, hstate, hnumber, _, _, hsame⟩ := setting_eq_ok hs
      have hkeeps : Setting.Keeps { automaton := a, host := s.host, input := s.input }
          (setting.runMoving fuel options steps
            { automaton := a, host := s.host, input := s.input }).2 :=
        Setting.runMoving_keeps steps _
      rw [predictMoving_of_ok hinput hs ha]
      refine ⟨⟨rfl, rfl, ?_, fun i hi => ?_, fun huse => ?_⟩, ?_⟩
      · dsimp only
        split
        · next huse =>
          rw [PredictOptions.automaton, if_pos huse, Cache.automaton_eq] at ha
          exact Cache.growsInto_update ha hkeeps.automaton
        · exact .refl _
      · dsimp only
        split
        · exact Cache.getElem?_update_of_ne
            (fun heq => hi _ hstate (hnumber.trans (congrArg some heq))) _
        · rfl
      · dsimp only
        rw [huse]
        rfl
      · rintro rfl
        let moving : MovingTrial σ := { automaton := a, host := s.host, input := s.input }
        have heq : setting.run fuel options moving.toTrial =
            ((setting.runMoving fuel options setting.input.ahead.length moving).1,
              (setting.runMoving fuel options setting.input.ahead.length moving).2.toTrial) :=
          Setting.runMoving_eq hsame.symm (hsame ▸ hinput)
        rw [hsame] at heq
        rw [predictAt_of_ok hs ha, heq]

/-- A rule whose first alternative needs one of two predicates: the first one cannot be
    evaluated, the second one gives up. -/
def raising : Grammar Unit :=
  ((ofRules [{ name := "r", body := .block [
    .sequence [
      .block [.predicate { text := "p", test := some fun _ => throw (.unavailable "p") },
        .predicate { text := "q", test := some fun _ => throw (.raised "q") }],
      .token 1, .token 3],
    .sequence [.token 1, .token 4]] }]).toOption).getD {}

/-- Before the second of three tokens, with nothing known. -/
def raisingStandpoint : Standpoint Unit :=
  { input := (Input.ofTypes [2, 1, 3]).consume, stack := {},
    cache := .ofNetwork raising.toNetwork, host := () }

/-- The second predicate is not needed before two tokens are consumed and three nodes added, and
    then ends the prediction. -/
theorem raising_onlyGrowsCache : raisingStandpoint.input.IsInUse ∧
    raisingStandpoint.OnlyGrowsCache raising {} 16
      (raising.predictMoving 30 {} 3 16 raisingStandpoint).2 ∧
    (raising.predictMoving 30 {} 3 16 raisingStandpoint).1 = .error (.raised "q") ∧
    ((raising.predictMoving 30 {} 3 16 raisingStandpoint).2.cache.automata.toList.map fun a =>
      a.nodes.size) = [0, 3] := by
  have hinput : raisingStandpoint.input.IsInUse := (Input.IsInUse.ofTypes [2, 1, 3]).consume
  refine ⟨hinput, ?_, by decide +kernel⟩
  exact (predictMoving_onlyGrowsCache raising 30 {} 3 16 raisingStandpoint hinput).1

end Grammar

end AdaptiveLL
