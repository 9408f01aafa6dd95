import AdaptiveLL.Grammar.Basic
import AdaptiveLL.Prediction.Basic
import AdaptiveLL.Prediction.Cache
import AdaptiveLL.Prediction.Closure

/-!
# Making predictions

A prediction follows the automaton of a decision over the tokens ahead until a
node settles the decision (`Setting.follow`), and computes the nodes and edges
that are not there yet. The input is only looked at, and so is the stack of
invocations.

In a node that depends on predicates, the configurations whose guards cannot
hold are dropped first (`Setting.settle`). Predicates are evaluated where the
prediction starts, speculatively, in the current invocation, and each at most
once in a prediction; one that cannot be evaluated rules nothing out, but an
alternative that depends on it cannot be taken.

`Grammar.predictAt` predicts with the automaton kept in a cache, or with a new
one. What the automaton has grown by is kept even if a predicate ends the
prediction by a fault.
-/

namespace AdaptiveLL

variable {σ : Type}

/-- What does not change during a prediction. -/
structure Setting (σ : Type) where
  grammar : Grammar σ
  /-- The state that decides. -/
  decision : State
  /-- Its number as a decision. -/
  number : Nat
  exit : LoopExit
  /-- The current invocation, if there is one. -/
  frame : Option Frame
  /-- The states that the current invocation and its callers return to. -/
  outer : List StateId
  input : Input

/-- What is found out by evaluating predicates. -/
structure Hearing (σ : Type) where
  /-- What the predicates that have been evaluated come to, the last one first. -/
  truths : List (Int × Truth) := []
  host : σ

/-- What changes during a prediction. -/
structure Trial (σ : Type) extends Hearing σ where
  automaton : Automaton

namespace Setting

variable (setting : Setting σ)

/-- What a predicate comes to, evaluated now. -/
def evaluate (p : Int) : Effect (Hearing σ) Truth := do
  let predicate ← Effect.ofExcept (setting.grammar.predicate p)
  let truth ← Effect.zoom Hearing.host (fun host hearing => { hearing with host })
    (predicate.speculate setting.frame setting.input setting.input.position)
  modify fun hearing => { hearing with truths := (p, truth) :: hearing.truths }
  return truth

/-- What a predicate comes to; it is evaluated if it has not been so far. -/
def truth (p : Int) : Effect (Hearing σ) Truth := do
  match (← get).truths.lookup p with
  | some truth => return truth
  | none => setting.evaluate p

/-- Whether a predicate holds. -/
def passes (p : Int) : Effect (Hearing σ) Bool := do
  return (← setting.truth p) == .holds

/-- Whether a predicate holds or cannot be evaluated. -/
def mayHold (p : Int) : Effect (Hearing σ) Bool := do
  return (← setting.truth p) != .fails

/-- The configurations whose guards may hold. -/
def alive : List Config → Effect (Hearing σ) (List Config)
  | [] => return []
  | c :: rest => do
    let here ← c.guard.holdsM setting.mayHold
    let others ← alive rest
    return if here then c :: others else others

/-- The first predicate that does not hold. -/
def firstNotPassed : List Int → Effect (Hearing σ) (Option Int)
  | [] => return none
  | p :: rest => do
    if ← setting.passes p then firstNotPassed rest else return some p

/-- The first predicate that can neither hold nor fail. -/
def firstUnknown : List Int → Effect (Hearing σ) (Option Int)
  | [] => return none
  | p :: rest => do
    if (← setting.truth p) = .unknown then return some p else firstUnknown rest

/-- Whether the guard of some configuration holds. -/
def someHolds : List Config → Effect (Hearing σ) Bool
  | [] => return false
  | c :: rest => do
    if ← c.guard.holdsM setting.passes then return true else someHolds rest

/-- A predicate that cannot be evaluated and that an alternative depends on: one
    in the guard of its first configuration, if none of its guards holds. -/
def obstacle (configs : List Config) (alt : Int) : Effect (Hearing σ) (Option Int) :=
  match configs.filter fun c => c.alt == alt with
  | [] => return none
  | c :: rest => do
    if ← setting.someHolds (c :: rest) then return none
    else setting.firstUnknown c.guard.predicates

/-- What a node that depends on predicates settles the decision by. -/
def settleGuarded (node : Node) : Effect (Hearing σ) (Option Outcome) := do
  let configs ← setting.alive node.frontier.items
  if configs.isEmpty then
    let predicates := node.frontier.items.flatMap fun c => c.guard.predicates
    return some (.failedPredicate (← setting.firstNotPassed predicates))
  else
    match Verdict.ofConfigs? setting.exit node.afterEnd configs with
    | none => return none
    | some verdict =>
      match ← setting.obstacle configs verdict.alt with
      | some p => return some (.failedPredicate (some p))
      | none => return some (.ofVerdict verdict)

/-- What a node settles the decision by, if it does. -/
def settle (node : Node) : Effect (Hearing σ) (Option Outcome) :=
  if node.frontier.isEmpty then return some .noViableAlt
  else if node.guarded then setting.settleGuarded node
  else return node.verdict.map Outcome.ofVerdict

variable (fuel : Nat)

/-- The node that the prediction starts with, which is computed if need be. -/
def start : Effect (Trial σ) Nat := do
  let trial ← get
  match trial.automaton.start? setting.outer with
  | some id => return id
  | none =>
    let frontier ← Effect.ofExcept
      (startFrontier setting.grammar.toNetwork setting.exit fuel setting.decision
        setting.outer)
    let (id, automaton) := trial.automaton.addStart setting.outer
      (.ofFrontier setting.exit false frontier)
    set { trial with automaton }
    return id

/-- The node that a token leads to, which is computed if need be. -/
def next (id : Nat) (type : Int) : Effect (Trial σ) Nat := do
  let trial ← get
  match trial.automaton.edge? id type with
  | some target => return target
  | none =>
    let frontier ← Effect.ofExcept
      (nextFrontier setting.grammar.toNetwork setting.exit fuel
        (trial.automaton.node id).frontier type)
    let (target, automaton) := trial.automaton.addEdge id type
      (.ofFrontier setting.exit (type == Token.endOfInput) frontier)
    set { trial with automaton }
    return target

/-- Follows the automaton from a node over the tokens ahead until the decision is
    settled: the outcome, the place of the last token looked at and the number
    of tokens. A node behind the end of the input is always settled. -/
def follow (options : PredictOptions) :
    List Token → Nat → Nat → Nat → Effect (Trial σ) (Outcome × Nat × Nat)
  | tokens, id, stop, lookahead => do
    let node := (← get).automaton.node id
    match ← Effect.zoom Trial.toHearing (fun hearing trial => { trial with toHearing := hearing })
      (setting.settle node) with
    | some outcome => return (outcome, stop, lookahead)
    | none =>
      if options.stops lookahead then return (.aborted, stop, lookahead)
      else
        match tokens with
        | [] => throw .outOfFuel
        | token :: rest =>
          let target ← setting.next fuel id token.type
          follow options rest target token.index (lookahead + 1)

/-- Makes a prediction with an automaton. -/
def run (options : PredictOptions) : Effect (Trial σ) (Outcome × Nat × Nat) := do
  let id ← setting.start fuel
  setting.follow fuel options setting.input.ahead id setting.input.position 0

end Setting

/-- The automaton that a prediction is made with: the one that a cache keeps, or a
    new one if nothing is remembered. -/
def PredictOptions.automaton (options : PredictOptions) (cache : Cache) (number : Nat)
    (id : StateId) : Except Fault Automaton :=
  if options.useCache then cache.automaton number else .ok { decision := number, state := id }

namespace Grammar

variable (g : Grammar σ) (fuel : Nat) (options : PredictOptions)

/-- What a prediction at a state is made under, for the current invocation and the
    input ahead. -/
def setting (id : StateId) (input : Input) (stack : Stack) : Except Fault (Setting σ) := do
  let decision ← g.state id
  match decision.decision with
  | none => throw (.notADecision id)
  | some number =>
    let exit ← LoopExit.ofState g.toNetwork decision
    return { grammar := g, decision, number, exit, frame := stack.frames.head?,
             outer := stack.context, input }

/-- Predicts at a state that decides. -/
def predictAt (id : StateId) (input : Input) (stack : Stack) :
    Effect (Cache × σ) Prediction := do
  let setting ← Effect.ofExcept (g.setting id input stack)
  let automaton ← Effect.ofExcept (options.automaton (← get).1 setting.number id)
  let (outcome, stop, lookahead) ← Effect.zoom
    (fun (_, host) => { automaton, host })
    (fun trial (cache, _) =>
      (if options.useCache then cache.update setting.number trial.automaton else cache,
        trial.host))
    (setting.run fuel options)
  return { outcome, decision := setting.number, rule := setting.decision.rule,
           start := input.position, stop, lookahead }

/-- Predicts at a decision of a given number. -/
def predict (decision : Int) (input : Input) (stack : Stack) : Effect (Cache × σ) Prediction := do
  let id ← Effect.ofExcept (g.decisionState decision)
  g.predictAt fuel options id input stack

end Grammar

end AdaptiveLL
