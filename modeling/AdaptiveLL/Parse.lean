import AdaptiveLL.Diagnostic
import AdaptiveLL.Prediction.Trial

/-!
# Parsing

A parse walks through the network of a grammar from the start of a rule to its
stop. At a decision it takes the alternative that is predicted; on its way it
consumes tokens, enters and leaves rules, evaluates predicates in earnest and
executes actions. It ends at the first error.

`Machine.step` is one step of the walk and `Machine.run` a number of them. The
walk through a network with a cycle that consumes nothing does not end, so it is
granted a number of steps. What a parse has consumed, written and found out is
kept even if a fault ends it.
-/

namespace AdaptiveLL

/-- What a parse is made under. -/
structure ParseOptions extends PredictOptions where
  /-- Whether ambiguities are reported. -/
  reportAmbiguities : Bool := false

/-- What a parse changes. -/
structure ParseState (σ : Type) where
  input : Input
  cache : Cache
  host : σ
  /-- The text that actions have written. -/
  out : String := ""
  /-- The predictions made, the last one first. -/
  predictions : List Prediction := []

/-- A parse that is under way. -/
structure Machine (σ : Type) extends ParseState σ where
  /-- The state of the network it has come to. -/
  state : StateId
  stack : Stack
  /-- The token consumed last. -/
  last : Option Token := none
  report : Report

/-- How a step of a parse ends. -/
inductive Progress
  /-- The parse goes on. -/
  | running
  /-- The rule it started with has returned. -/
  | returned (returns : Scope)
  /-- The input is rejected. -/
  | rejected

/-- What a parse comes to. -/
structure ParseOutcome where
  success : Bool
  /-- The returns of the rule it started with. -/
  returns : Scope := {}
  diagnostics : List Diagnostic

variable {σ : Type} (g : Grammar σ) (fuel : Nat) (options : ParseOptions)
  (vocabulary : Vocabulary)

/-- The written form of what a transition expects. -/
def Label.expected (vocabulary : Vocabulary) : Label → String
  | .atom type => vocabulary.nameOf type
  | label => label.text

namespace Machine

/-- Goes to a state. -/
def goto (id : StateId) : Effect (Machine σ) Progress := do
  modify fun m => { m with state := id }
  return .running

/-- Adds a diagnostic and rejects the input. -/
def reject (d : Except Fault Diagnostic) : Effect (Machine σ) Progress := do
  let d ← Effect.ofExcept d
  modify fun m => { m with report := m.report.add d }
  return .rejected

/-- Leaves the current invocation and goes where it returns to. -/
def leave : Effect (Machine σ) Progress := do
  let m ← get
  let frame ← Effect.ofExcept m.stack.top
  let (returns, stack) ← Effect.ofExcept m.stack.exit
  set { m with stack }
  if stack.frames.isEmpty then return .returned returns
  else goto (frame.follow.getD (-1))

/-- Predicts at the current state and reports on it: the index of the transition
    to take, if there is one. -/
def decide : Effect (Machine σ) (Option Nat) := do
  let m ← get
  let prediction ← Effect.zoom (fun m => (m.cache, m.host))
    (fun (cache, host) m => { m with cache, host })
    (g.predictAt fuel options.toPredictOptions m.state m.input m.stack)
  modify fun m => { m with predictions := prediction :: m.predictions }
  let (_, report) ← Effect.ofExcept (m.report.addPrediction g prediction m.input)
  modify fun m => { m with report }
  return prediction.outcome.alt?.map fun alt => (alt - 1).toNat

/-- Follows a transition from a state of a rule. -/
def take (rule : RuleId) (t : Transition) : Effect (Machine σ) Progress := do
  let m ← get
  match t.label with
  | .epsilon => goto t.target
  | .predicate index =>
    let predicate ← Effect.ofExcept (g.predicate index)
    let truth ← Effect.zoom (fun m => (m.stack, m.host))
      (fun (stack, host) m => { m with stack, host })
      (Stack.commit predicate m.input m.input.position)
    if truth = .holds then goto t.target
    else reject (Diagnostic.ofPredicate g rule index m.input m.input.position)
  | .action index =>
    let action ← Effect.ofExcept (g.action index)
    Effect.zoom (fun m => (m.stack, m.out, m.host))
      (fun (stack, out, host) m => { m with stack, out, host })
      (Stack.perform action m.last)
    goto t.target
  | .call callee follow =>
    let stack ← Effect.zoom (fun m => m.host) (fun host m => { m with host })
      (g.enter m.stack callee (some follow) m.input.position)
    modify fun m => { m with stack }
    goto t.target
  | label =>
    let token := m.input.current
    if label.accepts token.type then
      modify fun m => { m with last := some token, input := m.input.consume }
      goto t.target
    else reject (Diagnostic.ofMismatch g rule (label.expected vocabulary) token)

/-- Makes one step of a parse. -/
def step : Effect (Machine σ) Progress := do
  let id := (← get).state
  let s ← Effect.ofExcept (g.state id)
  if s.kind = .ruleStop then leave
  else
    let index ← if s.decision.isSome then decide g fuel options else pure (some 0)
    match index with
    | none => return .rejected
    | some index =>
      match s.transitions[index]? with
      | none => throw (.deadEnd id)
      | some t => take g vocabulary s.rule t

/-- Makes the steps of a parse up to its end: the returns of the rule it started
    with, unless the input is rejected. -/
def run : Nat → Effect (Machine σ) (Option Scope)
  | 0 => throw .outOfFuel
  | steps + 1 => do
    match ← step g fuel options vocabulary with
    | .running => run steps
    | .returned returns => return some returns
    | .rejected => return none

end Machine

/-- Parses the input with a rule. -/
def Grammar.parse (start : String) : Effect (ParseState σ) ParseOutcome := do
  match g.findRule? start with
  | none => throw (.unknownStart start)
  | some id =>
    let rule ← Effect.ofExcept (g.rule id)
    let s ← get
    let stack ← Effect.zoom (fun s => s.host) (fun host s => { s with host })
      (g.enter {} id none s.input.position)
    let report : Report := { ambiguities := options.reportAmbiguities }
    let finished : Effect (Machine σ) ParseOutcome := do
      let returns ← Machine.run g fuel options vocabulary fuel
      let report := (← get).report
      return { success := returns.isSome && !report.hasErrors, returns := returns.getD {},
               diagnostics := report.diagnostics }
    Effect.zoom (fun s => { s with state := rule.start, stack, report })
      (fun m _ => m.toParseState) finished

end AdaptiveLL
