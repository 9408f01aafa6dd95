import AdaptiveLL.Grammar.Basic
import AdaptiveLL.Prediction.Basic

/-!
# Diagnostics

What there is to say about the input of a parse: why a prediction takes no
alternative, that it is ambiguous, that a predicate does not hold or that a
token is not the one expected. A `Report` holds the diagnostics of a parse in the
order in which they arose; ambiguities are no errors, and are left out of it
unless they are asked for.
-/

namespace AdaptiveLL

/-- What a diagnostic is about. -/
inductive DiagnosticKind
  | noViableAlternative
  | failedPredicate
  | ambiguousAlternatives
  | predictionAborted
  | mismatchedInput
deriving DecidableEq, Repr

/-- The name of a kind of diagnostics. -/
def DiagnosticKind.name : DiagnosticKind → String
  | noViableAlternative => "NO_VIABLE_ALTERNATIVE"
  | failedPredicate => "FAILED_PREDICATE"
  | ambiguousAlternatives => "AMBIGUOUS_ALTERNATIVES"
  | predictionAborted => "PREDICTION_ABORTED"
  | mismatchedInput => "MISMATCHED_INPUT"

/-- Something to say about the input of a parse. -/
structure Diagnostic where
  kind : DiagnosticKind
  /-- The name of the rule it arises in. -/
  rule : String
  line : Nat
  column : Nat
  message : String
  /-- The alternatives that cannot be told apart. -/
  alternatives : List Int := []
  /-- The place in the input where the decision starts. -/
  start : Nat
  /-- The place in the input where it arises. -/
  stop : Nat
  /-- The text at fault. -/
  offending : String
deriving DecidableEq, Repr

namespace Diagnostic

/-- The line that a diagnostic is shown as. -/
def text (d : Diagnostic) : String :=
  "line " ++ toString d.line ++ ":" ++ toString d.column ++ " rule " ++ d.rule ++ " " ++ d.message

/-- Whether a diagnostic is an error. -/
def isError (d : Diagnostic) : Bool :=
  d.kind != .ambiguousAlternatives

/-- A diagnostic located at a token. -/
def atToken (kind : DiagnosticKind) (rule : String) (token : Token) (message : String)
    (start stop : Nat) : Diagnostic :=
  { kind, rule, line := token.line, column := token.column, message, start, stop,
    offending := token.shownText }

variable {σ : Type} (g : Grammar σ)

/-- What there is to say about a prediction. -/
def ofPrediction? (ambiguities : Bool) (p : Prediction) (input : Input) :
    Except Fault (Option Diagnostic) := do
  let rule ← g.rule p.rule
  match p.outcome with
  | .predicted _ => return none
  | .ambiguous _ alts =>
    if !ambiguities then return none
    let shown := "\x7b" ++ ", ".intercalate (alts.map toString) ++ "\x7d"
    let message :=
      "ambiguous alternatives " ++ shown ++ " at input '" ++ input.span p.start p.stop ++ "'"
    let d := atToken .ambiguousAlternatives rule.name (input.get p.start) message p.start p.stop
    return some { d with alternatives := alts, offending := (input.get p.stop).shownText }
  | .noViableAlt =>
    let message := "no viable alternative at input '" ++ input.span p.start p.stop ++ "'"
    return some
      (atToken .noViableAlternative rule.name (input.get p.stop) message p.start p.stop)
  | .failedPredicate predicate =>
    let message ← match predicate with
      | some index => (g.predicate index).map Predicate.failure
      | none => pure "failed predicate"
    return some (atToken .failedPredicate rule.name (input.get p.start) message p.start p.stop)
  | .aborted =>
    let message := "prediction aborted after " ++ toString p.lookahead ++ " lookahead symbols"
    return some (atToken .predictionAborted rule.name (input.get p.stop) message p.start p.stop)

/-- A predicate of a rule does not hold at a place where a parse crosses it. -/
def ofPredicate (rule : RuleId) (predicate : Int) (input : Input) (position : Nat) :
    Except Fault Diagnostic := do
  let p ← g.predicate predicate
  let rule ← g.rule rule
  return atToken .failedPredicate rule.name (input.get position) p.failure position position

/-- A token is not the one a rule expects. -/
def ofMismatch (rule : RuleId) (expected : String) (found : Token) : Except Fault Diagnostic := do
  let rule ← g.rule rule
  let message := "mismatched input '" ++ found.shownText ++ "' expecting " ++ expected
  return atToken .mismatchedInput rule.name found message found.index found.index

end Diagnostic

/-- The diagnostics of a parse. -/
structure Report where
  /-- Whether ambiguities are reported. -/
  ambiguities : Bool := false
  /-- The diagnostics in the order in which they arose. -/
  diagnostics : List Diagnostic := []

namespace Report

/-- Adds a diagnostic. -/
def add (r : Report) (d : Diagnostic) : Report :=
  { r with diagnostics := r.diagnostics ++ [d] }

/-- Whether there is an error among the diagnostics. -/
def hasErrors (r : Report) : Bool :=
  r.diagnostics.any Diagnostic.isError

/-- Adds what there is to say about a prediction: that, and the report. -/
def addPrediction {σ : Type} (r : Report) (g : Grammar σ) (p : Prediction) (input : Input) :
    Except Fault (Option Diagnostic × Report) := do
  match ← Diagnostic.ofPrediction? g r.ambiguities p input with
  | none => return (none, r)
  | some d => return (some d, r.add d)

end Report

end AdaptiveLL
