import AdaptiveLL.Network.Basic
import AdaptiveLL.Prediction.Verdict
import AdaptiveLL.Token.Input

/-!
# Predictions

A `Prediction` says which alternative a decision takes, or why it takes none
(`Outcome`), and how far ahead it had to look.
-/

namespace AdaptiveLL

/-- What a prediction comes to. -/
inductive Outcome
  /-- One alternative is left. -/
  | predicted (alt : Int)
  /-- Several alternatives cannot be told apart, and the least of them is taken. -/
  | ambiguous (alt : Int) (alts : List Int)
  /-- No alternative is possible on this input. -/
  | noViableAlt
  /-- Predicates rule out every alternative, or the one that would be taken
      depends on a predicate that cannot be evaluated. -/
  | failedPredicate (predicate : Option Int)
  /-- The prediction was cancelled, or was to look further than allowed. -/
  | aborted
deriving DecidableEq, Repr

namespace Outcome

/-- The name of an outcome. -/
def name : Outcome → String
  | predicted _ => "PREDICTED"
  | ambiguous .. => "AMBIGUOUS"
  | noViableAlt => "NO_VIABLE_ALT"
  | failedPredicate _ => "FAILED_PREDICATE"
  | aborted => "ABORTED"

/-- The alternative that is taken. -/
def alt? : Outcome → Option Int
  | predicted alt => some alt
  | ambiguous alt _ => some alt
  | _ => none

/-- The outcome when a decision is settled. -/
def ofVerdict (v : Verdict) : Outcome :=
  if v.isAmbiguous then ambiguous v.alt v.conflict else predicted v.alt

end Outcome

/-- What a prediction is made under. -/
structure PredictOptions where
  /-- Whether what is found out is remembered. -/
  useCache : Bool := true
  /-- How many tokens a prediction may look at; `0` for any number. -/
  limit : Nat := 0
  /-- Whether predictions are to be given up. -/
  cancelled : Bool := false

/-- Whether a prediction that has looked at some tokens is to be given up. -/
def PredictOptions.stops (options : PredictOptions) (lookahead : Nat) : Bool :=
  options.cancelled || (decide (0 < options.limit) && decide (options.limit ≤ lookahead))

/-- What is predicted at a decision. -/
structure Prediction where
  outcome : Outcome
  decision : Int
  /-- The rule that the decision belongs to. -/
  rule : RuleId
  /-- The place in the input that the prediction starts at. -/
  start : Nat
  /-- The place of the last token it looks at. -/
  stop : Nat
  /-- The number of tokens it looks at. -/
  lookahead : Nat
deriving DecidableEq, Repr

/-- The line on a prediction in a trace. -/
def Prediction.traceLine (p : Prediction) (net : Network) (input : Input) : String :=
  let rule := ((numbered? net.rules p.rule).map Rule.name).getD ""
  let alt := (p.outcome.alt?.map fun alt => " alt " ++ toString alt).getD ""
  "decision " ++ toString p.decision ++ " rule " ++ rule ++ " @" ++ toString p.start ++
  " '" ++ (input.get p.start).text ++ "' => " ++ p.outcome.name ++ alt ++
  " lookahead " ++ toString p.lookahead ++ "\n"

end AdaptiveLL
