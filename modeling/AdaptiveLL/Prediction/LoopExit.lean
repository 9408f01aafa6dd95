import AdaptiveLL.Network.Basic
import AdaptiveLL.Prediction.Config

/-!
# Leaving non-greedy loops

The decision of a non-greedy loop never looks beyond the rule the loop is in.
Where a configuration comes to the end of the invocation that predicts
(`LoopExit.isAtEnd`), the alternative that leaves the loop has succeeded and is
taken at once, while the alternative that stays in it is dropped.
-/

namespace AdaptiveLL

/-- How a decision treats the end of its rule. -/
structure LoopExit where
  /-- Whether it decides on a non-greedy loop. -/
  active : Bool
  /-- The stop of its rule. -/
  ruleStop : StateId
  /-- The alternative that leaves the loop. -/
  alt : Int
deriving DecidableEq, Repr

namespace LoopExit

/-- How the decision at a state treats the end of its rule. -/
def ofState (net : Network) (s : State) : Except Fault LoopExit := do
  let rule ← net.rule s.rule
  let active := s.nonGreedy && decide (0 < s.exitAlt)
  return { active, ruleStop := rule.stop, alt := s.exitAlt }

variable (exit : LoopExit)

/-- Whether a configuration is at the end of the invocation that predicts, which
    must not be passed. -/
def isAtEnd (c : Config) : Bool :=
  exit.active && c.state == exit.ruleStop && c.depth == 0 && !c.left

/-- Whether a configuration leaves the loop; only such a one is kept at the end of
    the rule. -/
def isTakenBy (c : Config) : Bool :=
  c.alt == exit.alt

/-- The alternative that leaves the loop, if some configuration has come to the
    end of the rule by it. -/
def reached? (configs : List Config) : Option Int :=
  if configs.any fun c => exit.isTakenBy c && exit.isAtEnd c then some exit.alt else none

end LoopExit

end AdaptiveLL
