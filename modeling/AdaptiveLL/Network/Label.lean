import AdaptiveLL.Ascending
import AdaptiveLL.Token.Basic

/-!
# Transitions

A transition of the network leads to a state under a `Label`. A label either
*consumes* a token of a type it matches, or is *free*: an empty step, a call of
a rule, a predicate or an action.
-/

namespace AdaptiveLL

/-- The number of a state of a network. -/
abbrev StateId := Int

/-- The number of a rule of a network. -/
abbrev RuleId := Int

/-- What it takes to follow a transition. -/
inductive Label
  /-- Nothing. -/
  | epsilon
  /-- A token of one type. -/
  | atom (type : Int)
  /-- A token of a type between two bounds. -/
  | range (low high : Int)
  /-- A token of a type of an ascending list or, if negated, of none of them. -/
  | set (types : List Int) (negated : Bool)
  /-- Any token. -/
  | wildcard
  /-- A call of a rule, which returns to `follow`. -/
  | call (rule : RuleId) (follow : StateId)
  /-- A predicate that holds. -/
  | predicate (index : Int)
  /-- The execution of an action. -/
  | action (index : Int)
deriving DecidableEq, Repr

namespace Label

/-- Whether a transition is followed without consuming a token. -/
def isFree : Label → Bool
  | epsilon | call .. | predicate _ | action _ => true
  | atom _ | range .. | set .. | wildcard => false

/-- Whether a transition consumes a token of some type. Only a set or a range
    that names it, or a single type, matches the end of the input. -/
def accepts : Label → Int → Bool
  | atom type, t => type == t
  | range low high, t => decide (low ≤ t) && decide (t ≤ high)
  | set types false, t => types.contains t
  | set types true, t => t != Token.endOfInput && !types.contains t
  | wildcard, t => t != Token.endOfInput
  | _, _ => false

/-- The written form of a label. -/
def text : Label → String
  | epsilon => "ε"
  | atom type => toString type
  | range low high => toString low ++ ".." ++ toString high
  | set types negated =>
    (if negated then "~" else "") ++ "\x7b" ++ ",".intercalate (types.map toString) ++ "\x7d"
  | wildcard => "."
  | call rule follow => "rule " ++ toString rule ++ " follow " ++ toString follow
  | predicate index => "pred " ++ toString index
  | action index => "action " ++ toString index

/-- A label that matches a token is not free. -/
theorem isFree_eq_false_of_accepts {l : Label} {t : Int} (h : l.accepts t = true) :
    l.isFree = false := by
  cases l <;> simp_all [accepts, isFree]

end Label

/-- A way from a state to the next. -/
structure Transition where
  target : StateId
  label : Label
deriving DecidableEq, Repr

end AdaptiveLL
