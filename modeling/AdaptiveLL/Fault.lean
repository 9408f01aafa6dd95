/-!
# Faults

What goes wrong while a grammar is in use: a value of the wrong kind, an
attribute or an object that does not exist, a failure raised by the grammar's
own predicates, actions and defaults, or a broken network. A fault is not a
syntax error in the input, which is a `Diagnostic`.

`Effect S` is the type of computations that change a state `S` and may end in a
fault; the state reached before the fault is kept.
-/

namespace AdaptiveLL

/-- A text up to its first NUL, which ends the text of every message. -/
def untilNul (s : String) : String :=
  .ofList (s.toList.takeWhile fun c => c != '\x00')

/-- The causes of a failure other than a syntax error in the input. -/
inductive Fault
  /-- A value is used as one of a kind it does not have. -/
  | wrongKind
  /-- A scope has no attribute of this name. -/
  | unknownAttribute (name : String)
  /-- A predicate needs something that does not exist yet. -/
  | unavailable (reason : String)
  /-- There is no token at distance zero. -/
  | zeroLookahead
  /-- An action asks for the last token before any was matched. -/
  | noToken
  /-- An action asks for the results of a rule that has not returned. -/
  | notReturned (rule : String)
  /-- A predicate, an action or a default gives up. -/
  | raised (message : String)
  /-- No state has this number. -/
  | invalidState (id : Int)
  /-- No rule has this number. -/
  | invalidRule (id : Int)
  /-- No decision has this number. -/
  | invalidDecision (id : Int)
  /-- No predicate has this number. -/
  | invalidPredicate (index : Int)
  /-- No action has this number. -/
  | invalidAction (index : Int)
  /-- A prediction is asked for at a state that has a single way on. -/
  | notADecision (id : Int)
  /-- No rule has the name the parse is to start with. -/
  | unknownStart (name : String)
  /-- A rule returns, but none has been entered. -/
  | emptyStack
  /-- The current invocation is asked for, but no rule has been entered. -/
  | noInvocation
  /-- A parse arrives at a state that no transition leaves. -/
  | deadEnd (id : Int)
  /-- The fuel granted to a search or a parse is used up. -/
  | outOfFuel
deriving DecidableEq, Repr

/-- The wording of a fault. -/
def Fault.wording : Fault → String
  | .wrongKind => "Value of another kind"
  | .unknownAttribute name => "Unknown attribute: " ++ name
  | .unavailable reason => reason
  | .zeroLookahead => "LT(0) is undefined"
  | .noToken => "no token has been matched yet"
  | .notReturned rule => "rule '" ++ rule ++ "' has not returned in this invocation"
  | .raised message => message
  | .invalidState id => "Invalid state id: " ++ toString id
  | .invalidRule id => "Invalid rule id: " ++ toString id
  | .invalidDecision id => "Invalid decision: " ++ toString id
  | .invalidPredicate index => "Invalid predicate: " ++ toString index
  | .invalidAction index => "Invalid action: " ++ toString index
  | .notADecision id => "State " ++ toString id ++ " is not a decision state"
  | .unknownStart name => "Unknown start rule: " ++ name
  | .emptyStack => "exit() on an empty rule context stack"
  | .noInvocation => "no active rule invocation"
  | .deadEnd id => "State " ++ toString id ++ " has no outgoing transition"
  | .outOfFuel => "out of fuel"

/-- The message of a fault. -/
def Fault.message (fault : Fault) : String :=
  untilNul fault.wording

/-- Computations on a state `S` that may end in a fault, keeping the state they
    have reached. -/
abbrev Effect (S : Type) := ExceptT Fault (StateM S)

namespace Effect

variable {S T α : Type}

/-- Runs a computation that can fail but changes nothing. -/
def ofExcept (r : Except Fault α) : Effect S α :=
  fun s => (r, s)

/-- Runs a computation on a part of the state. -/
def zoom (get : S → T) (put : T → S → S) (e : Effect T α) : Effect S α :=
  fun s => let (r, t) := e (get s); (r, put t s)

end Effect

end AdaptiveLL
