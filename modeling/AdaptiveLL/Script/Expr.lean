import AdaptiveLL.Grammar.Action
import AdaptiveLL.Grammar.Predicate
import AdaptiveLL.Grammar.Signature

/-!
# Scripted expressions

A small expression language for the predicates, the actions and the defaults of
a grammar, so that a grammar can be given as data. What an expression can ask for
depends on the `Place` it stands at. The host of a scripted grammar is a `Tally`:
a counter, and a record of the predicates that have been evaluated.
-/

namespace AdaptiveLL

/-- An evaluation of a predicate. -/
structure Evaluation where
  /-- The text of the predicate. -/
  text : String
  position : Nat
  speculative : Bool
deriving DecidableEq, Repr

/-- The host's state of a scripted grammar. -/
structure Tally where
  /-- The number that is counted next. -/
  counter : Nat := 0
  /-- The predicates evaluated, the last one first. -/
  evaluations : List Evaluation := []
deriving Repr

/-- Where an expression is evaluated. -/
inductive Place
  | predicate (scene : Scene)
  | action (scene : ActionScene)
  | default

/-- An expression of a script. -/
inductive Expr
  /-- A fixed value. -/
  | const (v : Value)
  /-- A local of the current invocation. -/
  | localOf (name : String)
  /-- A return of the current invocation. -/
  | returnOf (name : String)
  /-- A return of the last call of a rule. -/
  | childReturn (rule name : String)
  /-- The type of the token at a distance. -/
  | typeAt (distance : Int)
  /-- The text of the token at a distance. -/
  | textAt (distance : Int)
  /-- The place in the input. -/
  | position
  /-- Whether the locals must not be changed. -/
  | isSpeculative
  /-- Sets a local if that is allowed. -/
  | setLocal (name : String) (value : Expr)
  /-- The text of the token matched last. -/
  | lastText
  /-- The type of the token matched last. -/
  | lastType
  /-- The place of the token matched last. -/
  | lastIndex
  /-- The names of the locals. -/
  | localNames
  /-- The length of a list. -/
  | size (list : Expr)
  /-- The written form of a value. -/
  | textOf (value : Expr)
  | equal (a b : Expr)
  | unequal (a b : Expr)
  | less (a b : Expr)
  | greater (a b : Expr)
  /-- Whether both are true; the second is evaluated only if the first is. -/
  | both (a b : Expr)
  /-- Whether one is true; the second is evaluated only if the first is not. -/
  | either (a b : Expr)
  | negation (a : Expr)
  | sum (a b : Expr)
  /-- One list after the other. -/
  | concat (a b : Expr)
  /-- The next number of the counter. -/
  | count
  /-- Gives up. -/
  | raise (message : String)
  /-- Reports that something does not exist yet. -/
  | unavailable (reason : String)

namespace Expr

/-- What expressions act on. -/
abbrev Memory := ActionState Tally

/-- The fault of an expression at a place that does not have what it asks for. -/
def misplaced : Fault :=
  .raised "not available at this place"

/-- The value of a local at a place. -/
def readLocal (locals : Scope) (name : String) : Place → Except Fault Value
  | .predicate _ => Scene.local? locals name
  | .action _ => locals.get name
  | .default => .error misplaced

/-- The value of a return at a place. -/
def readReturn (returns : Scope) (name : String) : Place → Except Fault Value
  | .predicate scene => scene.return? name
  | .action _ => returns.get name
  | .default => .error misplaced

/-- The returns of the last call of a rule at a place. -/
def readChild (rule : String) : Place → Except Fault Scope
  | .predicate scene => scene.child? rule
  | .action scene => scene.child rule
  | .default => .error misplaced

/-- The token at a distance from a place. -/
def readToken (distance : Int) : Place → Except Fault Token
  | .predicate scene => scene.look distance
  | _ => .error misplaced

/-- The token matched last at a place. -/
def readLast : Place → Except Fault Token
  | .action scene => scene.lastToken
  | _ => .error misplaced

/-- The scene of a place at which predicates are evaluated. -/
def readScene : Place → Except Fault Scene
  | .predicate scene => .ok scene
  | _ => .error misplaced

/-- The value of an expression at a place. Operands are evaluated from left to
    right. -/
def eval (place : Place) : Expr → Effect Memory Value
  | const v => return v
  | localOf name => do Effect.ofExcept (readLocal (← get).locals name place)
  | returnOf name => do Effect.ofExcept (readReturn (← get).returns name place)
  | childReturn rule name => do
    let returns ← Effect.ofExcept (readChild rule place)
    Effect.ofExcept (returns.get name)
  | typeAt distance => do
    return .int (Int64.ofInt (← Effect.ofExcept (readToken distance place)).type)
  | textAt distance => do
    return .string (← Effect.ofExcept (readToken distance place)).text
  | position => do
    return .int (Int64.ofNat (← Effect.ofExcept (readScene place)).position)
  | isSpeculative => do
    return .bool (← Effect.ofExcept (readScene place)).speculative
  | setLocal name value => do
    if (← Effect.ofExcept (readScene place)).speculative then return .bool true
    let v ← eval place value
    modify fun s => { s with locals := s.locals.set name v }
    return .bool true
  | lastText => do return .string (← Effect.ofExcept (readLast place)).text
  | lastType => do return .int (Int64.ofInt (← Effect.ofExcept (readLast place)).type)
  | lastIndex => do return .int (Int64.ofNat (← Effect.ofExcept (readLast place)).index)
  | localNames => do return .list ((← get).locals.names.map .string)
  | size list => do
    let items ← Effect.ofExcept (← eval place list).toItems?
    return .int (Int64.ofNat items.length)
  | textOf value => do return .string (← eval place value).text
  | equal a b => do
    let v ← eval place a
    let w ← eval place b
    return .bool (v == w)
  | unequal a b => do
    let v ← eval place a
    let w ← eval place b
    return .bool (v != w)
  | less a b => do
    let m ← Effect.ofExcept (← eval place a).toInt?
    let n ← Effect.ofExcept (← eval place b).toInt?
    return .bool (decide (m < n))
  | greater a b => do
    let m ← Effect.ofExcept (← eval place a).toInt?
    let n ← Effect.ofExcept (← eval place b).toInt?
    return .bool (decide (n < m))
  | both a b => do
    if ← Effect.ofExcept (← eval place a).toBool? then
      return .bool (← Effect.ofExcept (← eval place b).toBool?)
    else return .bool false
  | either a b => do
    if ← Effect.ofExcept (← eval place a).toBool? then return .bool true
    else return .bool (← Effect.ofExcept (← eval place b).toBool?)
  | negation a => do
    return .bool (!(← Effect.ofExcept (← eval place a).toBool?))
  | sum a b => do
    let m ← Effect.ofExcept (← eval place a).toInt?
    let n ← Effect.ofExcept (← eval place b).toInt?
    return .int (m + n)
  | concat a b => do
    let v ← eval place a
    let w ← eval place b
    let l ← Effect.ofExcept v.toItems?
    let m ← Effect.ofExcept w.toItems?
    return .list (l ++ m)
  | count => do
    let s ← get
    set { s with host := { s.host with counter := s.host.counter + 1 } }
    return .int (Int64.ofNat s.host.counter)
  | raise message => throw (.raised message)
  | unavailable reason => throw (.unavailable reason)

/-- The condition that an expression states, recording each evaluation under the
    text of the predicate. -/
def toTest (text : String) (e : Expr) (scene : Scene) : Effect (PredicateState Tally) Bool := do
  let evaluation : Evaluation :=
    { text, position := scene.position, speculative := scene.speculative }
  modify fun s => { s with
    host := { s.host with evaluations := evaluation :: s.host.evaluations } }
  let v ← Effect.zoom
    (fun s => { locals := s.locals, returns := {}, out := "", host := s.host })
    (fun memory _ => { locals := memory.locals, host := memory.host })
    (e.eval (.predicate scene))
  Effect.ofExcept v.toBool?

/-- The predicate that an expression states. -/
def toPredicate (text : String) (e : Expr) (onFailure : Option String) : Predicate Tally :=
  { text, test := some (e.toTest text), onFailure }

/-- The default that an expression gives. -/
def toDefault (e : Expr) : Effect Tally Value :=
  Effect.zoom (fun host => { locals := {}, returns := {}, out := "", host })
    (fun memory _ => memory.host) (e.eval .default)

end Expr

end AdaptiveLL
