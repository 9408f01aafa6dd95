import AdaptiveLL.Grammar.Basic
import AdaptiveLL.Network.Reachability

/-!
# Building grammars

A `Builder` is a grammar under construction. Between `Build.openRule` and
`Build.closeRule` the body of a rule is put together out of fragments: elements
such as `Build.token` create the states of a fragment, combinators such as
`Build.sequence` join fragments by empty transitions. A rule may be called
before it is defined.

`Build.finish` checks the whole and gives the grammar: every rule called is
defined, every decision has only empty transitions, and no loop has a body that
matches nothing. A step that fails leaves the builder as far as it got; after a
rule body that failed, its rule stays open.
-/

namespace AdaptiveLL

/-- The causes of a failure to build a grammar. -/
inductive BuildError
  /-- The builder has given its grammar already. -/
  | finished
  /-- A state is created outside a rule. -/
  | outsideRule
  /-- A rule is opened in another one. -/
  | nestedRule (name : String)
  /-- A rule is defined a second time. -/
  | definedTwice (name : String)
  /-- A range ends before it begins. -/
  | emptyRange (low high : Int)
  /-- A set names no token type. -/
  | emptySet
  /-- A block has no alternatives. -/
  | emptyBlock
  /-- A loop has a body that matches nothing. -/
  | emptyLoopBody (state : StateId)
  /-- A transition is to leave a state that does not exist. -/
  | invalidState (state : StateId)
  /-- The grammar is asked for in the middle of a rule. -/
  | insideRule
  /-- A rule is called but not defined. -/
  | undefinedRule (name : String)
  /-- A decision has a transition that is not empty. -/
  | labelledDecision (state : StateId)
  /-- A loop is left by an alternative that does not exist. -/
  | exitOutOfRange (state : StateId)
deriving DecidableEq, Repr

/-- The wording of a failure to build a grammar. -/
def BuildError.wording : BuildError → String
  | .finished => "Builder has already been consumed by build()"
  | .outsideRule => "States can only be created inside a rule definition"
  | .nestedRule name => "Nested rule definition: " ++ name
  | .definedTwice name => "Rule defined twice: " ++ name
  | .emptyRange low high => "Invalid token range: " ++ toString low ++ ".." ++ toString high
  | .emptySet => "Empty token set is not supported."
  | .emptyBlock => "A block needs at least one alternative"
  | .emptyLoopBody state => "Closure body can match empty input at state " ++ toString state
  | .invalidState state => "No state " ++ toString state
  | .insideRule => "build() called inside a rule definition"
  | .undefinedRule name => "Undefined rule: " ++ name
  | .labelledDecision state =>
    "Decision state " ++ toString state ++ " must only have epsilon transitions"
  | .exitOutOfRange state => "Loop exit alternative out of range at state " ++ toString state

/-- The message of a failure to build a grammar. -/
def BuildError.message (error : BuildError) : String :=
  untilNul error.wording

/-- Whether a loop is left as late or as early as possible. -/
inductive Greediness
  /-- As early as possible if its body contains a wildcard. -/
  | auto
  | greedy
  | nonGreedy
deriving DecidableEq, Repr

/-- A rule as far as it is known. -/
structure RuleDraft (σ : Type) where
  name : String
  /-- Its start and its stop, once it is defined. -/
  bounds : Option Fragment := none
  signature : Signature σ := {}

/-- A grammar under construction. -/
structure Builder (σ : Type) where
  states : Array State := #[]
  rules : Array (RuleDraft σ) := #[]
  decisions : Array StateId := #[]
  predicates : Array (Predicate σ) := #[]
  actions : Array (Action σ) := #[]
  /-- The rule that is open. -/
  current : Option RuleId := none
  /-- The bodies of the loops. -/
  loops : List Fragment := []
  /-- Whether the grammar has been given. -/
  finished : Bool := false

/-- A step of the construction of a grammar; one that fails keeps what it did. -/
abbrev Build (σ : Type) := ExceptT BuildError (StateM (Builder σ))

variable {σ : Type}

namespace Builder

variable (b : Builder σ)

/-- The number of the rule of a given name. -/
def findRule? (name : String) : Option Nat :=
  b.rules.toList.findIdx? fun r => r.name == name

/-- The name of the first rule that is called but not defined. -/
def undefinedCall? : Option String :=
  let undefined (t : Transition) : Option String :=
    match t.label with
    | .call rule _ =>
      match numbered? b.rules rule with
      | some r => if r.bounds.isNone then some r.name else none
      | none => none
    | _ => none
  b.states.toList.findSome? fun s => s.transitions.findSome? undefined

/-- Gives the next decision number to a state if it has several ways on. -/
def numberDecision (b : Builder σ) (id : Nat) : Builder σ :=
  match b.states[id]? with
  | none => b
  | some s =>
    if 2 ≤ s.transitions.length then
      { b with
        states := b.states.modify id fun s => { s with decision := some b.decisions.size }
        decisions := b.decisions.push id }
    else b

/-- Numbers the decisions in the order of the states. -/
def numberDecisions : Builder σ :=
  (List.range b.states.size).foldl numberDecision b

/-- The rules that can match nothing if those of a list can. -/
def nullableStep (nullable : List RuleId) : List RuleId :=
  (List.range b.rules.size).filterMap fun id : Nat =>
    match b.rules[id]?.bind RuleDraft.bounds with
    | some bounds => if bounds.canBeEmpty b.states nullable then some (Int.ofNat id) else none
    | none => none

/-- The list that a step of some kind comes to if it is repeated until it changes
    nothing any more, but not more often than a number of times. -/
def stabilize (step : List RuleId → List RuleId) : Nat → List RuleId → List RuleId
  | 0, rules => rules
  | n + 1, rules =>
    let next := step rules
    if next = rules then rules else stabilize step n next

/-- The rules that can match nothing: the least list that `nullableStep` keeps. -/
def nullable : List RuleId :=
  stabilize b.nullableStep b.rules.size []

/-- Stopping where nothing changes any more makes no difference. -/
theorem stabilize_eq_repeat (step : List RuleId → List RuleId) (n : Nat) (rules : List RuleId) :
    stabilize step n rules = n.repeat step rules := by
  have fixed {l : List RuleId} (h : step l = l) (n : Nat) : n.repeat step l = l := by
    induction n with
    | zero => rfl
    | succ n ih => rw [Nat.repeat, ih, h]
  have shift (n : Nat) (l : List RuleId) : (n + 1).repeat step l = n.repeat step (step l) := by
    induction n with
    | zero => rfl
    | succ n ih => rw [Nat.repeat, ih, Nat.repeat]
  induction n generalizing rules with
  | zero => rfl
  | succ n ih =>
    rw [stabilize]
    split
    · next h => exact (fixed h _).symm
    · rw [ih, shift]

/-- What is wrong with a decision. -/
def decisionError? (id : Nat) (s : State) : Option BuildError :=
  if s.decision.isNone then none
  else if s.transitions.any fun t => t.label != .epsilon then some (.labelledDecision id)
  else if s.exitAlt > s.transitions.length then some (.exitOutOfRange id)
  else none

/-- What is wrong with the body of a loop. -/
def loopError? (nullable : List RuleId) (body : Fragment) : Option BuildError :=
  if body.canBeEmpty b.states nullable then some (.emptyLoopBody body.start) else none

/-- What is wrong with the rules, the decisions and the loops. -/
def error? : Option BuildError :=
  let undefined (r : RuleDraft σ) : Option BuildError :=
    if r.bounds.isNone then some (.undefinedRule r.name) else none
  (b.rules.toList.findSome? undefined) <|>
  ((b.states.toList.zipIdx.findSome? fun (s, id) => decisionError? id s) <|>
  (b.loops.findSome? (b.loopError? b.nullable)))

/-- The start and the stop of a rule. -/
def bounds (rule : RuleId) : Fragment :=
  ((numbered? b.rules rule).bind RuleDraft.bounds).getD { start := -1, stop := -1 }

/-- A transition with the start of the rule it calls as its target. -/
def link (t : Transition) : Transition :=
  match t.label with
  | .call rule _ => { t with target := (b.bounds rule).start }
  | _ => t

/-- The grammar that has been built. -/
def grammar : Grammar σ :=
  let linked (s : State) : State := { s with transitions := s.transitions.map b.link }
  let rule (id : Nat) (r : RuleDraft σ) : Rule :=
    { name := r.name, start := (b.bounds id).start, stop := (b.bounds id).stop }
  { states := (b.states.toList.map linked).toArray
    rules := (b.rules.toList.mapIdx rule).toArray
    decisions := b.decisions
    signatures := (b.rules.toList.map RuleDraft.signature).toArray
    predicates := b.predicates
    actions := b.actions }

end Builder

namespace Build

/-- Creates a state of the open rule. -/
def newState (kind : StateKind) : Build σ StateId := do
  let b ← get
  if b.finished then throw .finished
  match b.current with
  | none => throw .outsideRule
  | some rule =>
    set { b with states := b.states.push { rule, kind } }
    return b.states.size

/-- Adds a way on to an existing state. Its target is not looked at. -/
def connect (source target : StateId) (label : Label) : Build σ Unit := do
  let b ← get
  if source < 0 ∨ b.states.size ≤ source then throw (.invalidState source)
  set { b with
    states := b.states.modify source.toNat fun s => s.connect { target, label } }

/-- Joins two states by an empty transition. -/
def join (source target : StateId) : Build σ Unit :=
  connect source target .epsilon

/-- The number of a rule, which need not be defined yet. -/
def ruleNumber (name : String) : Build σ RuleId := do
  let b ← get
  match b.findRule? name with
  | some id => return id
  | none =>
    set { b with rules := b.rules.push { name } }
    return b.rules.size

/-- Begins the definition of a rule. -/
def openRule (name : String) (signature : Signature σ) : Build σ RuleId := do
  let b ← get
  if b.finished then throw .finished
  if b.current.isSome then throw (.nestedRule name)
  let id ← ruleNumber name
  if ((← get).rules[id.toNat]?.bind RuleDraft.bounds).isSome then throw (.definedTwice name)
  modify fun b => { b with
    rules := b.rules.modify id.toNat fun r => { r with signature }
    current := some id }
  let start ← newState .ruleStart
  let stop ← newState .ruleStop
  modify fun b => { b with
    rules := b.rules.modify id.toNat fun r => { r with bounds := some { start, stop } } }
  return id

/-- Ends the definition of a rule, given its body. -/
def closeRule (id : RuleId) (body : Fragment) : Build σ Unit := do
  let bounds := (← get).bounds id
  join bounds.start body.start
  join body.stop bounds.stop
  modify fun b => { b with current := none }

/-- Defines a rule. -/
def rule (name : String) (signature : Signature σ) (body : Build σ Fragment) : Build σ RuleId := do
  let id ← openRule name signature
  let fragment ← body
  closeRule id fragment
  return id

/-- Two new states, joined by a transition. -/
def element (label : Label) : Build σ Fragment := do
  let start ← newState .basic
  let stop ← newState .basic
  connect start stop label
  return { start, stop }

/-- A token of one type. -/
def token (type : Int) : Build σ Fragment :=
  element (.atom type)

/-- A token of a type between two bounds. -/
def range (low high : Int) : Build σ Fragment := do
  if high < low then throw (.emptyRange low high)
  element (.range low high)

/-- A token of one of some types. -/
def oneOf (types : List Int) : Build σ Fragment := do
  if types.isEmpty then throw .emptySet
  element (.set (Ascending.ofList types) false)

/-- A token of none of some types. -/
def noneOf (types : List Int) : Build σ Fragment :=
  element (.set (Ascending.ofList types) true)

/-- Any token. -/
def wildcard : Build σ Fragment :=
  element .wildcard

/-- No token. -/
def epsilon : Build σ Fragment := do
  let state ← newState .basic
  return { start := state, stop := state }

/-- A call of a rule. -/
def call (name : String) : Build σ Fragment := do
  let rule ← ruleNumber name
  let start ← newState .basic
  let stop ← newState .basic
  connect start (-1) (.call rule stop)
  return { start, stop }

/-- A predicate. -/
def predicate (p : Predicate σ) : Build σ Fragment := do
  let index := (← get).predicates.size
  modify fun b => { b with predicates := b.predicates.push p }
  element (.predicate index)

/-- An action. -/
def action (a : Action σ) : Build σ Fragment := do
  let index := (← get).actions.size
  modify fun b => { b with actions := b.actions.push a }
  element (.action index)

/-- Joins each fragment to the next. -/
def chain : List Fragment → Build σ Unit
  | f :: g :: rest => do
    join f.stop g.start
    chain (g :: rest)
  | _ => pure ()

/-- One fragment after the other. -/
def sequence (parts : List Fragment) : Build σ Fragment :=
  match parts.head?, parts.getLast? with
  | some first, some last => do
    chain parts
    return { start := first.start, stop := last.stop }
  | _, _ => epsilon

/-- Leads from one state to the alternatives, and from them to another state. -/
def branch (start stop : StateId) : List Fragment → Build σ Unit
  | [] => pure ()
  | alternative :: rest => do
    join start alternative.start
    join alternative.stop stop
    branch start stop rest

/-- One of some fragments; a single one stands for itself. -/
def block (alternatives : List Fragment) : Build σ Fragment :=
  match alternatives with
  | [] => throw .emptyBlock
  | [alternative] => pure alternative
  | _ => do
    let start ← newState .blockStart
    let stop ← newState .blockEnd
    branch start stop alternatives
    return { start, stop }

/-- One of some fragments, or nothing. -/
def optional (alternatives : List Fragment) : Build σ Fragment := do
  let empty ← epsilon
  block (alternatives ++ [empty])

/-- Whether a loop is left as early as possible. -/
def isNonGreedy (states : Array State) (body : Fragment) : Greediness → Bool
  | .auto => body.hasWildcard states
  | .greedy => false
  | .nonGreedy => true

/-- The body of a loop, which must not match nothing, and whether the loop is
    left as early as possible. -/
def loopBody (alternatives : List Fragment) (greediness : Greediness) :
    Build σ (Fragment × Bool) := do
  let body ← block alternatives
  let b ← get
  if let some error := b.loopError? [] body then throw error
  set { b with loops := b.loops ++ [body] }
  return (body, isNonGreedy b.states body greediness)

/-- Makes a state the decision of a loop that its second alternative leaves. -/
def markLoop (state : StateId) (nonGreedy : Bool) : Build σ Unit :=
  modify fun b => { b with
    states := b.states.modify state.toNat fun s => { s with exitAlt := 2, nonGreedy } }

/-- One of some fragments any number of times. At the entry, the first
    alternative is the body and the second leaves the loop. -/
def star (alternatives : List Fragment) (greediness : Greediness) : Build σ Fragment := do
  let (body, nonGreedy) ← loopBody alternatives greediness
  let entry ← newState .starLoopEntry
  let back ← newState .starLoopBack
  let stop ← newState .loopEnd
  join entry body.start
  join entry stop
  join body.stop back
  join back entry
  markLoop entry nonGreedy
  return { start := entry, stop }

/-- One of some fragments any number of times, but at least once. At the way
    back, the first alternative is the body and the second leaves the loop. -/
def plus (alternatives : List Fragment) (greediness : Greediness) : Build σ Fragment := do
  let (body, nonGreedy) ← loopBody alternatives greediness
  let back ← newState .plusLoopBack
  let stop ← newState .loopEnd
  join body.stop back
  join back body.start
  join back stop
  markLoop back nonGreedy
  return { start := body.start, stop }

/-- Checks the whole, numbers the decisions and gives the grammar. -/
def finish : Build σ (Grammar σ) := do
  let b ← get
  if b.finished then throw .finished
  if b.current.isSome then throw .insideRule
  if let some name := b.undefinedCall? then throw (.undefinedRule name)
  let b := b.numberDecisions
  set b
  if let some error := b.error? then throw error
  set { b with finished := true }
  return b.grammar

end Build

end AdaptiveLL
