import AdaptiveLL.Prediction.Frontier
import AdaptiveLL.Prediction.LoopExit
import Std.Data.TreeSet

/-!
# Closures

Where a prediction can come to without consuming a token. A closure follows the
free transitions of the network depth first, returning from rules into their
callers, and keeps the configurations at states that consume a token, and those
at the end of a rule that has no caller left (`closure`).

`startFrontier` is where a decision starts, `nextFrontier` where a frontier comes
to by a token. Only at the start, and only in the invocation that predicts, are
the predicates on the way put into the guards: those behind a token or in
another invocation cannot be evaluated yet.

A left-recursive network has infinite closures, so they are computed within a
number of steps.
-/

namespace AdaptiveLL

/-- A closure as far as it is computed. -/
structure Search where
  /-- The marks of the configurations that have been looked at. -/
  seen : Std.TreeSet (List (List Int)) := {}
  /-- The configurations that are kept, the last one first. -/
  kept : List Config := []

/-- What a closure does with a configuration. -/
structure Expansion where
  /-- Whether it is kept. -/
  kept : Bool
  /-- The configurations that follow it without a token. -/
  next : List Config

variable (net : Network) (exit : LoopExit) (collect : Bool)

/-- The configuration behind a free transition. If predicates are collected,
    those of the invocation that predicts are put into the guard. -/
def freeStep (c : Config) (t : Transition) : Option Config :=
  match t.label with
  | .epsilon | .action _ => some { c with state := t.target }
  | .predicate p =>
    let guard := if collect && c.depth == 0 && !c.left then c.guard.require p else c.guard
    some { c with state := t.target, guard }
  | .call _ follow =>
    some { c with state := t.target, context := follow :: c.context, depth := c.depth + 1 }
  | _ => none

/-- What a closure does with a configuration at a state. -/
def expandAt (s : State) (c : Config) : Expansion :=
  if s.kind = .ruleStop then
    if exit.isAtEnd c then { kept := exit.isTakenBy c, next := [] }
    else
      match c.context with
      | [] => { kept := true, next := [] }
      | follow :: context => { kept := false, next := [c.returned follow context] }
  else
    { kept := s.transitions.any fun t => !t.label.isFree
      next := s.transitions.filterMap (freeStep collect c) }

/-- What a closure does with a configuration. -/
def expand (c : Config) : Except Fault Expansion :=
  (net.state c.state).map fun s => expandAt exit collect s c

namespace Search

/-- Whether a configuration has been looked at. -/
def hasSeen (search : Search) (c : Config) : Bool :=
  search.seen.contains c.mark

/-- Keeps a configuration. -/
def keep (search : Search) (c : Config) : Search :=
  { search with kept := c :: search.kept }

/-- The search after a configuration has been looked at. -/
def visit (search : Search) (c : Config) (kept : Bool) : Search :=
  { seen := search.seen.insert c.mark, kept := if kept then c :: search.kept else search.kept }

/-- The frontier of the configurations that are kept. -/
def frontier (search : Search) : Frontier :=
  (Frontier.ofList search.kept.reverse).sorted

/-- What has been looked at is that and what had been looked at before. -/
theorem hasSeen_visit (search : Search) (c d : Config) (kept : Bool) :
    (search.visit c kept).hasSeen d = (c.same d || search.hasSeen d) := by
  have h : (compare c.mark d.mark == .eq) = c.same d := by
    rw [Bool.eq_iff_iff, ← Config.mark_eq_iff, beq_iff_eq, Std.LawfulEqOrd.compare_eq_iff_eq]
  rw [hasSeen, visit, Std.TreeSet.contains_insert, h, hasSeen]

end Search

/-- Looks at the configurations of a list and at all that follow them without a
    token, the last ones first. -/
def closureFrom : Nat → List Config → Search → Except Fault Search
  | _, [], search => .ok search
  | 0, _ :: _, _ => .error .outOfFuel
  | fuel + 1, c :: work, search =>
    if search.hasSeen c then closureFrom fuel work search
    else
      match expand net exit collect c with
      | .error fault => .error fault
      | .ok e => closureFrom fuel (e.next.reverse ++ work) (search.visit c e.kept)

/-- Adds the closure of a configuration to a search. -/
def closure (fuel : Nat) (c : Config) (search : Search) : Except Fault Search :=
  closureFrom net exit collect fuel [c] search

variable (fuel : Nat)

/-- Adds the closures of the alternatives of a decision to a search, counting
    them from a number on. -/
def startFrom (outer : List StateId) : Int → List Transition → Search → Except Fault Search
  | _, [], search => .ok search
  | alt, t :: rest, search => do
    let search ← closure net exit true fuel { state := t.target, alt, context := outer } search
    startFrom outer (alt + 1) rest search

/-- The frontier that a decision starts with, in the context of the callers of its
    invocation. -/
def startFrontier (decision : State) (outer : List StateId) : Except Fault Frontier := do
  let search ← startFrom net exit fuel outer 1 decision.transitions {}
  return search.frontier

/-- Adds the closures of a configuration behind some transitions to a search. -/
def followAll (c : Config) : List Transition → Search → Except Fault Search
  | [], search => .ok search
  | t :: rest, search => do
    let search ← closure net exit false fuel { c with state := t.target } search
    followAll c rest search

/-- Adds to a search where a configuration comes to by a token of a type. The end
    of the input is also consumed by the end of a rule that has no caller left. -/
def advance (type : Int) (c : Config) (search : Search) : Except Fault Search := do
  let s ← net.state c.state
  if s.kind = .ruleStop then
    if type = Token.endOfInput ∧ c.context = [] ∧ exit.isAtEnd c = false then
      return search.keep c
    else
      return search
  else
    followAll net exit fuel c (s.transitions.filter fun t => t.label.accepts type) search

/-- Adds to a search where some configurations come to by a token of a type. -/
def advanceAll (type : Int) : List Config → Search → Except Fault Search
  | [], search => .ok search
  | c :: rest, search => do
    let search ← advance net exit fuel type c search
    advanceAll type rest search

/-- The frontier that a frontier comes to by a token of a type. -/
def nextFrontier (f : Frontier) (type : Int) : Except Fault Frontier := do
  let search ← advanceAll net exit fuel type f.items {}
  return search.frontier

end AdaptiveLL
