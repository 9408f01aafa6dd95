import AdaptiveLL.Prediction.Verdict
import AdaptiveLL.Token.Vocabulary

/-!
# Decision automata

What predictions at one decision have found out, as an automaton over token
types. A `Node` is a frontier with the verdict on it; the start node depends on
the context the decision is made in.

The automaton only grows: adding a start node or an edge where there is one
already changes nothing and gives the one that is there (`Automaton.addStart`,
`Automaton.addEdge`). A node whose frontier is that of another is that node,
except after the end of the input, where the same frontier means something else.
-/

namespace AdaptiveLL

/-- A state of a decision automaton. -/
structure Node where
  frontier : Frontier
  /-- Whether it is reached by the end of the input. -/
  afterEnd : Bool := false
  /-- Whether its verdict depends on predicates, so that it is sought anew by
      every prediction. -/
  guarded : Bool := false
  verdict : Option Verdict := none
  /-- The nodes reached by token types, ascending. -/
  edges : List (Int × Nat) := []
deriving Repr

instance : Inhabited Node := ⟨{ frontier := {} }⟩

/-- The node of a frontier. A verdict that depends on predicates is not kept. -/
def Node.ofFrontier (exit : LoopExit) (afterEnd : Bool) (frontier : Frontier) : Node :=
  let verdict :=
    if frontier.guarded then none else Verdict.ofConfigs? exit afterEnd frontier.items
  { frontier, afterEnd, guarded := frontier.guarded, verdict }

/-- A node with an edge more. -/
def Node.addEdge (n : Node) (type : Int) (target : Nat) : Node :=
  { n with edges := Ascending.insertKey type target n.edges }

/-- What is known of one decision. -/
structure Automaton where
  decision : Int
  /-- The state of the network that decides. -/
  state : StateId
  nodes : Array Node := #[]
  /-- The nodes that predictions start with, by the contexts they are made in. -/
  starts : Std.TreeMap (List StateId) Nat := {}

namespace Automaton

instance : Inhabited Automaton := ⟨{ decision := 0, state := 0 }⟩

variable (a : Automaton)

/-- The node of a given number. -/
def node (id : Nat) : Node :=
  a.nodes[id]?.getD default

/-- The start node for a context. -/
def start? (outer : List StateId) : Option Nat :=
  a.starts[outer]?

/-- The node that an edge leads to. -/
def edge? (source : Nat) (type : Int) : Option Nat :=
  (a.node source).edges.lookup type

/-- The node that a candidate is the same as. -/
def find? (candidate : Node) : Option Nat :=
  if candidate.afterEnd then none
  else a.nodes.toList.findIdx? fun n => !n.afterEnd && n.frontier.same candidate.frontier

/-- Adds a node, unless there is one it is the same as. -/
def addNode (candidate : Node) : Nat × Automaton :=
  match a.find? candidate with
  | some id => (id, a)
  | none => (a.nodes.size, { a with nodes := a.nodes.push candidate })

/-- Makes a candidate the start node for a context that has none: the start node
    of the context. -/
def addStart (outer : List StateId) (candidate : Node) : Nat × Automaton :=
  match a.start? outer with
  | some id => (id, a)
  | none =>
    let (id, a) := a.addNode candidate
    (id, { a with starts := a.starts.insert outer id })

/-- Makes a candidate the end of an edge that there is not: the end of the edge. -/
def addEdge (source : Nat) (type : Int) (candidate : Node) : Nat × Automaton :=
  match a.edge? source type with
  | some id => (id, a)
  | none =>
    let (id, a) := a.addNode candidate
    (id, { a with nodes := a.nodes.modify source fun n => n.addEdge type id })

/-- The number of nodes. -/
def size : Nat :=
  a.nodes.size

/-- The written form of a node, with the alternative it settles the decision by. -/
def nodeText (id : Nat) : String :=
  match (a.node id).verdict with
  | none => "s" ++ toString id
  | some v => ":s" ++ toString id ++ "=>" ++ toString v.alt

/-- The lines of the edges from a node. -/
def edgeLines (vocabulary : Vocabulary) (id : Nat) : String :=
  String.join ((a.node id).edges.map fun (type, target) =>
    a.nodeText id ++ "-" ++ vocabulary.nameOf type ++ "->" ++ a.nodeText target ++ "\n")

/-- The written form of an automaton: a line for each edge. -/
def text (vocabulary : Vocabulary) : String :=
  String.join ((List.range a.size).map (a.edgeLines vocabulary))

/-- The written form of an automaton with a heading. -/
def fullText (vocabulary : Vocabulary) : String :=
  "=== Decision " ++ toString a.decision ++ " DFA Structure ===\n" ++
  "Decision State: " ++ toString a.state ++ "\n" ++
  "States: " ++ toString a.size ++ "\n" ++
  "Transitions:\n" ++ a.text vocabulary ++
  "===========================\n\n"

/-- The start node that has been added for a context is found for it. -/
theorem start?_addStart (outer : List StateId) (candidate : Node) :
    (a.addStart outer candidate).2.start? outer = some (a.addStart outer candidate).1 := by
  rw [addStart]
  split
  · assumption
  · simp [start?]

end Automaton

end AdaptiveLL
