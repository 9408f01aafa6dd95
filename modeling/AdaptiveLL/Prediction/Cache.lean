import AdaptiveLL.Prediction.Automaton

/-!
# Caches

What is known of all decisions of a network: an automaton for each of them.
-/

namespace AdaptiveLL

/-- The automata of the decisions of a network, by their numbers. -/
structure Cache where
  automata : Array Automaton := #[]

namespace Cache

instance : Inhabited Cache := ⟨{}⟩

/-- The cache in which nothing is known of a network. -/
def ofNetwork (net : Network) : Cache :=
  let automaton (decision : Nat) (state : StateId) : Automaton := { decision, state }
  { automata := (net.decisions.toList.mapIdx automaton).toArray }

/-- The automaton of a decision. -/
def automaton (cache : Cache) (decision : Int) : Except Fault Automaton :=
  match numbered? cache.automata decision with
  | some a => .ok a
  | none => .error (.invalidDecision decision)

/-- Replaces the automaton of a decision. -/
def update (cache : Cache) (decision : Nat) (a : Automaton) : Cache :=
  { automata := cache.automata.setIfInBounds decision a }

/-- The lines of a decision, if it has any. -/
def decisionText (vocabulary : Vocabulary) (a : Automaton) : String :=
  let edges := a.text vocabulary
  if edges.isEmpty then "" else "Decision " ++ toString a.decision ++ ":\n" ++ edges

/-- The written form of a cache: the edges of each decision that has some. -/
def text (cache : Cache) (vocabulary : Vocabulary) : String :=
  String.join (cache.automata.toList.map (decisionText vocabulary))

end Cache

end AdaptiveLL
