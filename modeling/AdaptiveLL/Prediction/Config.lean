import AdaptiveLL.Network.Label
import AdaptiveLL.Prediction.Guard

/-!
# Configurations

A `Config` is a place a prediction may have come to: a state of the network, the
alternative it was reached by and the states the calls in between return to. It
also carries the guard under which it is reached, and where it stands relative
to the invocation that predicts.

Two configurations of one `Config.Key` are merged; `Config.same` ignores only
what stands relative to the invocation.

Where many configurations are looked up, they are found by lists of numbers: by
their keys (`Config.Key.toList`), by their keys and guards (`Config.mark`), or by
their states and contexts (`Config.place`).
-/

namespace AdaptiveLL

/-- What tells configurations apart, up to their guards. -/
structure Config.Key where
  state : StateId
  alt : Int
  /-- The states to return to, innermost first. -/
  context : List StateId := []
deriving DecidableEq, Repr

/-- The key as a list. -/
def Config.Key.toList (k : Config.Key) : List Int :=
  k.state :: k.alt :: k.context

/-- A place that a prediction may have come to. -/
structure Config extends Config.Key where
  guard : Guard := {}
  /-- How many calls are open, relative to the invocation that predicts. -/
  depth : Int := 0
  /-- Whether that invocation has been returned from. -/
  left : Bool := false
deriving Repr

namespace Config

/-- Whether two configurations agree in their keys and their guards. -/
def same (c d : Config) : Bool :=
  c.toKey == d.toKey && c.guard == d.guard

/-- The key and the guard as a list. -/
def mark (c : Config) : List (List Int) :=
  c.toKey.toList :: c.guard.terms

/-- The state and the context as a list. -/
def place (c : Config) : List Int :=
  c.state :: c.context

/-- The configuration after the return from the innermost call. -/
def returned (c : Config) (follow : StateId) (context : List StateId) : Config :=
  { c with state := follow, context, depth := c.depth - 1, left := c.left || decide (c.depth < 1) }

/-- The written form of the states to return to. -/
def contextText (context : List StateId) : String :=
  "[" ++ String.join (context.map fun s => toString s ++ " ") ++ "$]"

/-- The written form of a configuration. -/
def text (c : Config) : String :=
  "(" ++ toString c.state ++ "," ++ toString c.alt ++ "," ++ contextText c.context ++
  (if c.guard.isTrivial then "" else ",\x7b" ++ c.guard.text ++ "\x7d?") ++ ")"

/-- Different keys are different lists. -/
theorem Key.toList_inj {k l : Key} : k.toList = l.toList ↔ k = l := by
  cases k
  cases l
  simp [Key.toList]

/-- Two configurations have one mark if they agree in their keys and guards. -/
theorem mark_eq_iff {c d : Config} : c.mark = d.mark ↔ c.same d = true := by
  rw [same, Bool.and_eq_true, beq_iff_eq, beq_iff_eq, mark, mark, List.cons.injEq,
    Key.toList_inj]
  exact and_congr_right fun _ => ⟨Guard.ext, congrArg Guard.terms⟩

/-- Two configurations are at one place if they agree in state and context. -/
theorem place_eq_iff {c d : Config} :
    c.place = d.place ↔ (c.state == d.state && c.context == d.context) = true := by
  simp [place]

end Config

end AdaptiveLL
