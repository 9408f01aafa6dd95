import AdaptiveLL.Network.Basic

/-!
# Runs

What a network can do, whatever is predicted at its decisions: it is a pushdown
automaton whose stack holds the states that the open calls return to. A `Point`
is where a run stands.

A step that consumes nothing (`Network.FreeStep`) follows an empty transition, a
predicate or an action; or it calls a rule, putting the state to return to on
the stack; or it returns from the stop of a rule to the state on top of the
stack. A run (`Network.Run`) is a sequence of such steps and of tokens consumed,
and spells the types of these tokens.

* Runs compose (`Run.trans`).
* A run does not depend on what is at the bottom of the stack (`Run.extend`).
-/

namespace AdaptiveLL

/-- Where a run stands. -/
structure Point where
  state : StateId
  /-- The states to return to, innermost first. -/
  context : List StateId := []
deriving DecidableEq, Repr

/-- The same point with more calls open around it. -/
def Point.extend (p : Point) (outer : List StateId) : Point :=
  { p with context := p.context ++ outer }

namespace Network

variable (net : Network)

/-- A transition leaves a state. The stop of a rule is left by returning only. -/
def HasTransition (id : StateId) (t : Transition) : Prop :=
  ∃ s, net.state id = .ok s ∧ s.kind ≠ .ruleStop ∧ t ∈ s.transitions

instance (id : StateId) (t : Transition) : Decidable (net.HasTransition id t) :=
  decidable_of_iff (∃ s ∈ (net.state id).toOption, s.kind ≠ .ruleStop ∧ t ∈ s.transitions) <| by
    rw [HasTransition]
    cases net.state id <;> simp [Except.toOption]

/-- A step that consumes nothing. -/
inductive FreeStep : Point → Point → Prop
  | epsilon {id target : StateId} {context : List StateId} :
    net.HasTransition id ⟨target, .epsilon⟩ → FreeStep ⟨id, context⟩ ⟨target, context⟩
  | predicate {id target : StateId} {index : Int} {context : List StateId} :
    net.HasTransition id ⟨target, .predicate index⟩ → FreeStep ⟨id, context⟩ ⟨target, context⟩
  | action {id target : StateId} {index : Int} {context : List StateId} :
    net.HasTransition id ⟨target, .action index⟩ → FreeStep ⟨id, context⟩ ⟨target, context⟩
  | call {id target follow : StateId} {rule : RuleId} {context : List StateId} :
    net.HasTransition id ⟨target, .call rule follow⟩ →
      FreeStep ⟨id, context⟩ ⟨target, follow :: context⟩
  | exit {id follow : StateId} {s : State} {context : List StateId} :
    net.state id = .ok s → s.kind = .ruleStop → FreeStep ⟨id, follow :: context⟩ ⟨follow, context⟩

/-- A run from one point to another that consumes tokens of some types. -/
inductive Run : Point → List Int → Point → Prop
  | refl (p : Point) : Run p [] p
  | free {p q r : Point} {w : List Int} : net.FreeStep p q → Run q w r → Run p w r
  | token {id : StateId} {t : Transition} {context : List StateId} {type : Int} {w : List Int}
    {r : Point} : net.HasTransition id t → t.label.accepts type = true →
      Run ⟨t.target, context⟩ w r → Run ⟨id, context⟩ (type :: w) r

variable {net}

/-- A step is also one with more calls open around it. -/
theorem FreeStep.extend {p q : Point} (h : net.FreeStep p q) (outer : List StateId) :
    net.FreeStep (p.extend outer) (q.extend outer) := by
  cases h with
  | epsilon h => exact .epsilon h
  | predicate h => exact .predicate h
  | action h => exact .action h
  | call h => exact .call h
  | exit h hs => exact .exit h hs

namespace Run

/-- Two runs of which one begins where the other ends are a run. -/
theorem trans {p q r : Point} {v w : List Int} (h : net.Run p v q) (h' : net.Run q w r) :
    net.Run p (v ++ w) r := by
  induction h with
  | refl _ => exact h'
  | free hs _ ih => exact .free hs (ih h')
  | token ht ha _ ih => exact .token ht ha (ih h')

/-- A run is also one with more calls open around it. -/
theorem extend {p q : Point} {w : List Int} (h : net.Run p w q) (outer : List StateId) :
    net.Run (p.extend outer) w (q.extend outer) := by
  induction h with
  | refl _ => exact .refl _
  | free hs _ ih => exact .free (hs.extend outer) ih
  | token ht ha _ ih => exact .token ht ha ih

end Run

end Network

end AdaptiveLL
