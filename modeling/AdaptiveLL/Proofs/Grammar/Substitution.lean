import AdaptiveLL.Proofs.Grammar.Built

/-!
# Grammars with other predicates

The network of a grammar can be used with other predicates, perhaps on another host
(`Grammar.withPredicates`): what is predicted differs only by what the predicates come to. Of
use are predicates of which it is known in advance what they come to (`Grammar.answering`).
-/

namespace AdaptiveLL

variable {σ τ α β : Type}

theorem numbered?_mapIdx (items : Array α) (f : Nat → α → β) (id : Int) :
    numbered? (items.mapIdx f) id = (numbered? items id).map (f id.toNat) := by
  rw [numbered?, numbered?]
  split
  · rfl
  · rw [Array.getElem?_mapIdx]

theorem numbered?_map (items : Array α) (f : α → β) (id : Int) :
    numbered? (items.map f) id = (numbered? items id).map f := by
  rw [numbered?, numbered?]
  split
  · rfl
  · rw [Array.getElem?_map]

namespace Grammar

/-- The grammar with other predicates, and with actions that do nothing. -/
def withPredicates (g : Grammar σ) (f : Int → Predicate σ → Predicate τ) : Grammar τ where
  toNetwork := g.toNetwork
  predicates := g.predicates.mapIdx fun i p => f i p
  actions := g.actions.map fun a => { text := a.text }

variable {g : Grammar σ} {f : Int → Predicate σ → Predicate τ}

theorem predicate_withPredicates (index : Int) :
    (g.withPredicates f).predicate index = (g.predicate index).map (f index) := by
  rw [predicate, predicate, withPredicates, numbered?_mapIdx]
  cases hp : numbered? g.predicates index with
  | none => rfl
  | some p =>
    obtain ⟨n, rfl, _⟩ := exists_of_numbered? hp
    rw [Int.toNat_natCast]
    rfl

theorem action_withPredicates (index : Int) :
    (g.withPredicates f).action index = (g.action index).map fun a => { text := a.text } := by
  rw [action, action, withPredicates, numbered?_map]
  cases numbered? g.actions index <;> rfl

/-- With other predicates there are as many of them, and as many actions. -/
theorem allows_withPredicates {label : Label} (h : g.Allows label) :
    (g.withPredicates f).Allows label := by
  cases label with
  | predicate index =>
    obtain ⟨p, hp⟩ := h
    exact ⟨f index p, by rw [predicate_withPredicates, hp]; rfl⟩
  | action index =>
    obtain ⟨a, ha⟩ := h
    exact ⟨_, by rw [action_withPredicates, ha]; rfl⟩
  | _ => exact h

theorem IsSound.withPredicates (h : g.IsSound) (f : Int → Predicate σ → Predicate τ) :
    (g.withPredicates f).IsSound where
  rule := h.rule
  label id s hs t ht := allows_withPredicates (h.label id s hs t ht)
  stop := h.stop
  decision := h.decision
  isDecision := h.isDecision
  epsilon := h.epsilon

end Grammar

/-- The predicate that comes to one truth everywhere. -/
def Predicate.always (text : String) (truth : Truth) : Predicate Unit where
  text
  test := some fun _ =>
    match truth with
    | .holds => pure true
    | .fails => pure false
    | .unknown => throw (.unavailable "")

theorem Predicate.evaluate_always (text : String) (truth : Truth) (scene : Scene)
    (s : PredicateState Unit) : (always text truth).evaluate scene s = (.ok truth, s) := by
  cases truth <;> rfl

theorem Predicate.speculate_always (text : String) (truth : Truth) (frame : Option Frame)
    (input : Input) (position : Nat) (host : Unit) :
    (always text truth).speculate frame input position host = (.ok truth, host) := by
  rw [speculate, Effect.zoom_apply, evaluate_always]

/-- The grammar whose predicates come to what is given. -/
def Grammar.answering (g : Grammar σ) (outcome : Int → Truth) : Grammar Unit :=
  g.withPredicates fun index p => .always p.text (outcome index)

theorem Grammar.exists_of_predicate_answering {g : Grammar σ} {outcome : Int → Truth} {index : Int}
    {p : Predicate Unit} (h : (g.answering outcome).predicate index = .ok p) :
    ∃ text, p = .always text (outcome index) := by
  rw [answering, predicate_withPredicates] at h
  obtain ⟨q, _, rfl⟩ := Except.exists_of_map h
  exact ⟨q.text, rfl⟩

end AdaptiveLL
