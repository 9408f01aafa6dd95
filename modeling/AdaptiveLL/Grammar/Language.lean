import AdaptiveLL.Grammar.Body

/-!
# Languages

The words of token types that the body of a rule stands for, given the
definitions of the rules it calls (`Body.Derives`). Predicates and actions stand
for the empty word, and the greediness of a loop makes no difference: they only
matter to which word is taken where several are possible.

* `Body.Derives.star_append`: a loop can be gone through in two parts.
* `Body.Derives.plus_iff`: a loop gone through at least once is its body and then
  a loop gone through any number of times.
-/

namespace AdaptiveLL.Body

variable {σ : Type} (rules : List (RuleDefinition σ))

/-- A body derives a word of token types. -/
inductive Derives : Body σ → List Int → Prop
  | token {type : Int} : Derives (.token type) [type]
  | range {low high type : Int} : low ≤ type → type ≤ high → Derives (.range low high) [type]
  | oneOf {types : List Int} {type : Int} : type ∈ types → Derives (.oneOf types) [type]
  | noneOf {types : List Int} {type : Int} : type ≠ Token.endOfInput → type ∉ types →
    Derives (.noneOf types) [type]
  | wildcard {type : Int} : type ≠ Token.endOfInput → Derives .wildcard [type]
  | epsilon : Derives .epsilon []
  | call {r : RuleDefinition σ} {w : List Int} : r ∈ rules → Derives r.body w →
    Derives (.call r.name) w
  | predicate {p : Predicate σ} : Derives (.predicate p) []
  | action {a : Action σ} : Derives (.action a) []
  | done : Derives (.sequence []) []
  | andThen {first : Body σ} {rest : List (Body σ)} {v w : List Int} : Derives first v →
    Derives (.sequence rest) w → Derives (.sequence (first :: rest)) (v ++ w)
  | block {alternatives : List (Body σ)} {body : Body σ} {w : List Int} : body ∈ alternatives →
    Derives body w → Derives (.block alternatives) w
  | absent {alternatives : List (Body σ)} : Derives (.optional alternatives) []
  | present {alternatives : List (Body σ)} {w : List Int} : Derives (.block alternatives) w →
    Derives (.optional alternatives) w
  | leave {alternatives : List (Body σ)} {greediness : Greediness} :
    Derives (.star alternatives greediness) []
  | again {alternatives : List (Body σ)} {greediness : Greediness} {v w : List Int} :
    Derives (.block alternatives) v → Derives (.star alternatives greediness) w →
    Derives (.star alternatives greediness) (v ++ w)
  | atLeastOnce {alternatives : List (Body σ)} {greediness : Greediness} {v w : List Int} :
    Derives (.block alternatives) v → Derives (.star alternatives greediness) w →
    Derives (.plus alternatives greediness) (v ++ w)

namespace Derives

variable {rules} {alternatives : List (Body σ)} {greediness : Greediness} {v w : List Int}

/-- A block derives what one of its alternatives derives. -/
theorem block_iff : Derives rules (.block alternatives) w ↔
    ∃ body ∈ alternatives, Derives rules body w := by
  constructor
  · intro h
    cases h with
    | block hb hw => exact ⟨_, hb, hw⟩
  · rintro ⟨body, hb, hw⟩
    exact .block hb hw

/-- A loop can be gone through in two parts. -/
theorem star_append (h : Derives rules (.star alternatives greediness) v)
    (h' : Derives rules (.star alternatives greediness) w) :
    Derives rules (.star alternatives greediness) (v ++ w) := by
  generalize hb : Body.star alternatives greediness = b at h
  induction h with
  | leave =>
    obtain ⟨rfl, rfl⟩ := Body.star.inj hb
    exact h'
  | again hv _ _ ih =>
    obtain ⟨rfl, rfl⟩ := Body.star.inj hb
    rw [List.append_assoc]
    exact .again hv (ih rfl)
  | _ => cases hb

/-- A loop gone through at least once is its body, and then a loop gone through
    any number of times. -/
theorem plus_iff : Derives rules (.plus alternatives greediness) w ↔
    ∃ u v, w = u ++ v ∧ Derives rules (.block alternatives) u ∧
      Derives rules (.star alternatives greediness) v := by
  constructor
  · intro h
    cases h with
    | atLeastOnce hu hv => exact ⟨_, _, rfl, hu, hv⟩
  · rintro ⟨u, v, rfl, hu, hv⟩
    exact .atLeastOnce hu hv

end Derives

end AdaptiveLL.Body
