import AdaptiveLL.Proofs.Grammar.Cohesion
import AdaptiveLL.Proofs.Grammar.Recognition

/-!
# Where runs stand

A network is *cohesive* if every rule is a fragment that coheres and ends in a stop, and
if calls lead to the starts of rules (`Network.IsCohesive`). It is so where each fragment is
used once (`Builder.Defines.isCohesive_grammar`).

In such a network, a run that begins at the start of a rule stands *within* rules, and goes
on from its calls within rules (`Network.StandsWithin`). There it has come to a stop, or there
is a way on (`IsCohesive.exists_transition`).
-/

namespace AdaptiveLL

open Relation Fragment

variable {σ : Type}

namespace Network

variable (net : Network)

/-- Every rule is a fragment that coheres and ends in a stop, and calls lead to the starts of
    rules. -/
structure IsCohesive (loops : List Fragment) : Prop extends net.KeepsToRules where
  isStop : ∀ id rule, net.rule id = .ok rule → net.IsStop rule.stop
  coheres : ∀ id rule, net.rule id = .ok rule →
    Fragment.Coheres net.ways loops ⟨rule.start, rule.stop⟩
  call : ∀ id s, net.state id = .ok s → ∀ t ∈ s.transitions, ∀ callee follow,
    t.label = .call callee follow → ∃ rule, net.rule callee = .ok rule ∧ rule.start = t.target

/-- A state is come to from the start of a rule, but not past its stop. -/
def LiesWithin (id : StateId) : Prop :=
  ∃ callee rule, net.rule callee = .ok rule ∧ Inside net.ways ⟨rule.start, rule.stop⟩ id

/-- A run stands within a rule, and goes on within rules behind its calls. -/
def StandsWithin (p : Point) : Prop :=
  net.LiesWithin p.state ∧ ∀ id ∈ p.context, net.LiesWithin id

variable {net} {loops : List Fragment} {p q : Point} {w : List Int} {id : StateId}
  {t : Transition}

theorem inner_of_hasTransition (h : net.HasTransition id t) :
    Inner net.ways id (Fragment.innerStep t) := by
  obtain ⟨ts, hw, ht⟩ := hasTransition_iff_ways.1 h
  exact ⟨ts, hw, t, ht, rfl⟩

theorem standsWithin_start {callee : RuleId} {rule : Rule} (h : net.rule callee = .ok rule) :
    net.StandsWithin ⟨rule.start, []⟩ :=
  ⟨⟨callee, rule, h, .refl⟩, nofun⟩

namespace IsCohesive

variable (h : net.IsCohesive loops)

include h

/-- Transitions lead to states that exist. -/
theorem isClosed : net.IsClosed := by
  intro id s hs t ht
  obtain ⟨s', hs', _⟩ := h.inner id s hs t ht
  obtain ⟨target, label⟩ := t
  cases label with
  | call callee follow =>
    obtain ⟨rule, hrule, rfl⟩ := h.call id s hs _ ht callee follow rfl
    obtain ⟨s₀, hs₀, _⟩ := h.start callee rule hrule
    refine ⟨⟨s₀, hs₀⟩, ?_⟩
    rintro _ _ ⟨⟩
    exact ⟨s', hs'⟩
  | _ => exact ⟨⟨s', hs'⟩, nofun⟩

/-- Where a run stands within a rule, it goes on within it, behind the call that it may make. -/
theorem innerStep (hid : net.LiesWithin id) (ht : net.HasTransition id t) :
    net.LiesWithin (Fragment.innerStep t) := by
  obtain ⟨callee, rule, hrule, hin⟩ := hid
  have hne : id ≠ rule.stop := by
    rintro rfl
    exact ht.not_isStop (h.isStop callee rule hrule)
  exact ⟨callee, rule, hrule, hin.next hne (inner_of_hasTransition ht)⟩

/-- A call leads to the start of the rule that it calls. -/
theorem exists_rule {caller target follow : StateId} {callee : RuleId}
    (ht : net.HasTransition caller ⟨target, .call callee follow⟩) :
    ∃ rule, net.rule callee = .ok rule ∧ rule.start = target := by
  obtain ⟨s, hs, _, hmem⟩ := ht
  exact h.call caller s hs _ hmem callee follow rfl

/-- Every transition leads to a state within a rule. -/
theorem target (hid : net.LiesWithin id) (ht : net.HasTransition id t) :
    net.LiesWithin t.target := by
  have hinner := h.innerStep hid ht
  obtain ⟨target, label⟩ := t
  cases label with
  | call callee follow =>
    obtain ⟨rule, hrule, rfl⟩ := h.exists_rule ht
    exact ⟨callee, rule, hrule, .refl⟩
  | _ => exact hinner

/-- Within a rule, there is a way on from every state but the stop. -/
theorem exists_transition (hid : net.LiesWithin id) :
    net.IsStop id ∨ ∃ t, net.HasTransition id t := by
  obtain ⟨callee, rule, hrule, hin⟩ := hid
  by_cases hstop : id = rule.stop
  · exact .inl (hstop ▸ h.isStop callee rule hrule)
  · obtain ⟨t, ts, hw⟩ := (h.coheres callee rule hrule).exists_ways hin hstop
    exact .inr ⟨t, hasTransition_iff_ways.2 ⟨_, hw, List.mem_cons_self⟩⟩

theorem hasState (hid : net.LiesWithin id) : net.HasState id := by
  obtain ⟨s, hs, _⟩ | ⟨_, s, hs, _⟩ := h.exists_transition hid
  · exact ⟨s, hs⟩
  · exact ⟨s, hs⟩

/-- A step does not lead out of the rules. -/
theorem freeStep (hp : net.StandsWithin p) (hs : net.FreeStep p q) : net.StandsWithin q := by
  cases hs with
  | epsilon ht => exact ⟨h.target hp.1 ht, hp.2⟩
  | predicate ht => exact ⟨h.target hp.1 ht, hp.2⟩
  | action ht => exact ⟨h.target hp.1 ht, hp.2⟩
  | call ht =>
    exact ⟨h.target hp.1 ht, List.forall_mem_cons.2 ⟨h.innerStep hp.1 ht, hp.2⟩⟩
  | exit =>
    obtain ⟨hfollow, hcontext⟩ := List.forall_mem_cons.1 hp.2
    exact ⟨hfollow, hcontext⟩

/-- A run does not lead out of the rules. -/
theorem run (hrun : net.Run p w q) (hp : net.StandsWithin p) : net.StandsWithin q := by
  induction hrun with
  | refl => exact hp
  | free hs _ ih => exact ih (h.freeStep hp hs)
  | token ht _ _ ih => exact ih ⟨h.target hp.1 ht, hp.2⟩

end IsCohesive

end Network

/-- Where each fragment is used once, the network is cohesive. Its loops are those that have
    been checked. -/
theorem Builder.Defines.isCohesive_grammar {b : Builder σ} {rules : List (RuleDefinition σ)}
    {g : Grammar σ} (h : b.Defines rules) (hg : (Build.finish b).1 = .ok g) :
    g.toNetwork.IsCohesive b.numberDecisions.loops := by
  have hcomposed := h.isComposed_grammar hg
  have hsound := hcomposed.isBuilt.isSound
  obtain ⟨he, rfl⟩ := finish_eq_ok hg
  obtain ⟨hgrows, hways⟩ := b.grows_numberDecisions
  have cohesion {id : RuleId} {rule : Rule} (hrule : b.numberDecisions.grammar.rule id = .ok rule) :
      b.numberDecisions.HasCohesion ⟨rule.start, rule.stop⟩ := by
    obtain ⟨n, hn, rfl, rfl⟩ := rule_grammar_eq_ok hrule
    have hdraft := Array.getElem?_eq_getElem hn
    obtain ⟨bounds, hbounds⟩ := Option.isSome_iff_exists.1 ((of_error?_eq_none he).1 n _ hdraft)
    have hdraft' := (hgrows.undefined n _ hdraft).resolve_right (by simp [hbounds])
    obtain ⟨hisEnd, hcoheres⟩ := h.hasCohesion hdraft' hbounds
    dsimp only
    rw [bounds_eq hdraft hbounds]
    exact ⟨hgrows.isEnd _ hisEnd, hcoheres.mono (fun id ts _ hw => by rw [hways, hw]) hgrows.loops⟩
  refine { toKeepsToRules := hcomposed.keepsToRules, isStop := ?_, coheres := ?_, call := ?_ }
  · intro id rule hrule
    obtain ⟨n, s, hn, hs, hk⟩ := (cohesion hrule).1
    exact ⟨_, state_grammar.2 ⟨n, s, hn, hs, rfl⟩, hk⟩
  · intro id rule hrule
    refine (cohesion hrule).2.map b.numberDecisions.link (fun _ => link_eq_self)
      (innerStep_link _) (fun id ts _ hw => ?_) (List.Subset.refl _)
    rw [ways_grammar, hw, Option.map_some]
  · intro id s hs t ht callee follow hl
    have hallows := hsound.label id s hs t ht
    rw [hl] at hallows
    obtain ⟨rule, hrule⟩ := hallows
    refine ⟨rule, hrule, ?_⟩
    obtain ⟨n, s₀, rfl, hs₀, rfl⟩ := state_grammar.1 hs
    obtain ⟨t₀, ht₀, rfl⟩ := List.mem_map.1 ht
    obtain ⟨k, hk, rfl, rfl⟩ := rule_grammar_eq_ok hrule
    rw [link_label] at hl
    rw [link, hl]

end AdaptiveLL
