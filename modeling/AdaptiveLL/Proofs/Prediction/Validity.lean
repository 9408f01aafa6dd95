import AdaptiveLL.Proofs.Prediction.Exactness
import AdaptiveLL.Proofs.Prediction.Guarding

/-!
# What predictions can come to

A prediction takes an alternative that its decision has, and of alternatives that cannot be
told apart it finds two at least and takes the least one (`Outcome.IsValid`). So does every
node that stands for configurations of these alternatives, under predicates that exist: the
outcome it settles a decision by is valid, unless a predicate raises a fault
(`Setting.settle_gives`).
-/

namespace AdaptiveLL

open Effect

variable {σ : Type}

/-- A predicate, an action or the default of an attribute raises a fault in some situation. -/
inductive Grammar.Raises (g : Grammar σ) (fault : Fault) : Prop
  | predicate {index : Int} {p : Predicate σ} {scene : Scene} {s : PredicateState σ} :
    g.predicate index = .ok p → (p.evaluate scene s).1 = .error fault → Raises g fault
  | action {index : Int} {a : Action σ} {scene : ActionScene} {s : ActionState σ} :
    g.action index = .ok a → (a.execute scene s).1 = .error fault → Raises g fault
  | default {id : RuleId} {d : Declaration σ} {host : σ} :
    d ∈ (g.signature id).locals ++ (g.signature id).returns →
      (d.value host).1 = .error fault → Raises g fault

/-- A predicate of this number exists. -/
def Grammar.HasPredicate (g : Grammar σ) (index : Int) : Prop :=
  ∃ p, g.predicate index = .ok p

/-- An alternative of a state. -/
def State.HasAlt (s : State) (alt : Int) : Prop :=
  1 ≤ alt ∧ alt ≤ s.transitions.length

/-- An outcome takes an alternative that there is, of several ones the least, and blames a
    predicate that exists. -/
def Outcome.IsValid (g : Grammar σ) (decision : State) : Outcome → Prop
  | predicted alt => decision.HasAlt alt
  | ambiguous alt alts => 2 ≤ alts.length ∧ alts.Pairwise (· < ·) ∧
      (∀ a ∈ alts, decision.HasAlt a) ∧ alt ∈ alts ∧ ∀ a ∈ alts, alt ≤ a
  | failedPredicate (some index) => g.HasPredicate index
  | failedPredicate none | noViableAlt | aborted => True

theorem Outcome.IsValid.hasAlt {g : Grammar σ} {decision : State} {outcome : Outcome}
    (h : outcome.IsValid g decision) {alt : Int} (halt : outcome.alt? = some alt) :
    decision.HasAlt alt := by
  cases outcome with
  | predicted => exact Option.some.inj halt ▸ h
  | ambiguous _ alts =>
    obtain ⟨_, _, halts, hmem, _⟩ := h
    exact Option.some.inj halt ▸ halts _ hmem
  | _ => cases halt

/-! ## Verdicts -/

theorem Outcome.isValid_ambiguous {g : Grammar σ} {decision : State} {least : Int}
    {others : List Int} (hlen : 2 ≤ (least :: others).length)
    (hpair : (least :: others).Pairwise (· < ·))
    (h : ∀ a ∈ least :: others, decision.HasAlt a) :
    (Outcome.ambiguous least (least :: others)).IsValid g decision :=
  ⟨hlen, hpair, h, List.mem_cons_self, le_of_pairwise_cons hpair⟩

/-- A verdict on configurations takes one of their alternatives. -/
theorem Verdict.isValid (g : Grammar σ) {decision : State} {exit : LoopExit} {afterEnd : Bool}
    {configs : List Config} {v : Verdict} (hconfigs : ∀ c ∈ configs, decision.HasAlt c.alt)
    (h : Verdict.ofConfigs? exit afterEnd configs = some v) :
    (Outcome.ofVerdict v).IsValid g decision := by
  have hmem : ∀ alt ∈ Frontier.altsOf configs, decision.HasAlt alt := by
    intro alt halt
    obtain ⟨c, hc, rfl⟩ := mem_altsOf.1 halt
    exact hconfigs c hc
  rw [ofConfigs?] at h
  split at h
  · -- A loop is left only if a configuration of the alternative that does so is there.
    next alt hreached =>
    cases h
    rw [LoopExit.reached?] at hreached
    split at hreached
    · next hany =>
      cases hreached
      obtain ⟨c, hc, htaken⟩ := List.any_eq_true.1 hany
      have halt : c.alt = exit.alt := beq_iff_eq.1 (Bool.and_eq_true_iff.1 htaken).1
      exact halt ▸ hconfigs c hc
    · cases hreached
  split at h
  · cases h
  · next alt halts =>
    cases h
    exact hmem alt (halts ▸ List.mem_cons_self)
  · next alt alts hne halts =>
    split at h
    · next least others hind =>
      cases h
      obtain ⟨hlen, hplaces⟩ := altsAt_of_indistinguishable hind
      obtain ⟨c, hc, _⟩ := mem_altsOf.1 (halts ▸ List.mem_cons_self : alt ∈ Frontier.altsOf configs)
      have hat := hplaces c hc
      refine Outcome.isValid_ambiguous hlen (hat ▸ pairwise_altsOf _) fun a ha => ?_
      rw [← hat] at ha
      obtain ⟨d, hd, _, rfl⟩ := mem_altsAt.1 ha
      exact hconfigs d hd
    · split at h
      · cases h
        refine Outcome.isValid_ambiguous ?_ (halts ▸ pairwise_altsOf _) fun a ha =>
          hmem a (halts ▸ ha)
        have hpos := List.length_pos_iff.2 fun hnil => hne (hnil ▸ rfl)
        rw [List.length_cons]
        omega
      · cases h

/-! ## Settling -/

/-- What a configuration stands for makes sense at a decision: it has one of its alternatives,
    and depends on predicates of the network. -/
structure Config.IsProper (net : Network) (decision : State) (c : Config) : Prop where
  alt : decision.HasAlt c.alt
  guard : c.guard.IsOver net

namespace Setting

variable {setting : Setting σ} {α : Type}

/-- A computation with predicates comes to a result of some kind, or a predicate raises a
    fault. -/
def Gives (setting : Setting σ) (Q : α → Prop) (e : Effect (Hearing σ) α) : Prop :=
  ∀ hearing, IsSafe (fun a _ => Q a) (fun fault _ => setting.grammar.Raises fault) (e hearing)

theorem gives_isGuarantee : IsGuarantee fun _ => setting.Gives where
  pure h _ := h
  bind h hf hearing := (h hearing).bind fun a hearing' ha => hf a ha hearing'

theorem truth_gives {index : Int} (h : setting.grammar.HasPredicate index) :
    setting.Gives IsGuarantee.Any (setting.truth index) := by
  obtain ⟨p, hp⟩ := h
  intro hearing
  rw [truth, bind_apply, get_apply]
  dsimp only
  cases hearing.truths.lookup index with
  | some truth => trivial
  | none =>
    dsimp only
    rw [evaluate, hp, ofExcept_ok_bind]
    have hspeculate : IsSafe (fun _ _ => True) (fun fault _ => setting.grammar.Raises fault)
        (p.speculate setting.frame setting.input setting.input.position hearing.host) := by
      rw [Predicate.speculate]
      refine .zoom ?_
      rcases he : p.evaluate _ _ with ⟨fault | truth, s⟩
      · exact .predicate hp (congrArg Prod.fst he)
      · trivial
    exact IsSafe.bind (Q := fun _ _ => True) (.zoom hspeculate) fun _ _ _ => trivial

variable (hpredicate : ∀ p ∈ setting.grammar.toNetwork.predicates, setting.grammar.HasPredicate p)

include hpredicate

/-- A node settles a decision by an outcome that is valid. -/
theorem settle_gives {afterEnd : Bool} {f : Frontier}
    (h : ∀ c ∈ f.items, c.IsProper setting.grammar.toNetwork setting.decision) :
    setting.Gives (fun outcome => ∀ o ∈ outcome, o.IsValid setting.grammar setting.decision)
      (setting.settle (.ofFrontier setting.exit afterEnd f)) := by
  have hpredicates : ∀ c ∈ f.items, ∀ p ∈ c.guard.predicates, setting.grammar.HasPredicate p :=
    fun c hc p hp => hpredicate p (Guard.mem_predicates_of_isOver (h c hc).guard p hp)
  have hverdict (l : List Config) (hl : l ⊆ f.items) (v : Verdict)
      (hv : Verdict.ofConfigs? setting.exit afterEnd l = some v) :
      (Outcome.ofVerdict v).IsValid setting.grammar setting.decision :=
    Verdict.isValid _ (fun c hc => (h c (hl hc)).alt) hv
  refine gives_isGuarantee.settle (fun c hc p hp => truth_gives (hpredicates c hc p hp)) trivial
    (fun v hv => ?_) hverdict fun found hfinds => ?_
  · -- A verdict that a node keeps is one on all its configurations.
    rw [Node.ofFrontier] at hv
    dsimp only at hv
    split at hv
    · cases hv
    · exact hverdict _ (List.Subset.refl _) v hv
  · cases found with
    | none => trivial
    | some p =>
      obtain ⟨c, hc, hp⟩ := List.mem_flatMap.1 (hfinds p rfl)
      exact hpredicates c hc p hp

end Setting

end AdaptiveLL
