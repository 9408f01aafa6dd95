import AdaptiveLL.Proofs.Prediction.Sifting
import AdaptiveLL.Proofs.Prediction.Transparency

/-!
# Where the predicates of guards come from

The predicates in the guards of a decision are those that its own invocation crosses without a
token (`Network.IsCrossedAt`): only the closures that a decision starts with put predicates into
guards, and only where no call is open and the invocation has not been left
(`isMadeAt_startFrontier`). Guards are then handed on and joined, which adds none
(`isMadeAt_nextFrontier`). So it is in all nodes that predictions leave in a cache, in whatever
contexts they have been made (`Cache.IsReachable.obeys_originLaw`).
-/

namespace AdaptiveLL

variable {σ : Type} {net : Network} {exit : LoopExit} {collect : Bool} {decision : State}

/-- An alternative of a decision comes, without a token, to a predicate where no call is open and
    the invocation that decides has not been left. -/
def Network.IsCrossedAt (net : Network) (decision : State) (p : Int) : Prop :=
  ∃ t ∈ decision.transitions, ∃ id target, net.Reaches ⟨t.target, []⟩ ⟨id, []⟩ ∧
    net.HasTransition id ⟨target, .predicate p⟩

/-- A guard that a decision may have made: it has a term, and its predicates are crossed by the
    invocation that decides. -/
structure Guard.IsMadeAt (net : Network) (decision : State) (g : Guard) : Prop where
  isOver : g.IsOver net
  terms_ne_nil : g.terms ≠ []
  isCrossedAt : ∀ p ∈ g.predicates, net.IsCrossedAt decision p

namespace Guard

theorem isMadeAt_trivial : ({} : Guard).IsMadeAt net decision where
  isOver := isOver_trivial net
  terms_ne_nil := List.cons_ne_nil [] []
  isCrossedAt p hp := by
    obtain ⟨term, hterm, hmem⟩ := mem_predicates.1 hp
    rw [List.mem_singleton.1 hterm] at hmem
    cases hmem

namespace IsMadeAt

variable {g h : Guard}

theorem require (hg : g.IsMadeAt net decision) {p : Int} (hp : net.IsCrossedAt decision p) :
    (g.require p).IsMadeAt net decision where
  isOver := by
    obtain ⟨_, _, id, target, _, ht⟩ := hp
    exact hg.isOver.require ⟨id, ⟨target, .predicate p⟩, ht, rfl⟩
  terms_ne_nil := terms_require_ne_nil hg.terms_ne_nil p
  isCrossedAt q hq := by
    obtain rfl | hq := mem_predicates_require hq
    · exact hp
    · exact hg.isCrossedAt q hq

theorem or (hg : g.IsMadeAt net decision) (hh : h.IsMadeAt net decision) :
    (g.or h).IsMadeAt net decision where
  isOver := hg.isOver.or hh.isOver
  terms_ne_nil := terms_or_ne_nil hg.isOver.isAscending hh.isOver.isAscending hg.terms_ne_nil
  isCrossedAt q hq := (mem_predicates_or hq).elim (hg.isCrossedAt q) (hh.isCrossedAt q)

end IsMadeAt

end Guard

/-! ## Frontiers -/

/-- A free transition leaves the guard as it is, or its predicate is collected. -/
theorem guard_of_freeStep {c d : Config} {t : Transition} (h : freeStep collect c t = some d) :
    d.guard = c.guard ∨ ∃ p, t.label = .predicate p ∧ c.Collects collect ∧
      d.guard = c.guard.require p := by
  obtain ⟨target, label⟩ := t
  cases label with
  | predicate p =>
    cases h
    dsimp only
    split
    · next hcollects =>
      simp only [Bool.and_eq_true, beq_iff_eq, Bool.not_eq_true'] at hcollects
      exact .inr ⟨p, rfl, ⟨hcollects.1.1, hcollects.1.2, hcollects.2⟩, rfl⟩
    · exact .inl rfl
  | epsilon | action | call =>
    cases h
    exact .inl rfl
  | _ => cases h

/-- The guards that a decision starts with are made of predicates that its own invocation
    crosses. -/
theorem isMadeAt_startFrontier {fuel : Nat} {outer : List StateId} {f : Frontier}
    (h : startFrontier net exit fuel decision outer = .ok f) :
    ∀ c ∈ f.items, c.guard.IsMadeAt net decision := by
  -- Where predicates are collected depends on how the alternative has come there.
  let P (c : Config) : Prop := c.guard.IsMadeAt net decision ∧
    ∃ t ∈ decision.transitions, c.ArisesUnder net (fun _ => true) t.target outer
  refine forall_guard_startFrontier (P := P) (fun _ _ => .or) (fun _ hc => hc.1) ?_ ?_ h
  · rintro c d hfollows ⟨hc, t, ht, harises⟩
    refine ⟨?_, t, ht, harises.follows hfollows⟩
    obtain ⟨t', ht', hstep⟩ | ⟨_, _, _, _, _, rfl⟩ := hfollows.cases
    · obtain hguard | ⟨p, hlabel, hcollects, hguard⟩ := guard_of_freeStep hstep
      · rwa [hguard]
      · obtain ⟨target, _⟩ := t'
        obtain rfl := hlabel
        rw [hguard]
        exact hc.require ⟨t, ht, c.state, target, (harises.of_collects hcollects).2, ht'⟩
    · exact hc
  · intro i t ht
    exact ⟨Guard.isMadeAt_trivial, t, List.mem_of_getElem? ht, .root⟩

theorem isMadeAt_nextFrontier {fuel : Nat} {type : Int} {f g : Frontier}
    (hf : ∀ c ∈ f.items, c.guard.IsMadeAt net decision)
    (h : nextFrontier net exit fuel f type = .ok g) :
    ∀ c ∈ g.items, c.guard.IsMadeAt net decision :=
  forall_guard_nextFrontier (fun _ _ => .or) hf h

/-! ## Caches -/

/-- The guards in all nodes are made of predicates that the invocation of the decision crosses,
    in whatever contexts predictions come to them. -/
def Automaton.originLaw (net : Network) (decision : State) : Law where
  node n := ∀ c ∈ n.frontier.items, c.guard.IsMadeAt net decision
  start _ _ := True
  edge _ _ _ := True
  node_edges _ h := h
  start_edges _ h := h
  edge_edges _ _ h := h
  start_same _ _ _ _ _ h := h
  edge_same _ _ _ _ _ h := h

/-- What is known of the predicates that have been evaluated is kept by a prediction, if it is kept
    where a decision is settled under guards that the decision may have made. -/
theorem Setting.run_keeps_origin {setting : Setting σ} {fuel : Nat} {options : PredictOptions}
    {trial : Trial σ} {P Q : Hearing σ → Prop} (hP : ∀ hearing, P hearing → Q hearing)
    (hsettle : ∀ n : Node,
      (∀ c ∈ n.frontier.items, c.guard.IsMadeAt setting.grammar.toNetwork setting.decision) →
      ∀ hearing, P hearing →
        Effect.IsSafe (fun _ => P) (fun _ => Q) (setting.settle n hearing))
    (ha : trial.automaton.Obeys (Automaton.originLaw setting.grammar.toNetwork setting.decision))
    (h : P trial.toHearing) :
    (setting.run fuel options trial).2.automaton.Obeys
        (Automaton.originLaw setting.grammar.toNetwork setting.decision) ∧
      Q (setting.run fuel options trial).2.toHearing :=
  run_keeps hP hsettle (fun _ hf => ⟨isMadeAt_startFrontier hf, trivial⟩)
    (fun _ _ _ hn hf => ⟨isMadeAt_nextFrontier hn hf, trivial⟩) ha h

/-- The guards of every decision are made of predicates that its invocation crosses, with every
    cache that predictions lead to. -/
theorem Cache.IsReachable.obeys_originLaw {g : Grammar σ} {cache : Cache}
    {admits : StateId → Stack → Prop} (hg : g.IsSound) (h : cache.IsReachable g admits) :
    cache.Keeps g fun _ s _ a => a.Obeys (Automaton.originLaw g.toNetwork s) := by
  induction h with
  | new => exact keeps_ofNetwork g fun _ _ _ _ _ => Automaton.obeys_empty _ _ _
  | predict fuel options id input stack host _ _ ih =>
    refine ih.predictAt hg fun setting a hs ha => ?_
    obtain ⟨rfl, _⟩ := Grammar.setting_eq_ok hs
    exact (Setting.run_keeps_origin (P := fun _ => True) (Q := fun _ => True) (fun _ h => h)
      (fun _ _ _ h => .of_state h) ha trivial).1

end AdaptiveLL
