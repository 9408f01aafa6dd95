import AdaptiveLL.Proofs.Prediction.Persistence
import AdaptiveLL.Proofs.Prediction.Speculation
import AdaptiveLL.Proofs.Prediction.Surroundings

/-!
# Predictions are stable

Once a prediction has come to a result with a cache, the automaton of its decision knows the way
it has taken: its start and every edge that it has followed, and these stay whatever else is
predicted (`Automaton.GrowsInto`). So the same prediction takes the same way again. It settles
the decision in the same node, as predicates that come to the same leave the same configurations
alive, and it adds nothing (`Setting.follow_again`, `Setting.run_again`). Its result is the same,
with any fuel, and the cache is left as it is (`Grammar.predictAt_isStable`).
-/

namespace AdaptiveLL

variable {σ : Type}

namespace Automaton

/-- The law of the automata in which every start and every edge leads to a node. -/
def wholeLaw : Law where
  node _ := True
  start _ _ := True
  edge _ _ _ := True
  node_edges _ h := h
  start_edges _ h := h
  edge_edges _ _ h := h
  start_same _ _ _ _ _ h := h
  edge_same _ _ _ _ _ h := h

/-- Every start and every edge leads to a node. -/
abbrev IsWhole (a : Automaton) : Prop :=
  a.Obeys wholeLaw

end Automaton

namespace Setting

variable {setting : Setting σ} {fuel : Nat} {options : PredictOptions}
  {trial trial' : Trial σ} {i j : Nat} {n m : Node} {type : Int}

/-! ## Whole automata -/

/-- A prediction leaves a whole automaton whole, even if a fault ends it. -/
theorem run_isWhole (ha : trial.automaton.IsWhole) :
    (setting.run fuel options trial).2.automaton.IsWhole :=
  (run_keeps (P := fun _ => True) (Q := fun _ => True) (fun _ h => h)
    (fun _ _ _ h => .of_state h) (fun _ _ => ⟨trivial, trivial⟩)
    (fun _ _ _ _ _ => ⟨trivial, trivial⟩) ha trivial).1

/-! ## The way that a prediction has taken -/

/-- The node that a prediction has started with is the start from then on. -/
theorem start?_start (h : setting.start fuel trial = (.ok i, trial')) :
    trial'.automaton.start? setting.outer = some i := by
  rw [start, bind_apply, get_apply] at h
  dsimp only at h
  cases hs : trial.automaton.start? setting.outer with
  | some k =>
    rw [hs] at h
    cases h
    exact hs
  | none =>
    rw [hs] at h
    obtain ⟨f, _, h⟩ := Effect.exists_of_ofExcept_bind h
    cases h
    exact trial.automaton.start?_addStart _ _

/-- The node that a token has led to is the end of an edge from then on. -/
theorem edge?_next (h : setting.next fuel i type trial = (.ok j, trial'))
    (hn : trial.automaton.nodes[i]? = some n) :
    trial'.automaton.edge? i type = some j := by
  rw [next, bind_apply, get_apply] at h
  dsimp only at h
  cases hedge : trial.automaton.edge? i type with
  | some k =>
    rw [hedge] at h
    cases h
    exact hedge
  | none =>
    rw [hedge] at h
    obtain ⟨f, _, h⟩ := Effect.exists_of_ofExcept_bind h
    cases h
    exact Automaton.edge?_addEdge hn _ _

/-- A prediction has come to a node of an automaton that obeys a law. On the way, nothing has been
    lost from the automaton and nothing has been found out by predicates. -/
structure Attains (law : Automaton.Law) (trial : Trial σ) (i : Nat) (trial' : Trial σ) : Prop where
  obeys : trial'.automaton.Obeys law
  node : ∃ n, trial'.automaton.nodes[i]? = some n
  automaton : trial.automaton.GrowsInto trial'.automaton
  hearing : trial'.toHearing = trial.toHearing

variable {law : Automaton.Law}

theorem start_attains (h : setting.start fuel trial = (.ok i, trial'))
    (ha : trial.automaton.Obeys law)
    (hnew : ∀ f, startFrontier setting.grammar.toNetwork setting.exit fuel setting.decision
        setting.outer = .ok f →
      law.node (.ofFrontier setting.exit false f) ∧
        law.start setting.outer (.ofFrontier setting.exit false f)) :
    Attains law trial i trial' := by
  have hgrows : trial.automaton.GrowsInto (setting.start fuel trial).2.automaton :=
    start_growsInto trial
  have hhearing : (setting.start fuel trial).2.toHearing = trial.toHearing := toHearing_start trial
  rw [h] at hgrows hhearing
  obtain ⟨_, _, hstart⟩ | ⟨_, _, n, hstart, ha', hn, _⟩ := start_obeys fuel trial ha hnew <;>
    cases h.symm.trans hstart
  exact ⟨ha', ⟨n, hn⟩, hgrows, hhearing⟩

theorem next_attains (h : setting.next fuel i type trial = (.ok j, trial'))
    (ha : trial.automaton.Obeys law) (hn : trial.automaton.nodes[i]? = some n)
    (hnew : ∀ f, nextFrontier setting.grammar.toNetwork setting.exit fuel n.frontier type = .ok f →
      law.node (.ofFrontier setting.exit (type == Token.endOfInput) f) ∧
        law.edge n type (.ofFrontier setting.exit (type == Token.endOfInput) f)) :
    Attains law trial j trial' := by
  have hgrows : trial.automaton.GrowsInto (setting.next fuel i type trial).2.automaton :=
    next_growsInto i type trial
  have hhearing : (setting.next fuel i type trial).2.toHearing = trial.toHearing :=
    toHearing_next i type trial
  rw [h] at hgrows hhearing
  obtain ⟨_, _, hnext⟩ | ⟨_, _, m, hnext, ha', hm, _⟩ := next_obeys fuel trial ha hn type hnew <;>
    cases h.symm.trans hnext
  exact ⟨ha', ⟨m, hm⟩, hgrows, hhearing⟩

/-! ## The same way again -/

/-- The same setting in another invocation. -/
def within (setting : Setting σ) (frame : Option Frame) : Setting σ :=
  { setting with frame }

/-- A node settles a decision whatever edges it has got. -/
theorem settle_eq_of_growsInto (h : n.GrowsInto m) : setting.settle m = setting.settle n := by
  have hedges : setting.settle m = setting.settle { m with edges := n.edges } := rfl
  rw [hedges, h.eq]

variable {agree : σ → σ → Prop} {hearing : Hearing σ} {later : Automaton}
  {r : Outcome × Nat × Nat} {fuel' : Nat}

/-- A start that there is costs nothing. -/
theorem start_again (h : later.start? setting.outer = some i) :
    setting.start fuel { toHearing := hearing, automaton := later } =
      (.ok i, { toHearing := hearing, automaton := later }) := by
  rw [start, bind_apply, get_apply]
  dsimp only
  rw [h]
  rfl

/-- An edge that there is costs nothing. -/
theorem next_again (h : later.edge? i type = some j) :
    setting.next fuel i type { toHearing := hearing, automaton := later } =
      (.ok j, { toHearing := hearing, automaton := later }) := by
  rw [next, bind_apply, get_apply]
  dsimp only
  rw [h]
  rfl

section

variable {frame : Option Frame}
  (hagree : setting.grammar.PredicatesAgree setting.input setting.frame frame agree)

include hagree

/-- Where the predicates come to the same, a node settles a decision as it has done before. -/
theorem settle_again {settled : Option Outcome} {hearing₁ : Hearing σ}
    (h : setting.settle (trial.automaton.node i) trial.toHearing = (.ok settled, hearing₁))
    (hn : trial.automaton.nodes[i]? = some n) (hlater : trial.automaton.GrowsInto later)
    (hhearing : trial.toHearing.Agrees agree hearing) :
    ∃ hearing₂, hearing₁.Agrees agree hearing₂ ∧
      (setting.within frame).settle (later.node i) hearing = (.ok settled, hearing₂) := by
  obtain ⟨m, hm, hgrows⟩ := hlater.node i n hn
  have htruth (p : Int) :
      Effect.Agrees agree (setting.truth p) ((setting.within frame).truth p) := by
    refine truth_agrees ?_ ?_ hagree p <;> rfl
  have hexit : setting.exit = (setting.within frame).exit := rfl
  obtain ⟨hr, hagrees⟩ :=
    settle_congr Effect.agrees_isCongruence htruth hexit n trial.toHearing hearing hhearing
  rw [Automaton.node_eq hn] at h
  rw [h] at hr hagrees
  rw [Automaton.node_eq hm, settle_eq_of_growsInto hgrows]
  exact ⟨_, hagrees, Prod.ext hr.symm rfl⟩

/-- From a node on, a prediction comes to the same again and adds nothing, once the way that it
    has taken is known. -/
theorem follow_again {tokens : List Token} {i stop lookahead : Nat} {n : Node} {trial : Trial σ}
    {hearing : Hearing σ}
    (h : setting.follow fuel options tokens i stop lookahead trial = (.ok r, trial'))
    (ha : trial.automaton.IsWhole) (hn : trial.automaton.nodes[i]? = some n)
    (hlater : trial'.automaton.GrowsInto later) (hhearing : trial.toHearing.Agrees agree hearing) :
    ∃ hearing', (setting.within frame).follow fuel' options tokens i stop lookahead
        { toHearing := hearing, automaton := later } =
      (.ok r, { toHearing := hearing', automaton := later }) := by
  obtain ⟨settled, hearing₁, hsettle, hcases⟩ := follow_cases h
  obtain ⟨hearing₂, hagrees, hsettle'⟩ :=
    settle_again hagree hsettle hn ((growsInto_of_follow h).trans hlater) hhearing
  obtain ⟨outcome, rfl, rfl, rfl⟩ | ⟨rfl, hstops, rfl, rfl⟩ |
    ⟨rfl, hstops, t, rest, j, trial₁, rfl, hnext, hrest⟩ := hcases
  · exact ⟨hearing₂, follow_of_some hsettle'⟩
  · exact ⟨hearing₂, follow_of_stops hsettle' hstops⟩
  · -- The token still leads where it has led, and from there on the way is known as well.
    have hattains := next_attains hnext ha hn fun _ _ => ⟨trivial, trivial⟩
    obtain ⟨m, hm⟩ := hattains.node
    have hhearing₁ : trial₁.toHearing = hearing₁ := hattains.hearing
    have hgrows : trial₁.automaton.GrowsInto later := (growsInto_of_follow hrest).trans hlater
    have hedge := hgrows.edge? (edge?_next hnext hn)
    have hnext' : (setting.within frame).next fuel' i t.type
        { toHearing := hearing₂, automaton := later } =
          (.ok j, { toHearing := hearing₂, automaton := later }) := next_again hedge
    obtain ⟨hearing', hrest'⟩ := follow_again hrest hattains.obeys hm hlater (hhearing₁ ▸ hagrees)
    refine ⟨hearing', Eq.trans (follow_cons hsettle' hstops) ?_⟩
    rw [bind_apply, hnext']
    exact hrest'
termination_by tokens

/-- A prediction comes to the same again and adds nothing. -/
theorem run_again
    (h : setting.run fuel options trial = (.ok r, trial')) (ha : trial.automaton.IsWhole)
    (hlater : trial'.automaton.GrowsInto later) (hhearing : trial.toHearing.Agrees agree hearing) :
    ∃ hearing', (setting.within frame).run fuel' options
        { toHearing := hearing, automaton := later } =
      (.ok r, { toHearing := hearing', automaton := later }) := by
  obtain ⟨i, trial₁, hstart, hfollow⟩ := exists_of_bind_apply h
  obtain ⟨ha₁, ⟨n, hn⟩, _, hhearing₁⟩ := start_attains hstart ha fun _ _ => ⟨trivial, trivial⟩
  have hgrows : trial₁.automaton.GrowsInto later := (growsInto_of_follow hfollow).trans hlater
  have hstart' : later.start? (setting.within frame).outer = some i :=
    hgrows.start _ _ (start?_start hstart)
  rw [run, bind_apply, start_again hstart']
  exact follow_again hagree hfollow ha₁ hn hlater (hhearing₁ ▸ hhearing)

end

end Setting

/-! ## Repeated predictions -/

/-- All automata of a reachable cache are whole. -/
theorem Cache.IsReachable.isWhole {g : Grammar σ} {admits : StateId → Stack → Prop} {cache : Cache}
    (hg : g.IsSound) (h : cache.IsReachable g admits) :
    cache.Keeps g fun _ _ _ a => a.IsWhole := by
  induction h with
  | new => exact keeps_ofNetwork g fun _ _ _ _ _ => Automaton.obeys_empty _ _ _
  | predict fuel options id input stack host _ _ ih =>
    exact ih.predictAt hg fun setting a _ ha => Setting.run_isWhole ha

namespace Grammar

variable {g : Grammar σ} {fuel : Nat} {options : PredictOptions} {id : StateId} {input : Input}
  {stack stack' : Stack} {cache later : Cache} {host host' : σ} {p : Prediction}
  {agree : σ → σ → Prop}

/-- In another stack of the same context, only the current invocation is another one. -/
theorem setting_of_context {setting : Setting σ} (h : g.setting id input stack = .ok setting)
    (hcontext : stack'.context = stack.context) :
    g.setting id input stack' = .ok (setting.within stack'.frames.head?) := by
  obtain ⟨rfl, hstate, hnumber, hexit, houter, rfl⟩ := setting_eq_ok h
  rw [setting_eq hstate hnumber hexit, hcontext, Setting.within, houter]

/-- A prediction once made on a cache is stable: made again in the same context and at the same
    place, where the predicates come to the same, it has the same result and leaves the cache as
    it is, whatever else has been predicted at any decision in the meantime. -/
theorem predictAt_isStable (hg : g.IsBuilt) (hcache : cache.IsReachable g fun _ _ => True)
    (huse : options.useCache = true)
    (h : (g.predictAt fuel options id input stack (cache, host)).1 = .ok p)
    (hlater : (g.predictAt fuel options id input stack (cache, host)).2.1.Leads g later)
    (hcontext : stack'.context = stack.context)
    (hagree : g.PredicatesAgree input stack.frames.head? stack'.frames.head? agree)
    (hhost : agree host host') (fuel' : Nat) :
    (g.predictAt fuel' options id input stack' (later, host')).1 = .ok p ∧
      (g.predictAt fuel' options id input stack' (later, host')).2.1 = later := by
  cases hs : g.setting id input stack with
  | error fault =>
    rw [predictAt_of_error hs] at h
    cases h
  | ok setting =>
    cases ha : options.automaton cache setting.number id with
    | error fault =>
      rw [predictAt_of_automaton_error hs ha] at h
      cases h
    | ok a =>
      rw [predictAt_of_ok hs ha] at h hlater
      obtain ⟨r, hr, rfl⟩ := Except.exists_of_map h
      rw [PredictOptions.automaton, if_pos huse, Cache.automaton_eq] at ha
      dsimp only at hlater
      rw [if_pos huse] at hlater
      obtain ⟨rfl, hstate, hnumber, hexit, _, rfl⟩ := setting_eq_ok hs
      have hwhole : a.IsWhole :=
        (hcache.isWhole hg.isSound).automaton id _ _ _ a hstate hnumber hexit ha
      rcases hrun : setting.run fuel options { automaton := a, host } with ⟨_, trial⟩
      rw [hrun] at hr hlater
      obtain rfl := hr
      -- What the automaton has become is still there, as a part of what it is now.
      obtain ⟨b, hb, hgrows⟩ :=
        hlater.growsInto.automaton _ _ (Cache.getElem?_update ha trial.automaton)
      have hs' := setting_of_context hs hcontext
      rw [← setting_frame hs] at hagree
      have hhosts : Hearing.Agrees agree { host } { host := host' } := ⟨rfl, hhost⟩
      obtain ⟨hearing, hagain⟩ := Setting.run_again hagree hrun hwhole hgrows hhosts
      rw [predictAt_of_ok hs' ((if_pos huse).trans (later.automaton_eq.2 hb)), hagain]
      dsimp only
      rw [if_pos huse]
      exact ⟨rfl, Cache.update_eq_self hb⟩

/-- What is known once the loop has been predicted in the outermost invocation, then in a call. -/
def busyCache : Cache :=
  (reentered.predictAt 30 {} 4 (.ofTypes [2, 3, 3, 2]) { frames := invocations [14] }
    ((reentered.predictAt 30 {} 4 (.ofTypes [2, 3, 3, 2]) { frames := invocations [] }
      (deepCache, ())).2.1, ())).2.1

/-- What the outermost invocation predicts by what has been found out in a call, it predicts
    for good. -/
theorem reentered_isStable :
    (reentered.predictAt 0 {} 4 (.ofTypes [2, 3, 3, 2]) { frames := invocations [] }
        (busyCache, ())).1 =
      .ok { outcome := .predicted 2, decision := 0, rule := 0, start := 0, stop := 3,
            lookahead := 4 } ∧
      (reentered.predictAt 0 {} 4 (.ofTypes [2, 3, 3, 2]) { frames := invocations [] }
        (busyCache, ())).2.1 = busyCache := by
  have hreach : deepCache.IsReachable reentered fun _ _ => True :=
    .predict 30 {} 4 (.ofTypes [2]) { frames := invocations [14] } () .new trivial
  have h : (reentered.predictAt 30 {} 4 (.ofTypes [2, 3, 3, 2]) { frames := invocations [] }
      (deepCache, ())).1 =
        .ok { outcome := .predicted 2, decision := 0, rule := 0, start := 0, stop := 3,
              lookahead := 4 } := by decide +kernel
  have hlater : (reentered.predictAt 30 {} 4 (.ofTypes [2, 3, 3, 2])
      { frames := invocations [] } (deepCache, ())).2.1.Leads reentered busyCache :=
    .predict 30 {} 4 (.ofTypes [2, 3, 3, 2]) { frames := invocations [14] } () .refl
  have hagree (frame : Option Frame) :
      reentered.PredicatesAgree (.ofTypes [2, 3, 3, 2]) frame frame Eq :=
    fun index p hp => absurd hp (predicate_ne_ok isBuilt_reentered.2.2 index p)
  exact predictAt_isStable isBuilt_reentered.1 hreach rfl h hlater rfl (hagree _) rfl 0

end Grammar

end AdaptiveLL
