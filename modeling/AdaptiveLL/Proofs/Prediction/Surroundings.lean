import AdaptiveLL.Proofs.Grammar.Composition
import AdaptiveLL.Proofs.Prediction.Lockstep
import AdaptiveLL.Proofs.Prediction.Nesting

/-!
# What a non-greedy loop knows of its callers

The decision of a non-greedy loop never looks beyond the rule the loop is in, so it
does not matter to it where this rule has been called.

* `Config.StaysAbove`: every configuration that is computed has the states that the
  callers return to at the bottom of its context.
* `startFrontier_under`, `nextFrontier_under`: with other callers, the same
  configurations are computed, but for the bottom of their contexts.
* `Grammar.predictAt_ignores_callers`: so the same is predicted, as far as
  predicates come to the same.
-/

namespace AdaptiveLL

variable {σ : Type} {net : Network} {exit : LoopExit} {decision : State} {collect : Bool}
  {outer : List StateId} {fuel : Nat}

/-! ## Configurations with other callers -/

/-- A configuration with more calls open around it. -/
def Config.under (outer : List StateId) (c : Config) : Config :=
  { c with context := c.context ++ outer }

theorem isFaithful_under (outer : List StateId) : Config.IsFaithful (Config.under outer) where
  place c d := by simp [Config.place, Config.under]
  alt _ := rfl
  withGuard _ _ := rfl

theorem Config.same_under (c d : Config) : (c.under outer).same (d.under outer) = c.same d := by
  have hkey : ((c.under outer).toKey == (d.under outer).toKey) = (c.toKey == d.toKey) := by
    rw [Bool.eq_iff_iff, beq_iff_eq, beq_iff_eq, (isFaithful_under outer).toKey]
  rw [same, same, hkey]
  rfl

/-- One search has come to what another one has, with more calls around it. -/
structure Search.Mirrors (outer : List StateId) (search search' : Search) : Prop where
  seen : ∀ c, search'.hasSeen (c.under outer) = search.hasSeen c
  kept : search'.kept = search.kept.map (Config.under outer)

theorem Search.mirrors_empty (outer : List StateId) : Mirrors outer {} {} where
  seen c := by rw [hasSeen_empty, hasSeen_empty]
  kept := rfl

theorem Search.Mirrors.visit {search search' : Search} (h : Mirrors outer search search')
    (c : Config) (kept : Bool) :
    Mirrors outer (search.visit c kept) (search'.visit (c.under outer) kept) where
  seen d := by rw [hasSeen_visit, hasSeen_visit, h.seen, Config.same_under]
  kept := by
    rw [Search.visit, Search.visit, h.kept]
    cases kept <;> rfl

theorem freeStep_under (outer : List StateId) (c : Config) (t : Transition) :
    freeStep collect (c.under outer) t = (freeStep collect c t).map (Config.under outer) := by
  obtain ⟨target, label⟩ := t
  cases label <;> rfl

section

variable (hx : exit.active = true) (hstop : LeavesByStop net exit decision)

include hx hstop

/-- What more calls around it change in an expansion are only the calls around what
    follows. -/
theorem expandAt_under {c : Config} (h : c.StandsIn net decision []) {s : State}
    (hs : net.state c.state = .ok s) (outer : List StateId) :
    (expandAt exit collect s (c.under outer)).kept = (expandAt exit collect s c).kept ∧
      (expandAt exit collect s (c.under outer)).next =
        (expandAt exit collect s c).next.map (Config.under outer) := by
  have hend : exit.isAtEnd (c.under outer) = exit.isAtEnd c := rfl
  rw [expandAt, expandAt]
  split
  · next hk =>
    rw [hend]
    split
    · exact ⟨rfl, rfl⟩
    · next hatEnd =>
      -- There are calls to return from, or this would be the end of the invocation.
      cases hc : c.context with
      | nil => exact absurd (h.isAtEnd hx hstop ⟨s, hs, hk⟩ hc) hatEnd
      | cons follow context =>
        rw [Config.under, hc]
        exact ⟨rfl, rfl⟩
  · refine ⟨rfl, ?_⟩
    rw [List.map_filterMap]
    simp only [freeStep_under]

theorem expand_under {c : Config} (h : c.StandsIn net decision []) (outer : List StateId) :
    Except.Relates
      (fun e e' => e'.kept = e.kept ∧ e'.next = e.next.map (Config.under outer) ∧
        ∀ d ∈ e.next, d.StandsIn net decision [])
      (expand net exit collect c) (expand net exit collect (c.under outer)) := by
  cases hs : net.state c.state with
  | error fault =>
    have he : expand net exit collect c = .error fault := expand_eq_error.2 hs
    have he' : expand net exit collect (c.under outer) = .error fault := expand_eq_error.2 hs
    rw [he, he']
    exact .error fault
  | ok s =>
    have he : expand net exit collect c = .ok _ := expand_eq_ok.2 ⟨s, hs, rfl⟩
    have he' : expand net exit collect (c.under outer) = .ok _ := expand_eq_ok.2 ⟨s, hs, rfl⟩
    rw [he']
    obtain ⟨hkept, hnext⟩ := expandAt_under hx hstop h hs outer
    refine he ▸ .ok ⟨hkept, hnext, fun d hd => h.follows hx hstop ⟨_, he, hd⟩⟩

theorem closureFrom_under (fuel : Nat) {work : List Config} {search search' : Search}
    (hwork : ∀ c ∈ work, c.StandsIn net decision []) (h : search.Mirrors outer search') :
    Except.Relates (Search.Mirrors outer) (closureFrom net exit collect fuel work search)
      (closureFrom net exit collect fuel (work.map (Config.under outer)) search') := by
  -- Both closures look at configurations in step, as they have seen the same.
  induction fuel generalizing work search search' with
  | zero =>
    cases work with
    | nil => exact .ok h
    | cons c work => exact .error _
  | succ fuel ih =>
    cases work with
    | nil => exact .ok h
    | cons c work =>
      have hc := hwork c List.mem_cons_self
      have hrest : ∀ d ∈ work, d.StandsIn net decision [] := fun d hd =>
        hwork d (List.mem_cons_of_mem c hd)
      rw [List.map_cons]
      cases hseen : search.hasSeen c with
      | true =>
        rw [closureFrom, closureFrom, h.seen, if_pos hseen, if_pos hseen]
        exact ih hrest h
      | false =>
        rw [closureFrom_of_not_seen hseen, closureFrom_of_not_seen ((h.seen c).trans hseen)]
        refine .bind (expand_under hx hstop hc outer) fun e e' he => ?_
        obtain ⟨hkept, hnext, hstands⟩ := he
        rw [hkept, hnext, ← List.map_reverse, ← List.map_append]
        refine ih (fun d hd => ?_) (h.visit c e.kept)
        rcases List.mem_append.1 hd with hd | hd
        · exact hstands d (List.mem_reverse.1 hd)
        · exact hrest d hd

theorem startFrom_under (fuel : Nat) {transitions : List Transition}
    (hsub : transitions ⊆ decision.transitions) (alt : Int) {search search' : Search}
    (h : search.Mirrors outer search') :
    Except.Relates (Search.Mirrors outer) (startFrom net exit fuel [] alt transitions search)
      (startFrom net exit fuel outer alt transitions search') := by
  induction transitions generalizing alt search search' with
  | nil => exact .ok h
  | cons t rest ih =>
    obtain ⟨ht, hrest⟩ := List.cons_subset.1 hsub
    refine .bind (closureFrom_under hx hstop fuel ?_ h) fun _ _ => ih hrest _
    rintro c hc
    obtain rfl := List.mem_singleton.1 hc
    exact Config.standsIn_start ht alt []

/-- A decision starts with the same configurations whoever has called its rule. -/
theorem startFrontier_under (fuel : Nat) (outer : List StateId) :
    startFrontier net exit fuel decision outer =
      (startFrontier net exit fuel decision []).map (Frontier.map (Config.under outer)) := by
  have h := startFrom_under hx hstop fuel (List.Subset.refl _) 1
    (Search.mirrors_empty outer)
  rw [startFrontier, startFrontier]
  revert h
  generalize startFrom net exit fuel [] 1 decision.transitions {} = x
  generalize startFrom net exit fuel outer 1 decision.transitions {} = y
  rintro (h | fault)
  · exact congrArg Except.ok (Search.frontier_map (isFaithful_under outer) h.kept)
  · rfl

theorem followAll_under {c : Config} (hc : c.StandsIn net decision []) {type : Int}
    {transitions : List Transition} (ht : ∀ t ∈ transitions, net.HasTransition c.state t ∧
      t.label.accepts type = true) {search search' : Search} (h : search.Mirrors outer search') :
    Except.Relates (Search.Mirrors outer) (followAll net exit fuel c transitions search)
      (followAll net exit fuel (c.under outer) transitions search') := by
  induction transitions generalizing search search' with
  | nil => exact .ok h
  | cons t rest ih =>
    obtain ⟨htrans, haccepts⟩ := ht t List.mem_cons_self
    refine .bind (closureFrom_under hx hstop fuel ?_ h) fun _ _ =>
      ih fun t ht' => ht t (List.mem_cons_of_mem _ ht')
    rintro d hd
    obtain rfl := List.mem_singleton.1 hd
    exact hc.advance htrans haccepts

theorem advance_under {c : Config} (hc : c.StandsIn net decision []) (type : Int)
    {search search' : Search} (h : search.Mirrors outer search') :
    Except.Relates (Search.Mirrors outer) (advance net exit fuel type c search)
      (advance net exit fuel type (c.under outer) search') := by
  rw [advance, advance]
  cases hs : net.state c.state with
  | error fault =>
    rw [show net.state (c.under outer).state = _ from hs]
    exact .error fault
  | ok s =>
    rw [show net.state (c.under outer).state = _ from hs, Except.ok_bind_eq, Except.ok_bind_eq]
    split
    · next hk =>
      -- Where no caller is left the invocation has ended, which nothing follows.
      have hend (hcontext : c.context = []) : exit.isAtEnd c = true :=
        hc.isAtEnd hx hstop ⟨s, hs, hk⟩ hcontext
      rw [if_neg, if_neg]
      · exact .ok h
      · rintro ⟨_, hcontext, hnot⟩
        have hatEnd : exit.isAtEnd c = false := hnot
        rw [hend (List.append_eq_nil_iff.1 hcontext).1] at hatEnd
        cases hatEnd
      · rintro ⟨_, hcontext, hnot⟩
        rw [hend hcontext] at hnot
        cases hnot
    · next hk =>
      have htransitions : ∀ t ∈ s.transitions.filter fun t => t.label.accepts type,
          net.HasTransition c.state t ∧ t.label.accepts type = true := by
        intro t ht
        obtain ⟨ht, haccepts⟩ := List.mem_filter.1 ht
        exact ⟨⟨s, hs, hk, ht⟩, haccepts⟩
      exact followAll_under hx hstop hc htransitions h

theorem advanceAll_under (fuel : Nat) {configs : List Config}
    (hconfigs : ∀ c ∈ configs, c.StandsIn net decision []) (type : Int) {search search' : Search}
    (h : search.Mirrors outer search') :
    Except.Relates (Search.Mirrors outer) (advanceAll net exit fuel type configs search)
      (advanceAll net exit fuel type (configs.map (Config.under outer)) search') := by
  induction configs generalizing search search' with
  | nil => exact .ok h
  | cons c rest ih =>
    exact .bind (advance_under hx hstop (hconfigs c List.mem_cons_self) type h) fun _ _ =>
      ih fun d hd => hconfigs d (List.mem_cons_of_mem c hd)

/-- A token leads to the same configurations whoever has called the rule. -/
theorem nextFrontier_under (fuel : Nat) (type : Int) {f : Frontier}
    (hf : ∀ c ∈ f.items, c.StandsIn net decision []) (outer : List StateId) :
    nextFrontier net exit fuel (f.map (Config.under outer)) type =
      (nextFrontier net exit fuel f type).map (Frontier.map (Config.under outer)) := by
  have h := advanceAll_under hx hstop fuel hf type (Search.mirrors_empty outer)
  rw [nextFrontier, nextFrontier]
  revert h
  generalize advanceAll net exit fuel type f.items {} = x
  rw [show (f.map (Config.under outer)).items = f.items.map (Config.under outer) from rfl]
  generalize advanceAll net exit fuel type (f.items.map (Config.under outer)) {} = y
  rintro (h | fault)
  · exact congrArg Except.ok (Search.frontier_map (isFaithful_under outer) h.kept)
  · rfl

end

/-! ## Simulations with other callers -/

namespace Setting

variable (setting : Setting σ) (hx : setting.exit.active = true)
  (hstop : LeavesByStop setting.grammar.toNetwork setting.exit setting.decision)

/-- More calls around its configurations make no difference to what a frontier settles
    the decision by. -/
theorem settle_under (afterEnd : Bool) (f : Frontier) (outer : List StateId) :
    setting.settle (.ofFrontier setting.exit afterEnd (f.map (Config.under outer))) =
      setting.settle (.ofFrontier setting.exit afterEnd f) :=
  setting.settle_map (Config.under outer) (fun _ => rfl) (fun _ => rfl)
    (Verdict.ofConfigs?_map (isFaithful_under outer) (fun _ => rfl) afterEnd) f

include hx hstop

theorem simulateFrom_under (options : PredictOptions) (tokens : List Token) (afterEnd : Bool)
    {f : Frontier}
    (hf : ∀ c ∈ f.items, c.StandsIn setting.grammar.toNetwork setting.decision [])
    (stop lookahead : Nat) (outer : List StateId) :
    setting.simulateFrom fuel options tokens afterEnd (f.map (Config.under outer)) stop lookahead =
      setting.simulateFrom fuel options tokens afterEnd f stop lookahead := by
  induction tokens generalizing afterEnd f stop lookahead with
  | nil => simp only [simulateFrom, setting.settle_under]
  | cons t rest ih =>
    rw [simulateFrom, simulateFrom, setting.settle_under]
    refine bind_congr fun outcome => ?_
    cases outcome with
    | some outcome => rfl
    | none =>
      dsimp only
      rw [nextFrontier_under hx hstop fuel t.type hf]
      cases hg : nextFrontier setting.grammar.toNetwork setting.exit fuel f t.type with
      | error fault => rfl
      | ok g =>
        have hg := standsIn_nextFrontier hx hstop hf hg
        rw [Except.map, Effect.ofExcept_ok_bind, Effect.ofExcept_ok_bind, ih _ hg]

/-- A prediction comes to what it comes to where its rule has no callers. -/
theorem simulate_under (options : PredictOptions) : setting.simulate fuel options =
    Effect.ofExcept (startFrontier setting.grammar.toNetwork setting.exit fuel setting.decision
      []) >>= fun f => setting.simulateFrom fuel options setting.input.ahead false f
        setting.input.position 0 := by
  rw [simulate, startFrontier_under hx hstop]
  cases hf : startFrontier setting.grammar.toNetwork setting.exit fuel setting.decision [] with
  | error fault => rfl
  | ok f =>
    have hf := standsIn_startFrontier hx hstop hf
    rw [Except.map, Effect.ofExcept_ok_bind, Effect.ofExcept_ok_bind,
      setting.simulateFrom_under hx hstop options _ _ hf]

end Setting

/-! ## Where predicates come to the same -/

/-- What is found out by predicates in two predictions is the same, and their hosts
    agree. -/
def Hearing.Agrees (agree : σ → σ → Prop) (hearing hearing' : Hearing σ) : Prop :=
  hearing.truths = hearing'.truths ∧ agree hearing.host hearing'.host

/-- Two computations come to the same where the same has been found out, and leave
    it so. -/
def Effect.Agrees (agree : σ → σ → Prop) {α : Type} (e e' : Effect (Hearing σ) α) : Prop :=
  ∀ hearing hearing', hearing.Agrees agree hearing' →
    (e hearing).1 = (e' hearing').1 ∧ (e hearing).2.Agrees agree (e' hearing').2

/-- The predicates of a grammar come to the same in two invocations, on hosts that
    agree, and the hosts still agree behind them. -/
def Grammar.PredicatesAgree (g : Grammar σ) (input : Input) (frame frame' : Option Frame)
    (agree : σ → σ → Prop) : Prop :=
  ∀ (index : Int) (p : Predicate σ), g.predicate index = .ok p →
    ∀ host host', agree host host' →
      (p.speculate frame input input.position host).1 =
          (p.speculate frame' input input.position host').1 ∧
        agree (p.speculate frame input input.position host).2
          (p.speculate frame' input input.position host').2

variable {agree : σ → σ → Prop}

theorem Effect.agrees_isCongruence : Effect.IsCongruence fun _ => Effect.Agrees agree :=
  Effect.matches_isCongruence

theorem Effect.agrees_ofExcept {α : Type} (r : Except Fault α) :
    Effect.Agrees agree (Effect.ofExcept r) (Effect.ofExcept r) :=
  Effect.Matches.ofExcept r

theorem Grammar.PredicatesAgree.speculate {g : Grammar σ} {input : Input}
    {frame frame' : Option Frame} (h : g.PredicatesAgree input frame frame' agree) (p : Int) :
    Effect.Matches agree (g.speculate frame input p) (g.speculate frame' input p) := by
  intro host host' hhost
  rw [Grammar.speculate, Grammar.speculate]
  cases hp : g.predicate p with
  | error fault => exact ⟨rfl, hhost⟩
  | ok predicate => exact h p predicate hp host host' hhost

/-- Where the predicates of a grammar come to the same, so does the evaluation of a
    predicate in a prediction. -/
theorem Setting.truth_agrees {setting setting' : Setting σ}
    (hgrammar : setting.grammar = setting'.grammar) (hinput : setting.input = setting'.input)
    (h : setting.grammar.PredicatesAgree setting.input setting.frame setting'.frame agree)
    (p : Int) : Effect.Agrees agree (setting.truth p) (setting'.truth p) :=
  truth_matches (hgrammar ▸ hinput ▸ h.speculate) p

/-- With any callers, the decision of a non-greedy loop is simulated alike where the
    predicates come to the same. -/
theorem Setting.simulate_agrees (setting setting' : Setting σ)
    (hgrammar : setting.grammar = setting'.grammar) (hinput : setting.input = setting'.input)
    (hdecision : setting.decision = setting'.decision) (hexit : setting.exit = setting'.exit)
    (h : setting.grammar.PredicatesAgree setting.input setting.frame setting'.frame agree)
    (hx : setting.exit.active = true)
    (hstop : LeavesByStop setting.grammar.toNetwork setting.exit setting.decision) (fuel : Nat)
    (options : PredictOptions) :
    Effect.Agrees agree (setting.simulate fuel options) (setting'.simulate fuel options) := by
  have hx' := hexit ▸ hx
  have hstop' := hstop
  rw [hgrammar, hexit, hdecision] at hstop'
  rw [simulate_under setting hx hstop, simulate_under setting' hx' hstop', hgrammar, hexit,
    hdecision, hinput]
  exact Effect.agrees_isCongruence.bind (Effect.agrees_ofExcept _) fun f =>
    simulateFrom_congr fuel options Effect.agrees_isCongruence Effect.agrees_ofExcept
      (truth_agrees hgrammar hinput h) (congrArg Grammar.toNetwork hgrammar) hexit _ _ f _ _

/-! ## Predictions -/

/-- In a grammar that is composed, the rule of a decision is left by its own stop. -/
theorem Grammar.IsComposed.leavesByStop {g : Grammar σ} (hg : g.IsComposed) {id : StateId}
    {s : State} {exit : LoopExit} (hs : g.state id = .ok s) (hd : s.decision.isSome)
    (hx : LoopExit.ofState g.toNetwork s = .ok exit) : LeavesByStop g.toNetwork exit s := by
  rintro id' ⟨t, ht, w, hrun⟩ hstop
  have hkeeps := hg.keepsToRules
  obtain ⟨r, hr, hexit⟩ := Except.exists_of_bind hx
  cases hexit
  have htarget : g.toNetwork.IsOf s.rule t.target := by
    have hinner := hkeeps.inner id s hs t ht
    rwa [Fragment.innerStep, hg.isBuilt.isSound.epsilon id s hs hd t ht] at hinner
  exact hkeeps.eq_stop hstop (hkeeps.isOf_of_run hrun htarget) hr

/-- The frontiers that a decision may compute in a context. -/
inductive Frontier.IsComputed (net : Network) (exit : LoopExit) (decision : State)
    (outer : List StateId) : Frontier → Prop
  | start {fuel : Nat} {f : Frontier} : startFrontier net exit fuel decision outer = .ok f →
    IsComputed net exit decision outer f
  | next {fuel : Nat} {type : Int} {f g : Frontier} : IsComputed net exit decision outer f →
    nextFrontier net exit fuel f type = .ok g → IsComputed net exit decision outer g

/-- The configurations that a decision may compute in a context: those its closures
    begin with, those that follow in a closure, and those of its frontiers. -/
inductive Config.IsComputed (net : Network) (exit : LoopExit) (decision : State)
    (outer : List StateId) : Config → Prop
  | start {i : Nat} {t : Transition} : decision.transitions[i]? = some t →
    IsComputed net exit decision outer { state := t.target, alt := 1 + i, context := outer }
  | token {f : Frontier} {c : Config} {t : Transition} {type : Int} :
    f.IsComputed net exit decision outer → c ∈ f.items → net.HasTransition c.state t →
    t.label.accepts type = true → IsComputed net exit decision outer { c with state := t.target }
  | follows {collect : Bool} {c d : Config} : IsComputed net exit decision outer c →
    Follows net exit collect c d → IsComputed net exit decision outer d
  | merged {f : Frontier} {c : Config} : f.IsComputed net exit decision outer → c ∈ f.items →
    IsComputed net exit decision outer c

/-- A configuration has not returned from the invocation that predicts: the states that
    its callers return to are at the bottom of its context. -/
structure Config.StaysAbove (outer : List StateId) (c : Config) : Prop where
  context : outer <:+ c.context
  depth : c.depth = c.context.length - outer.length
  nonneg : 0 ≤ c.depth
  left : c.left = false

theorem Config.StandsIn.staysAbove {c : Config} (h : c.StandsIn net decision outer) :
    c.StaysAbove outer := by
  obtain ⟨calls, hcontext, hdepth, hleft, _⟩ := h
  exact
    { context := ⟨calls, hcontext.symm⟩
      depth := by
        rw [hcontext, hdepth, List.length_append]
        omega
      nonneg := by omega
      left := hleft }

theorem Frontier.IsComputed.standsIn (hx : exit.active = true)
    (hstop : LeavesByStop net exit decision) {f : Frontier}
    (h : f.IsComputed net exit decision outer) : ∀ c ∈ f.items, c.StandsIn net decision outer := by
  induction h with
  | start hf => exact standsIn_startFrontier hx hstop hf
  | next _ hg ih => exact standsIn_nextFrontier hx hstop ih hg

/-- Every configuration that is computed stands where its calls say. -/
theorem Config.IsComputed.standsIn (hx : exit.active = true)
    (hstop : LeavesByStop net exit decision) {c : Config}
    (h : c.IsComputed net exit decision outer) : c.StandsIn net decision outer := by
  induction h with
  | start ht => exact standsIn_start (List.mem_of_getElem? ht) _ outer
  | token hf hc ht ha => exact (hf.standsIn hx hstop _ hc).advance ht ha
  | follows _ hf ih => exact ih.follows hx hstop hf
  | merged hf hc => exact hf.standsIn hx hstop _ hc

namespace Grammar

variable {g : Grammar σ} {id : StateId} {s : State} {number : Nat}

theorem setting_eq {exit : LoopExit} (hs : g.state id = .ok s) (hd : s.decision = some number)
    (hx : LoopExit.ofState g.toNetwork s = .ok exit) (input : Input) (stack : Stack) :
    g.setting id input stack = .ok { grammar := g, decision := s, number, exit,
                                     frame := stack.frames.head?, outer := stack.context,
                                     input } := by
  rw [setting, hs, Except.ok_bind_eq, hd]
  dsimp only
  rw [hx]
  rfl

/-- A prediction for which nothing is remembered is a simulation. -/
theorem predictAt_eq_simulate_of_active {setting : Setting σ} {input : Input} {stack : Stack}
    (h : g.setting id input stack = .ok setting)
    (hstop : LeavesByStop setting.grammar.toNetwork setting.exit setting.decision)
    (hfuel : setting.HasFuel fuel) {options : PredictOptions} (hcache : options.useCache = false)
    (cache : Cache) (host : σ) :
    (g.predictAt fuel options id input stack (cache, host)).1 =
        (setting.simulate fuel options { host }).1.map (fun (outcome, stop, lookahead) =>
          { outcome, decision := setting.number, rule := setting.decision.rule,
            start := input.position, stop, lookahead }) ∧
      (g.predictAt fuel options id input stack (cache, host)).2.2 =
        (setting.simulate fuel options { host }).2.host := by
  have hautomaton : options.automaton cache setting.number id =
      .ok { decision := setting.number, state := id } := by
    rw [PredictOptions.automaton, hcache, if_neg Bool.false_ne_true]
  -- In one context only, no two frontiers are confused.
  have hsep : Separates setting.grammar.toNetwork setting.exit setting.decision {setting.outer} :=
    separates_of_apart hstop (apart_of_length fun _ ho => congrArg List.length ho)
  have hsimulate := predictAt_eq_simulate options host h hautomaton hsep rfl hfuel
    (Automaton.isSound_empty _ _)
  exact ⟨hsimulate.1, hsimulate.2.2⟩

/-- The decision of a non-greedy loop does not look past its rule: it predicts the same
    in any two stacks of invocations in which the predicates come to the same, if
    nothing is remembered; and no configuration that it computes has returned from
    the invocation that predicts. -/
theorem predictAt_ignores_callers (hg : g.IsComposed) (hleft : ¬g.toNetwork.IsLeftRecursive)
    {exit : LoopExit} (hs : g.state id = .ok s) (hd : s.decision.isSome)
    (hx : LoopExit.ofState g.toNetwork s = .ok exit) (hactive : exit.active = true) (input : Input)
    (stack stack' : Stack)
    (hagree : g.PredicatesAgree input stack.frames.head? stack'.frames.head? agree) :
    (∀ outer c, Config.IsComputed g.toNetwork exit s outer c → c.StaysAbove outer) ∧
      ∃ steps, ∀ fuel ≥ steps, ∀ (options : PredictOptions) (cache cache' : Cache)
        (host host' : σ), options.useCache = false → agree host host' →
          (g.predictAt fuel options id input stack (cache, host)).1 =
              (g.predictAt fuel options id input stack' (cache', host')).1 ∧
            agree (g.predictAt fuel options id input stack (cache, host)).2.2
              (g.predictAt fuel options id input stack' (cache', host')).2.2 ∧
            (g.PredicatesEnd → input.IsEnded →
              (g.predictAt fuel options id input stack (cache, host)).1 ≠ .error .outOfFuel) := by
  have hstop := hg.leavesByStop hs hd hx
  refine ⟨fun outer c hc => (hc.standsIn hactive hstop).staysAbove, ?_⟩
  obtain ⟨number, hn⟩ := Option.isSome_iff_exists.1 hd
  let setting (stack : Stack) : Setting σ :=
    { grammar := g, decision := s, number, exit, frame := stack.frames.head?,
      outer := stack.context, input }
  obtain ⟨steps, hsteps⟩ := (setting stack).exists_hasFuel hleft
  obtain ⟨steps', hsteps'⟩ := (setting stack').exists_hasFuel hleft
  refine ⟨max steps steps', fun fuel hf options cache cache' host host' hcache hhost => ?_⟩
  have hfuel := hsteps fuel ((le_max_left steps steps').trans hf)
  have hfuel' := hsteps' fuel ((le_max_right steps steps').trans hf)
  obtain ⟨hr, hh⟩ := predictAt_eq_simulate_of_active (setting_eq hs hn hx input stack) hstop hfuel
    hcache cache host
  obtain ⟨hr', hh'⟩ := predictAt_eq_simulate_of_active (setting_eq hs hn hx input stack') hstop
    hfuel' hcache cache' host'
  have hagrees := (setting stack).simulate_agrees (setting stack') rfl rfl rfl rfl hagree hactive
    hstop fuel options
  obtain ⟨hresult, _, hhosts⟩ := hagrees { host } { host := host' } ⟨rfl, hhost⟩
  refine ⟨?_, ?_, fun hp hend he => ?_⟩
  · rw [hr, hr', hresult]
  · rw [hh, hh']
    exact hhosts
  · have hends := Setting.simulate_ends options hp hend hfuel { host }
    rw [hr] at he
    rcases hx : (setting stack).simulate fuel options { host } with ⟨fault | _, _⟩
    · rw [hx] at he hends
      exact hends (congrArg _ (Except.error.inj he))
    · rw [hx] at he
      cases he

/-- A rule with a non-greedy loop under a predicate, which may call itself between two
    tokens. -/
def guarded : Grammar Unit :=
  ((ofRules [{ name := "r", body := .sequence [.star [.sequence [.predicate { text := "p" },
    .token 2]] .nonGreedy, .wildcard, .block [.token 2, .sequence [.token 3, .call "r",
      .token 1]]] }]).toOption).getD {}

theorem isComposed_guarded : guarded.IsComposed ∧ ¬guarded.toNetwork.IsLeftRecursive ∧
    (guarded.predicates.toList.all fun p => p.test.isNone) = true ∧
    (guarded.state 6).bind (LoopExit.ofState guarded.toNetwork) = .ok ⟨true, 1, 2⟩ ∧
    (guarded.state 6).map State.decision = .ok (some 0) :=
  ⟨isComposed_getD (by decide +kernel) {},
    Network.not_isLeftRecursive (Network.not_hasFreeCycle_of_descends (fun id =>
      [4, 0, 2, 1, 0, 5, 3, 4, 1, 0, 2, 0, 2, 0, 6, 5, 1, 0, 2, 1, 1].getD id.toNat 0)
        (by decide +kernel)),
    by decide +kernel, by decide +kernel, by decide +kernel⟩

/-- The predicate of the loop holds everywhere. -/
theorem evaluate_guarded {index : Int} {p : Predicate Unit} (h : guarded.predicate index = .ok p)
    (scene : Scene) : p.evaluate scene = pure .holds := by
  have htest := List.all_eq_true.1 isComposed_guarded.2.2.1 p
    (Array.mem_toList_iff.2 (mem_of_predicate h))
  rw [Predicate.evaluate, Option.isNone_iff_eq_none.1 htest]

theorem guarded_ignores_callers :
    ∃ steps, ∀ fuel ≥ steps, ∀ (limit : Nat) (cache cache' : Cache),
      (guarded.predictAt fuel { useCache := false, limit } 6 (.ofTypes [2, 3, 3, 2]) {}
          (cache, ())).1 =
        (guarded.predictAt fuel { useCache := false, limit } 6 (.ofTypes [2, 3, 3, 2])
          { frames := invocations [16] } (cache', ())).1 ∧
      (guarded.predictAt fuel { useCache := false, limit } 6 (.ofTypes [2, 3, 3, 2]) {}
        (cache, ())).1 ≠ .error .outOfFuel := by
  obtain ⟨hg, hleft, _, hexit, hdecision⟩ := isComposed_guarded
  obtain ⟨s, hs, hx⟩ := Except.exists_of_bind hexit
  have hd : s.decision.isSome := by
    rw [hs] at hdecision
    rw [Except.ok.inj hdecision]
    rfl
  have hagree : guarded.PredicatesAgree (.ofTypes [2, 3, 3, 2]) none
      (invocations [16]).head? Eq := by
    rintro index p hp host _ rfl
    rw [Predicate.speculate, Predicate.speculate, evaluate_guarded hp, evaluate_guarded hp]
    exact ⟨rfl, rfl⟩
  have hends : guarded.PredicatesEnd := by
    intro index p hp scene
    rw [evaluate_guarded hp]
    exact .pure _
  obtain ⟨_, steps, hsteps⟩ := predictAt_ignores_callers hg hleft hs hd hx rfl
    (.ofTypes [2, 3, 3, 2]) {} { frames := invocations [16] } hagree
  refine ⟨steps, fun fuel hf limit cache cache' => ?_⟩
  obtain ⟨hresult, _, hfuel⟩ := hsteps fuel hf { useCache := false, limit } cache cache' () () rfl
    rfl
  exact ⟨hresult, hfuel hends (Input.isEnded_ofList _)⟩

end Grammar

end AdaptiveLL
