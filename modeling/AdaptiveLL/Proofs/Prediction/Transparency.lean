import AdaptiveLL.Proofs.Grammar.Built
import AdaptiveLL.Proofs.Prediction.Ending
import AdaptiveLL.Proofs.Prediction.Sharing

/-!
# Caching is transparent

A cache is *reachable* if some sequence of predictions leads to it, each at any
decision, in any context and under any options (`Cache.IsReachable`). With a
reachable cache, a prediction comes to what it comes to with none, and
evaluates the same predicates in the same order (`Grammar.IgnoresCache`), if no
frontiers that the decision tells apart hold the same configurations
(`Grammar.ignoresCache_of_separates`). So it is at every decision that is not that
of a non-greedy loop; at that of a non-greedy loop this depends on the contexts
in which predictions are made.
-/

namespace AdaptiveLL

variable {σ : Type}

/-! ## One prediction -/

namespace Grammar

variable (g : Grammar σ) (fuel : Nat) (options : PredictOptions)

/-- What the predicates come to that a prediction evaluates, in order. -/
def hearing (id : StateId) (input : Input) (stack : Stack) (cache : Cache) (host : σ) :
    List (Int × Truth) :=
  match g.setting id input stack with
  | .error _ => []
  | .ok setting =>
    match options.automaton cache setting.number id with
    | .error _ => []
    | .ok automaton => (setting.run fuel options { automaton, host }).2.truths.reverse

variable {g fuel options} {id : StateId} {input : Input} {stack : Stack} {cache : Cache} {host : σ}

/-- What a setting is made of. -/
theorem setting_eq_ok {setting : Setting σ} (h : g.setting id input stack = .ok setting) :
    setting.grammar = g ∧ g.state id = .ok setting.decision ∧
      setting.decision.decision = some setting.number ∧
      LoopExit.ofState g.toNetwork setting.decision = .ok setting.exit ∧
      setting.outer = stack.context ∧ setting.input = input := by
  obtain ⟨s, hs, h⟩ := Except.exists_of_bind h
  cases hd : s.decision with
  | none =>
    rw [hd] at h
    cases h
  | some number =>
    rw [hd] at h
    obtain ⟨exit, hx, h⟩ := Except.exists_of_bind h
    cases h
    exact ⟨rfl, hs, hd, hx, rfl, rfl⟩

theorem predictAt_of_error {fault : Fault} (h : g.setting id input stack = .error fault) :
    g.predictAt fuel options id input stack (cache, host) = (.error fault, cache, host) := by
  rw [predictAt, bind_apply, Effect.ofExcept_apply, h]

theorem predictAt_of_automaton_error {setting : Setting σ} {fault : Fault}
    (h : g.setting id input stack = .ok setting)
    (ha : options.automaton cache setting.number id = .error fault) :
    g.predictAt fuel options id input stack (cache, host) = (.error fault, cache, host) := by
  rw [predictAt, bind_apply, Effect.ofExcept_apply, h]
  dsimp only
  rw [bind_apply, get_apply]
  dsimp only
  rw [bind_apply, Effect.ofExcept_apply, ha]

/-- A prediction with an automaton. -/
theorem predictAt_of_ok {setting : Setting σ} {a : Automaton}
    (h : g.setting id input stack = .ok setting)
    (ha : options.automaton cache setting.number id = .ok a) :
    g.predictAt fuel options id input stack (cache, host) =
      ((setting.run fuel options { automaton := a, host }).1.map fun (outcome, stop, lookahead) =>
          { outcome, decision := setting.number, rule := setting.decision.rule,
            start := input.position, stop, lookahead },
        if options.useCache then
          cache.update setting.number
            (setting.run fuel options { automaton := a, host }).2.automaton
        else cache,
        (setting.run fuel options { automaton := a, host }).2.host) := by
  rw [predictAt, bind_apply, Effect.ofExcept_apply, h]
  dsimp only
  rw [bind_apply, get_apply]
  dsimp only
  rw [bind_apply, Effect.ofExcept_apply, ha]
  dsimp only
  rw [bind_apply, Effect.zoom_apply]
  rcases setting.run fuel options { automaton := a, host } with
    ⟨fault | ⟨outcome, stop, lookahead⟩, trial⟩
  · rfl
  · rfl

/-- A prediction fails before it has an automaton and changes nothing, or is made with one. -/
theorem predictAt_cases (g : Grammar σ) (fuel : Nat) (options : PredictOptions) (id : StateId)
    (input : Input) (stack : Stack) (cache : Cache) (host : σ) :
    (∃ fault, g.predictAt fuel options id input stack (cache, host) =
      (.error fault, cache, host)) ∨
    ∃ setting a, g.setting id input stack = .ok setting ∧
      options.automaton cache setting.number id = .ok a := by
  cases hs : g.setting id input stack with
  | error fault => exact .inl ⟨fault, predictAt_of_error hs⟩
  | ok setting =>
    cases ha : options.automaton cache setting.number id with
    | error fault => exact .inl ⟨fault, predictAt_of_automaton_error hs ha⟩
    | ok a => exact .inr ⟨setting, a, rfl, ha⟩

/-- A prediction is about the rule of its decision. -/
theorem rule_of_predictAt {setting : Setting σ} {a : Automaton} {p : Prediction}
    (h : g.setting id input stack = .ok setting)
    (ha : options.automaton cache setting.number id = .ok a)
    (hp : (g.predictAt fuel options id input stack (cache, host)).1 = .ok p) :
    p.rule = setting.decision.rule := by
  rw [predictAt_of_ok h ha] at hp
  obtain ⟨_, _, rfl⟩ := Except.exists_of_map hp
  rfl

end Grammar

/-! ## Reachable caches -/

/-- The caches that predictions lead to from the empty one, where only some
    predictions are admitted. -/
inductive Cache.IsReachable (g : Grammar σ) (admits : StateId → Stack → Prop) : Cache → Prop
  | new : IsReachable g admits (.ofNetwork g.toNetwork)
  | predict {cache : Cache} (fuel : Nat) (options : PredictOptions) (id : StateId)
    (input : Input) (stack : Stack) (host : σ) : IsReachable g admits cache → admits id stack →
    IsReachable g admits (g.predictAt fuel options id input stack (cache, host)).2.1

/-- Every decision has an automaton, of which something holds. -/
structure Cache.Keeps (g : Grammar σ) (A : StateId → State → LoopExit → Automaton → Prop)
    (cache : Cache) : Prop where
  size : cache.automata.size = g.decisions.size
  automaton : ∀ (id : StateId) (s : State) (exit : LoopExit) (number : Nat) (a : Automaton),
    g.state id = .ok s → s.decision = some number → LoopExit.ofState g.toNetwork s = .ok exit →
    cache.automata[number]? = some a → A id s exit a

/-- The contexts in which predictions are admitted at a state. -/
def contextsAt (admits : StateId → Stack → Prop) (id : StateId) : Set (List StateId) :=
  {outer | ∃ stack : Stack, admits id stack ∧ stack.context = outer}

/-- Every decision has an automaton, which is sound if predictions do not tell
    frontiers apart that hold the same configurations. -/
structure Cache.IsSound (g : Grammar σ) (admits : StateId → Stack → Prop) (cache : Cache) :
    Prop where
  size : cache.automata.size = g.decisions.size
  automaton : ∀ (id : StateId) (s : State) (exit : LoopExit) (number : Nat) (a : Automaton),
    g.state id = .ok s → s.decision = some number → LoopExit.ofState g.toNetwork s = .ok exit →
    cache.automata[number]? = some a →
    Separates g.toNetwork exit s (contextsAt admits id) →
    a.IsSound g.toNetwork exit s (contextsAt admits id)

namespace Cache

variable {g : Grammar σ} {admits : StateId → Stack → Prop} {cache : Cache}
  {A : StateId → State → LoopExit → Automaton → Prop}

theorem automaton_eq (cache : Cache) {number : Nat} {a : Automaton} :
    cache.automaton number = .ok a ↔ cache.automata[number]? = some a := by
  rw [automaton, Builder.numbered?_natCast]
  cases cache.automata[number]? with
  | none => exact ⟨nofun, nofun⟩
  | some a' =>
    exact ⟨fun h => congrArg _ (Except.ok.inj h), fun h => congrArg _ (Option.some.inj h)⟩

theorem keeps_ofNetwork (g : Grammar σ)
    (hempty : ∀ id s exit number state, A id s exit { decision := number, state }) :
    (ofNetwork g.toNetwork).Keeps g A where
  size := by simp [ofNetwork]
  automaton id s exit number a _ _ _ ha := by
    simp only [ofNetwork, List.getElem?_toArray, List.getElem?_mapIdx, Option.map_eq_some_iff] at ha
    obtain ⟨state, _, rfl⟩ := ha
    exact hempty id s exit number state

/-- What a prediction keeps of its automaton, it keeps of all automata of a cache. -/
theorem Keeps.predictAt (hg : g.IsSound) (h : cache.Keeps g A) {fuel : Nat}
    {options : PredictOptions} {id : StateId} {input : Input} {stack : Stack} {host : σ}
    (hrun : ∀ (setting : Setting σ) (a : Automaton), g.setting id input stack = .ok setting →
      A id setting.decision setting.exit a → A id setting.decision setting.exit
        (setting.run fuel options { automaton := a, host }).2.automaton) :
    (g.predictAt fuel options id input stack (cache, host)).2.1.Keeps g A := by
  obtain ⟨fault, hfault⟩ | ⟨setting, a, hs, ha⟩ :=
    g.predictAt_cases fuel options id input stack cache host
  · rwa [hfault]
  · rw [Grammar.predictAt_of_ok hs ha]
    dsimp only
    split
    · next hcache =>
      rw [PredictOptions.automaton, if_pos hcache, automaton_eq] at ha
      obtain ⟨rfl, hstate, hnumber, hexit, _⟩ := Grammar.setting_eq_ok hs
      constructor
      · rw [update, Array.size_setIfInBounds, h.size]
      · intro id' s' exit' number' a' hs' hn' hx' ha'
        rw [update, Array.getElem?_setIfInBounds] at ha'
        split at ha'
        · next heq =>
          -- The automaton that has grown is that of the decision of the prediction.
          split at ha'
          · cases ha'
            have hid := hg.decision id setting.decision setting.number hstate hnumber
            rw [heq, hg.decision id' s' number' hs' hn'] at hid
            obtain rfl := Except.ok.inj hid
            obtain rfl := Except.ok.inj (hstate.symm.trans hs')
            obtain rfl := Except.ok.inj (hexit.symm.trans hx')
            exact hrun setting a hs (h.automaton id' _ _ _ _ hs' hnumber hx' ha)
          · cases ha'
        · exact h.automaton id' s' exit' number' a' hs' hn' hx' ha'
    · exact h

/-- A prediction is made with an automaton of which the same holds. -/
theorem Keeps.exists_automaton (hg : g.IsSound) (h : cache.Keeps g A) {id : StateId} {s : State}
    {exit : LoopExit} {number : Nat} (hs : g.state id = .ok s) (hn : s.decision = some number)
    (hx : LoopExit.ofState g.toNetwork s = .ok exit)
    (hempty : A id s exit { decision := number, state := id }) (options : PredictOptions) :
    ∃ a, options.automaton cache number id = .ok a ∧ A id s exit a := by
  rw [PredictOptions.automaton]
  split
  · have hid := hg.decision id s number hs hn
    rw [Network.decisionState, Builder.numbered?_natCast] at hid
    have hlt : number < cache.automata.size := by
      by_contra hge
      rw [h.size] at hge
      rw [Array.getElem?_eq_none (Nat.le_of_not_lt hge)] at hid
      cases hid
    have ha := Array.getElem?_eq_getElem hlt
    exact ⟨_, cache.automaton_eq.2 ha, h.automaton id s exit number _ hs hn hx ha⟩
  · exact ⟨_, rfl, hempty⟩

theorem isSound_iff_keeps : cache.IsSound g admits ↔ cache.Keeps g fun id s exit a =>
    Separates g.toNetwork exit s (contextsAt admits id) →
      a.IsSound g.toNetwork exit s (contextsAt admits id) :=
  ⟨fun h => ⟨h.size, h.automaton⟩, fun h => ⟨h.size, h.automaton⟩⟩

theorem IsSound.predictAt (hg : g.IsSound) (h : cache.IsSound g admits) {id : StateId}
    {stack : Stack} (hadmits : admits id stack) (fuel : Nat) (options : PredictOptions)
    (input : Input) (host : σ) :
    (g.predictAt fuel options id input stack (cache, host)).2.1.IsSound g admits := by
  refine isSound_iff_keeps.2 ((isSound_iff_keeps.1 h).predictAt hg fun setting a hs ha hsep => ?_)
  obtain ⟨rfl, _, _, _, houter, _⟩ := Grammar.setting_eq_ok hs
  exact Setting.run_isSound _ hsep (ha hsep) ⟨stack, hadmits, houter.symm⟩

/-- Every reachable cache is sound. -/
theorem IsReachable.isSound (hg : g.IsSound) (h : cache.IsReachable g admits) :
    cache.IsSound g admits := by
  induction h with
  | new =>
    exact isSound_iff_keeps.2 (keeps_ofNetwork g fun _ _ _ _ _ _ => Automaton.isSound_empty _ _)
  | predict fuel options id input stack host _ hadmits ih =>
    exact ih.predictAt hg hadmits fuel options input host

end Cache

/-- A prediction with a sound cache is made with a sound automaton, and so is one
    without a cache. -/
theorem Cache.IsSound.exists_automaton {g : Grammar σ} {admits : StateId → Stack → Prop}
    {cache : Cache} (hg : g.IsSound) (h : cache.IsSound g admits) {id : StateId} {s : State}
    {exit : LoopExit} {number : Nat} (hs : g.state id = .ok s) (hn : s.decision = some number)
    (hx : LoopExit.ofState g.toNetwork s = .ok exit)
    (hsep : Separates g.toNetwork exit s (contextsAt admits id)) (options : PredictOptions) :
    ∃ a, options.automaton cache number id = .ok a ∧
      a.IsSound g.toNetwork exit s (contextsAt admits id) := by
  obtain ⟨a, ha, hsound⟩ := (isSound_iff_keeps.1 h).exists_automaton hg hs hn hx
    (fun _ => Automaton.isSound_empty _ _) options
  exact ⟨a, ha, hsound hsep⟩

/-! ## With a cache and without -/

/-- A prediction comes to the same with a cache and without, evaluates the same
    predicates in the same order, and has the same effects on the host. -/
structure Grammar.IgnoresCache (g : Grammar σ) (fuel : Nat) (options : PredictOptions)
    (id : StateId) (input : Input) (stack : Stack) (cache : Cache) (host : σ) : Prop where
  result :
    (g.predictAt fuel { options with useCache := true } id input stack (cache, host)).1 =
      (g.predictAt fuel { options with useCache := false } id input stack (cache, host)).1
  hearing : g.hearing fuel { options with useCache := true } id input stack cache host =
    g.hearing fuel { options with useCache := false } id input stack cache host
  host :
    (g.predictAt fuel { options with useCache := true } id input stack (cache, host)).2.2 =
      (g.predictAt fuel { options with useCache := false } id input stack (cache, host)).2.2

namespace Grammar

variable {g : Grammar σ} {admits : StateId → Stack → Prop} {id : StateId} {stack : Stack}

/-- A prediction with a sound automaton, once there is enough fuel. -/
theorem predictAt_eq_simulate {setting : Setting σ} {input : Input} {fuel : Nat}
    (options : PredictOptions) (host : σ) {cache : Cache} {a : Automaton}
    (h : g.setting id input stack = .ok setting)
    (ha : options.automaton cache setting.number id = .ok a) {contexts : Set (List StateId)}
    (hsep : Separates setting.grammar.toNetwork setting.exit setting.decision contexts)
    (ho : setting.outer ∈ contexts) (hfuel : setting.HasFuel fuel)
    (hsound : a.IsSound setting.grammar.toNetwork setting.exit setting.decision contexts) :
    (g.predictAt fuel options id input stack (cache, host)).1 =
        (setting.simulate fuel options { host }).1.map (fun (outcome, stop, lookahead) =>
          { outcome, decision := setting.number, rule := setting.decision.rule,
            start := input.position, stop, lookahead }) ∧
      g.hearing fuel options id input stack cache host =
        (setting.simulate fuel options { host }).2.truths.reverse ∧
      (g.predictAt fuel options id input stack (cache, host)).2.2 =
        (setting.simulate fuel options { host }).2.host := by
  obtain ⟨hr, hh⟩ := Setting.run_eq { automaton := a, host } hsep hsound options ho hfuel
  rw [predictAt_of_ok h ha, hearing, h]
  dsimp only
  rw [ha, hr]
  dsimp only
  rw [← hh]
  exact ⟨rfl, rfl, rfl⟩

theorem setting_ne_outOfFuel (g : Grammar σ) (id : StateId) (input : Input) (stack : Stack) :
    g.setting id input stack ≠ .error .outOfFuel := by
  intro h
  rw [setting] at h
  cases hs : g.state id with
  | error fault =>
    rw [hs] at h
    exact g.state_ne_outOfFuel id (hs.trans (congrArg _ (Except.error.inj h)))
  | ok s =>
    rw [hs, Except.ok_bind_eq] at h
    cases hd : s.decision with
    | none =>
      rw [hd] at h
      cases h
    | some number =>
      rw [hd] at h
      dsimp only at h
      rw [LoopExit.ofState, Network.rule] at h
      cases hr : numbered? g.rules s.rule with
      | none =>
        rw [hr] at h
        cases h
      | some rule =>
        rw [hr] at h
        cases h

/-- With a reachable cache, a prediction comes to what it comes to without, where
    the decision does not tell frontiers apart that hold the same configurations. -/
theorem ignoresCache_of_separates (hg : g.IsSound) (hleft : ¬g.toNetwork.IsLeftRecursive)
    (hsep : ∀ s exit, g.state id = .ok s → LoopExit.ofState g.toNetwork s = .ok exit →
      Separates g.toNetwork exit s (contextsAt admits id)) (hadmits : admits id stack)
    (input : Input) :
    ∃ steps, ∀ fuel ≥ steps, ∀ (options : PredictOptions) (cache : Cache) (host : σ),
      cache.IsReachable g admits →
        g.IgnoresCache fuel options id input stack cache host ∧
        (g.PredicatesEnd → input.IsEnded →
          (g.predictAt fuel options id input stack (cache, host)).1 ≠ .error .outOfFuel) := by
  cases hset : g.setting id input stack with
  | error fault =>
    refine ⟨0, fun fuel _ options cache host _ => ⟨⟨?_, ?_, ?_⟩, fun _ _ => ?_⟩⟩
    · rw [predictAt_of_error hset, predictAt_of_error hset]
    · rw [hearing, hearing, hset]
    · rw [predictAt_of_error hset, predictAt_of_error hset]
    · rw [predictAt_of_error hset]
      exact fun he => g.setting_ne_outOfFuel id input stack
        (hset.trans (congrArg _ (Except.error.inj he)))
  | ok setting =>
    obtain ⟨rfl, hs, hn, hx, houter, rfl⟩ := setting_eq_ok hset
    obtain ⟨steps, hsteps⟩ := setting.exists_hasFuel hleft
    refine ⟨steps, fun fuel hf options cache host hcache => ?_⟩
    choose a ha hsound using (hcache.isSound hg).exists_automaton hg hs hn hx (hsep _ _ hs hx)
    -- With a cache and without, it is the same prediction that needs no automaton.
    have hsimulate (options : PredictOptions) := predictAt_eq_simulate options host hset
      (ha options) (hsep _ _ hs hx) ⟨stack, hadmits, houter.symm⟩ (hsteps fuel hf) (hsound options)
    have huse (b : Bool) := setting.simulate_useCache fuel options b
    refine ⟨⟨?_, ?_, ?_⟩, fun hp hend => ?_⟩
    · rw [(hsimulate _).1, (hsimulate _).1, huse true, huse false]
    · rw [(hsimulate _).2.1, (hsimulate _).2.1, huse true, huse false]
    · rw [(hsimulate _).2.2, (hsimulate _).2.2, huse true, huse false]
    · have hends := Setting.simulate_ends options hp hend (hsteps fuel hf) { host }
      rw [(hsimulate options).1]
      rcases hr : setting.simulate fuel options { host } with ⟨fault | _, _⟩
      · rw [hr] at hends
        exact fun he => hends (congrArg _ (Except.error.inj he))
      · exact nofun

end Grammar

/-- A state does not decide on a non-greedy loop. -/
def Network.IsGreedyAt (net : Network) (id : StateId) : Prop :=
  ∀ s exit, net.state id = .ok s → LoopExit.ofState net s = .ok exit → exit.active = false

/-- Caching is transparent at decisions that are not those of non-greedy loops:
    whatever predictions have been made at whatever decisions, in whatever contexts
    and under whatever options, a prediction comes to what it comes to without a
    cache, by the same predicates in the same order. -/
theorem Grammar.ignoresCache_of_greedy {g : Grammar σ} (hg : g.IsBuilt)
    (hleft : ¬g.toNetwork.IsLeftRecursive) {id : StateId} (hgreedy : g.toNetwork.IsGreedyAt id)
    (input : Input) (stack : Stack) :
    ∃ steps, ∀ fuel ≥ steps, ∀ (options : PredictOptions) (cache : Cache) (host : σ),
      cache.IsReachable g (fun _ _ => True) →
        g.IgnoresCache fuel options id input stack cache host ∧
        (g.PredicatesEnd → input.IsEnded →
          (g.predictAt fuel options id input stack (cache, host)).1 ≠ .error .outOfFuel) :=
  ignoresCache_of_separates hg.isSound hleft
    (fun s exit hs hx => separates_of_inactive (hgreedy s exit hs hx)) trivial input

theorem Grammar.IsSimple.isGreedyAt {g : Grammar σ} (h : g.IsSimple) (id : StateId) :
    g.toNetwork.IsGreedyAt id := by
  intro s exit hs hx
  obtain ⟨rule, _, hx⟩ := Except.exists_of_bind hx
  cases hx
  obtain ⟨n, _, hn⟩ := Network.state_eq_ok_iff.1 hs
  have hgreedy :=
    List.all_eq_true.1 h.greedy s (Array.mem_toList_iff.2 (Array.mem_of_getElem? hn))
  rw [Bool.not_eq_true'] at hgreedy
  rw [hgreedy]
  rfl

theorem Grammar.predicatesEnd_of_isEmpty {g : Grammar σ} (h : g.predicates.size = 0) :
    g.PredicatesEnd :=
  fun index p hp => absurd hp (predicate_ne_ok h index p)

theorem Grammar.nested_ignoresCache :
    ∃ steps, ∀ fuel ≥ steps, ∀ options : PredictOptions,
      nested.IgnoresCache fuel options 12 (.ofTypes [1, 1, 3, 2]) {}
          (nested.predictAt 9 {} 12 (.ofTypes [1, 3]) {} (.ofNetwork nested.toNetwork, ())).2.1 () ∧
        (nested.predictAt fuel options 12 (.ofTypes [1, 1, 3, 2]) {}
          ((nested.predictAt 9 {} 12 (.ofTypes [1, 3]) {} (.ofNetwork nested.toNetwork, ())).2.1,
            ())).1 ≠ .error .outOfFuel := by
  have hsimple := isSimple_nested
  obtain ⟨steps, hsteps⟩ := ignoresCache_of_greedy hsimple.built
    (Network.not_isLeftRecursive hsimple.noFreeCycle) (hsimple.isGreedyAt 12)
    (.ofTypes [1, 1, 3, 2]) {}
  refine ⟨steps, fun fuel hf options => ?_⟩
  have h := hsteps fuel hf options _ () (.predict 9 {} 12 (.ofTypes [1, 3]) {} () .new trivial)
  exact ⟨h.1, h.2 (predicatesEnd_of_isEmpty hsimple.predicates) (Input.isEnded_ofList _)⟩

end AdaptiveLL
