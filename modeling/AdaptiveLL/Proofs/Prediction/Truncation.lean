import AdaptiveLL.Proofs.Grammar.Substitution
import AdaptiveLL.Proofs.Prediction.Lockstep
import AdaptiveLL.Proofs.Prediction.Lookahead
import AdaptiveLL.Proofs.Prediction.Pruning

/-!
# Predictions that may not look far

A prediction that may only look at some number of tokens takes the way of the one that may look
at any (`Setting.follow_truncated`): if that one has need of more tokens it is given up behind
the last one allowed, and else it comes to the same (`Prediction.truncated`). In both cases it
does no harm. What it leaves in the automaton is a part of what the other one leaves, so the
other one, made afterwards, comes to its result and to the automaton that it would have come to
alone (`Grammar.predictAt_truncated`).
-/

namespace AdaptiveLL

variable {σ : Type}

/-- The options by which predictions may look at some number of tokens, at any number for `0`. -/
def PredictOptions.upTo (options : PredictOptions) (limit : Nat) : PredictOptions :=
  { options with limit }

theorem stops_upTo {options : PredictOptions} (h : options.cancelled = false)
    (limit lookahead : Nat) : (options.upTo limit).stops lookahead =
      (decide (0 < limit) && decide (limit ≤ lookahead)) := by
  rw [PredictOptions.stops, PredictOptions.upTo, h, Bool.false_or]

/-- What a prediction comes to if it may only look at some number of tokens. -/
def Prediction.truncated (p : Prediction) (limit : Nat) : Prediction :=
  if p.lookahead ≤ limit then p
  else { p with outcome := .aborted, stop := p.start + limit - 1, lookahead := limit }

/-- One prediction has come to what another one comes to if it may only look at some number of
    tokens. -/
inductive Truncates (limit : Nat) :
    Outcome × Nat × Nat → Outcome × Nat × Nat → Prop
  | same {outcome : Outcome} {stop lookahead : Nat} : lookahead ≤ limit →
    Truncates limit (outcome, stop, lookahead) (outcome, stop, lookahead)
  | aborted {outcome : Outcome} {stop stop' lookahead : Nat} : limit < lookahead →
    Truncates limit (outcome, stop, lookahead) (.aborted, stop', limit)

namespace Setting

variable {setting : Setting σ} {fuel : Nat} {options : PredictOptions} {limit : Nat}
  {agree : σ → σ → Prop} {r : Outcome × Nat × Nat} {trial' : Trial σ}

section

variable (hcancel : options.cancelled = false) (hlimit : 0 < limit)
  (hagree : setting.grammar.PredicatesAgree setting.input setting.frame setting.frame agree)

include hcancel hlimit hagree

theorem follow_truncated {tokens : List Token} {i stop lookahead : Nat} {n : Node}
    {trial : Trial σ} {hearing : Hearing σ}
    (h : setting.follow fuel (options.upTo 0) tokens i stop lookahead trial = (.ok r, trial'))
    (ha : trial.automaton.IsWhole) (hn : trial.automaton.nodes[i]? = some n)
    (hle : lookahead ≤ limit) (hhearing : trial.toHearing.Agrees agree hearing) :
    ∃ r' hearing' a,
      setting.follow fuel (options.upTo limit) tokens i stop lookahead
          { toHearing := hearing, automaton := trial.automaton } =
        (.ok r', { toHearing := hearing', automaton := a }) ∧
      Truncates limit r r' ∧
      ∀ hearing₂ : Hearing σ, trial.toHearing.Agrees agree hearing₂ → ∃ hearing₂',
        setting.follow fuel (options.upTo 0) tokens i stop lookahead
            { toHearing := hearing₂, automaton := a } =
          (.ok r, { toHearing := hearing₂', automaton := trial'.automaton }) := by
  have hspeculate := hagree.speculate
  -- With the automaton that it has been made with, the prediction comes to the same once more.
  have hagain (hearing₂ : Hearing σ) (hhearing₂ : trial.toHearing.Agrees agree hearing₂) :
      ∃ hearing₂', setting.follow fuel (options.upTo 0) tokens i stop lookahead
          { toHearing := hearing₂, automaton := trial.automaton } =
        (.ok r, { toHearing := hearing₂', automaton := trial'.automaton }) := by
    obtain ⟨hearing₂', hagain, _⟩ :=
      (follow_matches hspeculate (.refl setting) tokens i stop lookahead).of_ok h hhearing₂
    exact ⟨hearing₂', hagain⟩
  have hself : trial.automaton.GrowsInto trial.automaton := .refl _
  obtain ⟨settled, hearing₁, hsettle, hcases⟩ := follow_cases h
  obtain ⟨hearing₁', hagrees, hsettle'⟩ := settle_again hagree hsettle hn hself hhearing
  obtain ⟨outcome, rfl, rfl, rfl⟩ | ⟨_, hstops, _⟩ |
    ⟨rfl, _, t, rest, j, trial₁, rfl, hnext, hrest⟩ := hcases
  · exact ⟨_, hearing₁', _, follow_of_some hsettle', .same hle, hagain⟩
  · simp [stops_upTo hcancel] at hstops
  have hgoes : ¬(options.upTo 0).stops lookahead = true := by simp [stops_upTo hcancel]
  obtain hlt | rfl := hle.lt_or_eq
  · -- One token more is allowed, and behind it the limit is as far away as it is for the rest.
    obtain ⟨hearing₂, hnext', hhearing₂⟩ :=
      (next_matches (.refl setting) i t.type).of_ok hnext hagrees
    have hattains := next_attains hnext ha hn fun _ _ => ⟨trivial, trivial⟩
    obtain ⟨m, hm⟩ := hattains.node
    have hhearing₁ : trial₁.toHearing = hearing₁ := hattains.hearing
    obtain ⟨r', hearing', a, hlimited, htruncates, hrerun⟩ :=
      follow_truncated hrest hattains.obeys hm hlt hhearing₂
    have hgrows₁ : trial₁.automaton.GrowsInto a := growsInto_of_follow hlimited
    refine ⟨r', hearing', a, ?_, htruncates, fun hearing₃ hhearing₃ => ?_⟩
    · have hstops : ¬(options.upTo limit).stops lookahead = true := by
        simpa [stops_upTo hcancel] using fun _ => hlt
      refine Eq.trans (follow_cons hsettle' hstops) ?_
      rw [bind_apply, hnext']
      exact hlimited
    · obtain ⟨hearing₄, hagrees₃, hsettle₃⟩ :=
        settle_again hagree hsettle hn (hattains.automaton.trans hgrows₁) hhearing₃
      obtain ⟨hearing₅, hrerun⟩ := hrerun hearing₄ (hhearing₁ ▸ hagrees₃)
      refine ⟨hearing₅, Eq.trans (follow_cons hsettle₃ hgoes) ?_⟩
      rw [bind_apply]
      dsimp only
      rw [next_again (hgrows₁.edge? (edge?_next hnext hn))]
      exact hrerun
  · -- The last token allowed has been looked at, and the other prediction looks further.
    obtain ⟨k, _, hlookahead, _⟩ := follow_looks hrest
    refine ⟨_, hearing₁', _, follow_of_stops hsettle' ?_, ?_, hagain⟩
    · simpa [stops_upTo hcancel] using hlimit
    · obtain ⟨outcome, stop', lookahead'⟩ := r
      exact .aborted (by dsimp only at hlookahead; omega)
termination_by tokens

theorem run_truncated {trial : Trial σ} {hearing : Hearing σ}
    (h : setting.run fuel (options.upTo 0) trial = (.ok r, trial'))
    (ha : trial.automaton.IsWhole) (hhearing : trial.toHearing.Agrees agree hearing) :
    ∃ r' hearing' a,
      setting.run fuel (options.upTo limit) { toHearing := hearing, automaton := trial.automaton } =
        (.ok r', { toHearing := hearing', automaton := a }) ∧
      Truncates limit r r' ∧
      ∀ hearing₂ : Hearing σ, trial.toHearing.Agrees agree hearing₂ → ∃ hearing₂',
        setting.run fuel (options.upTo 0) { toHearing := hearing₂, automaton := a } =
          (.ok r, { toHearing := hearing₂', automaton := trial'.automaton }) := by
  obtain ⟨i, trial₁, hstart, hfollow⟩ := exists_of_bind_apply h
  obtain ⟨hearing₁, hstart', hhearing₁⟩ := (start_matches (.refl setting)).of_ok hstart hhearing
  obtain ⟨ha₁, ⟨n, hn⟩, _, hsame⟩ := start_attains hstart ha fun _ _ => ⟨trivial, trivial⟩
  obtain ⟨r', hearing', a, hlimited, htruncates, hrerun⟩ :=
    follow_truncated hcancel hlimit hagree hfollow ha₁ hn (Nat.zero_le limit) hhearing₁
  have hgrows : trial₁.automaton.GrowsInto a := growsInto_of_follow hlimited
  refine ⟨r', hearing', a, ?_, htruncates, fun hearing₂ hhearing₂ => ?_⟩
  · rw [run, bind_apply, hstart']
    exact hlimited
  · rw [run, bind_apply, start_again (hgrows.start _ _ (start?_start hstart))]
    exact hrerun hearing₂ (hsame ▸ hhearing₂)

end

end Setting

/-- Where a prediction that may not look far is bounded by its input, it is what is left of the
    other one. -/
theorem Truncates.eq_truncated {limit : Nat} {r r' : Outcome × Nat × Nat}
    (h : Truncates limit r r') (hlimit : 0 < limit) {setting : Setting σ} {input : Input}
    (hbounded : (setting.prediction r').IsBoundedBy input) :
    setting.prediction r' = (setting.prediction r).truncated limit := by
  rw [Prediction.truncated]
  cases h with
  | same hle => exact (if_pos hle).symm
  | @aborted _ _ stop _ hlt =>
    have hstop : stop = setting.input.position + limit - 1 := hbounded.stop.trans (if_pos hlimit)
    rw [hstop]
    exact (if_neg (Nat.not_le_of_lt hlt)).symm

/-! ## Predictions with a cache -/

/-- Of two automata for one decision, a cache keeps the last one. -/
theorem Cache.update_update (cache : Cache) (number : Nat) (a b : Automaton) :
    (cache.update number a).update number b = cache.update number b := by
  refine congrArg mk (Array.ext_getElem? fun i => ?_)
  simp only [update, Array.getElem?_setIfInBounds, Array.size_setIfInBounds]
  split <;> rfl

namespace Grammar

variable {g : Grammar σ} {fuel limit : Nat} {options : PredictOptions} {id : StateId}
  {input : Input} {stack : Stack} {cache : Cache} {host host' host'' : σ} {p : Prediction}
  {agree : σ → σ → Prop}

/-- A prediction that may only look at some number of tokens comes to what is left of that which
    may look at any, and afterwards that one comes to its result, and to the cache that it would
    have come to alone. -/
theorem predictAt_upTo (hg : g.IsBuilt) (hcache : cache.IsReachable g fun _ _ => True)
    (hcancel : options.cancelled = false) (hended : input.IsEnded) (hnumbered : input.IsNumbered)
    (hagree : g.PredicatesAgree input stack.frames.head? stack.frames.head? agree)
    (h : (g.predictAt fuel (options.upTo 0) id input stack (cache, host)).1 = .ok p)
    (hlimit : 0 < limit) (hhost : agree host host') (hhost' : agree host host'')
    {limited : Except Fault Prediction × Cache × σ}
    (hlimited : g.predictAt fuel (options.upTo limit) id input stack (cache, host') = limited) :
    limited.1 = .ok (p.truncated limit) ∧
      (g.predictAt fuel (options.upTo 0) id input stack (limited.2.1, host'')).1 = .ok p ∧
      (g.predictAt fuel (options.upTo 0) id input stack (limited.2.1, host'')).2.1 =
        (g.predictAt fuel (options.upTo 0) id input stack (cache, host)).2.1 := by
  subst hlimited
  obtain ⟨setting, a, r, trial, hs, ha, hrun, rfl⟩ := exists_run_of_predictAt h
  obtain ⟨rfl, hstate, hnumber, hexit, _, rfl⟩ := setting_eq_ok hs
  have hwhole : a.IsWhole := by
    obtain ⟨b, hb, hwhole⟩ := (hcache.isWhole hg.isSound).exists_automaton hg.isSound hstate
      hnumber hexit (Automaton.obeys_empty _ _ _) (options.upTo 0)
    exact Except.ok.inj (hb.symm.trans ha) ▸ hwhole
  rw [← setting_frame hs] at hagree
  have hhosts (host' : σ) (h : agree host host') :
      Hearing.Agrees agree { host } { host := host' } := ⟨rfl, h⟩
  obtain ⟨r', hearing', a', hlimited, htruncates, hrerun⟩ :=
    Setting.run_truncated hcancel hlimit hagree hrun hwhole (hhosts host' hhost)
  have ha' : (options.upTo limit).automaton cache setting.number id = .ok a := ha
  have hpredict := predictAt_of_run hs ha' hlimited
  refine ⟨?_, ?_⟩
  · rw [hpredict]
    exact congrArg Except.ok (htruncates.eq_truncated hlimit
      (isBoundedBy_of_predictAt hended hnumbered hpredict))
  · obtain ⟨hearing'', hrerun⟩ := hrerun { host := host'' } (hhosts host'' hhost')
    rw [predictAt_of_run hs ha hrun, hpredict]
    have huse (limit : Nat) : (options.upTo limit).useCache = options.useCache := rfl
    dsimp only
    rw [huse, huse]
    cases hc : options.useCache with
    | true =>
      have ha₀ := ha
      rw [PredictOptions.automaton, huse, if_pos hc, Cache.automaton_eq] at ha
      have hagain : (options.upTo 0).automaton (cache.update setting.number a') setting.number id =
          .ok a' := by
        rw [PredictOptions.automaton, huse, if_pos hc, Cache.automaton_eq]
        exact Cache.getElem?_update ha a'
      rw [if_pos rfl, if_pos rfl, predictAt_of_run hs hagain hrerun, huse, if_pos hc]
      exact ⟨rfl, cache.update_update setting.number a' trial.automaton⟩
    | false =>
      rw [if_neg Bool.false_ne_true, if_neg Bool.false_ne_true]
      obtain ⟨hearing₃, hsame, _⟩ :=
        (Setting.run_matches hagree.speculate (.refl setting)).of_ok hrun (hhosts host'' hhost')
      rw [predictAt_of_run hs ha hsame, huse, if_neg (by rw [hc]; exact Bool.false_ne_true)]
      exact ⟨rfl, rfl⟩

/-! ## Predictions by given outcomes -/

/-- Predicates of which it is given what they come to raise no faults, and neither does anything
    else of their grammar. -/
theorem not_raises_answering (g : Grammar σ) (outcome : Int → Truth) (fault : Fault) :
    ¬(g.answering outcome).Raises fault := by
  rintro (⟨hp, he⟩ | ⟨ha, he⟩ | ⟨hd, _⟩)
  · obtain ⟨text, rfl⟩ := exists_of_predicate_answering hp
    rw [Predicate.evaluate_always] at he
    cases he
  · rw [answering, action_withPredicates] at ha
    obtain ⟨a, _, rfl⟩ := Except.exists_of_map ha
    cases he
  · rw [signature, numbered?_of_isEmpty rfl] at hd
    cases hd

/-- Where it is known what the predicates come to, a prediction is the one by these outcomes. -/
theorem predictAt_answering {setting : Setting σ} {outcome : Int → Truth}
    (hset : g.setting id input stack = .ok setting) (h : setting.Answers outcome) :
    (g.predictAt fuel options id input stack (cache, host)).1 =
      ((g.answering outcome).predictAt fuel options id input stack (cache, ())).1 := by
  have hspeculate (index : Int) : Effect.Matches (fun (_ : σ) (_ : Unit) => True)
      (g.speculate stack.frames.head? input index)
      ((g.answering outcome).speculate stack.frames.head? input index) := by
    intro host _ _
    obtain ⟨rfl, _, _, _, _, rfl⟩ := setting_eq_ok hset
    rw [← setting_frame hset, speculate, speculate, answering, predicate_withPredicates]
    cases hp : setting.grammar.predicate index with
    | error fault => exact ⟨rfl, trivial⟩
    | ok p =>
      obtain ⟨host', hp⟩ := h index p hp host
      have halways := Predicate.speculate_always p.text (outcome index) setting.frame setting.input
        setting.input.position ()
      exact ⟨(congrArg Prod.fst hp).trans (congrArg Prod.fst halways).symm, trivial⟩
  have hnet : g.toNetwork = (g.answering outcome).toNetwork := rfl
  exact (predictAt_matches hnet rfl hspeculate (cache, host) (cache, ()) ⟨rfl, trivial⟩).1

/-- Where it is known what the predicates come to, a prediction comes to one result with
    whatever fuel, once there is enough of it. -/
theorem exists_predictAt_of_answers (hg : g.IsSound) (hnet : g.toNetwork.IsClosed)
    (hleft : ¬g.toNetwork.IsLeftRecursive) (hcache : cache.IsProper g)
    (houter : ∀ follow ∈ stack.context, g.toNetwork.HasState follow) (hended : input.IsEnded)
    {setting : Setting σ} {outcome : Int → Truth}
    (hset : g.setting id input stack = .ok setting) (h : setting.Answers outcome)
    (options : PredictOptions) :
    ∃ steps p, ∀ fuel ≥ steps, ∀ host : σ,
      (g.predictAt fuel options id input stack (cache, host)).1 = .ok p := by
  obtain ⟨_, hs, hn, -⟩ := setting_eq_ok hset
  have hd : setting.decision.decision.isSome = true := by rw [hn]; rfl
  have hg' : (g.answering outcome).IsSound := hg.withPredicates _
  have hcache' : cache.IsProper (g.answering outcome) := ⟨hcache.size, hcache.automaton⟩
  obtain ⟨steps, r, hr, hsteps⟩ := predictAt_converges hg' hnet hleft
    (predicatesEnd_of_not_raises (not_raises_answering g outcome _)) hcache' hs hd options hended
    stack ()
  have hrun : (g.answering outcome).predictAt steps options id input stack (cache, ()) = r :=
    hsteps steps le_rfl
  have hsafe : Effect.IsSafe _ _
      ((g.answering outcome).predictAt steps options id input stack (cache, ())) :=
    predictAt_isSafe hg' hnet hcache' hs hd
  rw [hrun] at hsafe
  obtain ⟨fault | p, s⟩ := r
  · -- Nothing can have raised this fault.
    obtain rfl | hraises := hsafe.1 houter
    · exact absurd rfl hr
    · exact absurd hraises (not_raises_answering g outcome fault)
  · refine ⟨steps, p, fun fuel hfuel host => ?_⟩
    rw [predictAt_answering hset h]
    exact congrArg Prod.fst (hsteps fuel hfuel)

/-- The limit on how far a prediction may look is exact, and a prediction that is given up does
    no harm: where it is known what the predicates come to, one that may look at any number of
    tokens comes to a result, which is cut off at the limit by one that may not, and comes to it
    afterwards, with the cache that it would have left alone. -/
theorem predictAt_truncated (hg : g.IsBuilt) (hcache : cache.IsReachable g fun _ _ => True)
    (options : PredictOptions) (hcancel : options.cancelled = false) (hended : input.IsEnded)
    (hnumbered : input.IsNumbered) {setting : Setting σ} {outcome : Int → Truth}
    (hset : g.setting id input stack = .ok setting) (hanswers : setting.Answers outcome) :
    (g.toNetwork.IsClosed → ¬g.toNetwork.IsLeftRecursive →
      (∀ follow ∈ stack.context, g.toNetwork.HasState follow) →
      ∃ steps p, ∀ fuel ≥ steps, ∀ host : σ,
        (g.predictAt fuel (options.upTo 0) id input stack (cache, host)).1 = .ok p) ∧
    ∀ (fuel : Nat) (host : σ) (p : Prediction),
      (g.predictAt fuel (options.upTo 0) id input stack (cache, host)).1 = .ok p →
      ∀ limit > 0, ∀ (host' host'' : σ) (limited : Except Fault Prediction × Cache × σ),
        g.predictAt fuel (options.upTo limit) id input stack (cache, host') = limited →
          limited.1 = .ok (p.truncated limit) ∧
          (g.predictAt fuel (options.upTo 0) id input stack (limited.2.1, host'')).1 = .ok p ∧
          (g.predictAt fuel (options.upTo 0) id input stack (limited.2.1, host'')).2.1 =
            (g.predictAt fuel (options.upTo 0) id input stack (cache, host)).2.1 := by
  have hagree : g.PredicatesAgree input stack.frames.head? stack.frames.head? fun _ _ => True := by
    intro index p hp host host' _
    obtain ⟨rfl, _, _, _, _, rfl⟩ := setting_eq_ok hset
    obtain ⟨_, hhost⟩ := hanswers index p hp host
    obtain ⟨_, hhost'⟩ := hanswers index p hp host'
    rw [← setting_frame hset, hhost, hhost']
    exact ⟨rfl, trivial⟩
  refine ⟨fun hnet hleft houter => ?_, fun fuel host p hp limit hlimit host' host'' limited h => ?_⟩
  · exact exists_predictAt_of_answers hg.isSound hnet hleft (hcache.isProper hg.isSound hnet)
      houter hended hset hanswers (options.upTo 0)
  · exact predictAt_upTo hg hcache hcancel hended hnumbered hagree hp hlimit trivial trivial h

/-- What the decision under a predicate comes to in a call: no alternative is left behind the end
    of the input. -/
def guardedPrediction : Prediction :=
  { outcome := .noViableAlt, decision := 0, rule := 0, start := 0, stop := 4, lookahead := 5 }

/-- What a prediction in the outermost invocation has left that was given up. -/
def interruptedCache : Cache :=
  (guarded.predictAt 40 (.upTo {} 2) 6 (.ofTypes [2, 3, 3, 2]) {}
    (.ofNetwork guarded.toNetwork, ())).2.1

/-- One token less is too few to find out that no alternative is left. -/
theorem guarded_predictAt_truncated :
    (∃ steps p, ∀ fuel ≥ steps, ∀ host, (guarded.predictAt fuel (.upTo {} 0) 6
      (.ofTypes [2, 3, 3, 2]) { frames := invocations [16] } (interruptedCache, host)).1 = .ok p) ∧
    (guarded.predictAt 40 (.upTo {} 5) 6 (.ofTypes [2, 3, 3, 2])
      { frames := invocations [16] } (interruptedCache, ())).1 = .ok guardedPrediction ∧
    ∀ limited, guarded.predictAt 40 (.upTo {} 4) 6 (.ofTypes [2, 3, 3, 2])
        { frames := invocations [16] } (interruptedCache, ()) = limited →
      limited.1 = .ok { guardedPrediction with outcome := .aborted, stop := 3, lookahead := 4 } ∧
      (guarded.predictAt 40 (.upTo {} 0) 6 (.ofTypes [2, 3, 3, 2])
        { frames := invocations [16] } (limited.2.1, ())).1 = .ok guardedPrediction := by
  obtain ⟨hg, hleft, _, hexit, hdecision⟩ := isComposed_guarded
  obtain ⟨s, hs, _⟩ := Except.exists_of_bind hexit
  have hd : s.decision = some 0 := by
    rw [hs] at hdecision
    exact Except.ok.inj hdecision
  obtain ⟨setting, hset, _⟩ := exists_setting hg.isBuilt.isSound hs hd (.ofTypes [2, 3, 3, 2])
    { frames := invocations [16] }
  have hanswers : setting.Answers fun _ => .holds := by
    obtain ⟨hsame, _⟩ := setting_eq_ok hset
    intro index p hp host
    rw [hsame] at hp
    rw [Predicate.speculate, Effect.zoom_apply, evaluate_guarded hp]
    exact ⟨_, rfl⟩
  have hcache : interruptedCache.IsReachable guarded fun _ _ => True :=
    .predict 40 (.upTo {} 2) 6 (.ofTypes [2, 3, 3, 2]) {} () .new trivial
  obtain ⟨hrun, hfollow⟩ : (guarded.predictAt 40 (.upTo {} 0) 6 (.ofTypes [2, 3, 3, 2])
      { frames := invocations [16] } (interruptedCache, ())).1 = .ok guardedPrediction ∧
        (guarded.toNetwork.state 16).toOption.isSome = true := by decide +kernel
  have hended : (Input.ofTypes [2, 3, 3, 2]).IsEnded := Input.isEnded_ofList _
  have hnumbered : (Input.ofTypes [2, 3, 3, 2]).IsNumbered := Input.isNumbered_ofList _
  obtain ⟨hresult, hlimited⟩ :=
    predictAt_truncated hg.isBuilt hcache {} rfl hended hnumbered hset hanswers
  refine ⟨hresult hg.isClosed hleft ?_, ?_, fun limited h => ?_⟩
  · exact List.forall_mem_singleton.2 (Network.hasState_of_isSome hfollow)
  · have hsame : guardedPrediction.truncated 5 = guardedPrediction := by decide
    obtain ⟨hresult, _⟩ := hlimited 40 () guardedPrediction hrun 5 (by decide) () () _ rfl
    rw [hresult, hsame]
  · have hcut : guardedPrediction.truncated 4 =
        { guardedPrediction with outcome := .aborted, stop := 3, lookahead := 4 } := by decide
    obtain ⟨htruncated, hagain, _⟩ :=
      hlimited 40 () guardedPrediction hrun 4 (by decide) () () limited h
    rw [htruncated, hcut]
    exact ⟨rfl, hagain⟩

end Grammar

end AdaptiveLL
