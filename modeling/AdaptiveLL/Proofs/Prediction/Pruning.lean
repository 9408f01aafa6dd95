import AdaptiveLL.Proofs.Prediction.Sifting
import AdaptiveLL.Proofs.Prediction.Surroundings

/-!
# What a prediction drops

Where it does not matter when a predicate is evaluated (`Setting.Answers`), a prediction
keeps exactly the configurations whose guards hold (`Setting.alive_decides`). So after
any tokens it keeps what a simulation comes to that has dropped the paths on which a
predicate of the invocation fails as soon as they come to it
(`Grammar.alive_iff_sifted`).
-/

namespace AdaptiveLL

open Relation

variable {σ α β : Type}

/-- What has been found out of the predicates agrees with what they come to. -/
def Hearing.KeepsTo (hearing : Hearing σ) (outcome : Int → Truth) : Prop :=
  ∀ p truth, hearing.truths.lookup p = some truth → truth = outcome p

namespace Setting

variable {setting : Setting σ} {outcome : Int → Truth}

/-- What a predicate comes to where the prediction is made does not depend on what has been
    evaluated before. -/
def Answers (setting : Setting σ) (outcome : Int → Truth) : Prop :=
  ∀ index p, setting.grammar.predicate index = .ok p → ∀ host, ∃ host',
    p.speculate setting.frame setting.input setting.input.position host =
      (.ok (outcome index), host')

/-- A computation with predicates comes to a result, if they come to what they are known
    to. -/
def Decides (outcome : Int → Truth) (e : Effect (Hearing σ) α) (a : α) : Prop :=
  ∀ hearing, hearing.KeepsTo outcome → ∃ hearing', e hearing = (.ok a, hearing') ∧
    hearing'.KeepsTo outcome

theorem Decides.pure (a : α) : Decides outcome (Pure.pure a : Effect (Hearing σ) α) a :=
  fun hearing h => ⟨hearing, rfl, h⟩

theorem Decides.bind {e : Effect (Hearing σ) α} {f : α → Effect (Hearing σ) β} {a : α} {b : β}
    (he : Decides outcome e a) (hf : Decides outcome (f a) b) : Decides outcome (e >>= f) b := by
  intro hearing h
  obtain ⟨hearing', he, h'⟩ := he hearing h
  rw [bind_apply, he]
  exact hf hearing' h'

theorem truth_decides (h : setting.Answers outcome) {index : Int} {p : Predicate σ}
    (hp : setting.grammar.predicate index = .ok p) :
    Decides outcome (setting.truth index) (outcome index) := by
  intro hearing hkeeps
  cases hl : hearing.truths.lookup index with
  | some known =>
    refine ⟨hearing, ?_, hkeeps⟩
    rw [truth, bind_apply, get_apply]
    dsimp only
    rw [hl, hkeeps index known hl]
    rfl
  | none =>
    obtain ⟨host', hhost⟩ := h index p hp hearing.host
    refine ⟨{ truths := (index, outcome index) :: hearing.truths, host := host' }, ?_, ?_⟩
    · rw [truth, bind_apply, get_apply]
      dsimp only
      rw [hl]
      dsimp only
      rw [evaluate, hp, Effect.ofExcept_ok_bind, bind_apply, Effect.zoom_apply, hhost]
      rfl
    · intro q truth hq
      rw [List.lookup_cons] at hq
      split at hq
      · next he =>
        rw [beq_iff_eq.1 he]
        exact (Option.some.inj hq).symm
      · exact hkeeps q truth hq

/-- Whether a predicate may hold. -/
def mayCome (outcome : Int → Truth) (index : Int) : Bool :=
  outcome index != .fails

theorem mayHold_decides (h : setting.Answers outcome) {index : Int} {p : Predicate σ}
    (hp : setting.grammar.predicate index = .ok p) :
    Decides outcome (setting.mayHold index) (mayCome outcome index) :=
  (truth_decides h hp).bind (.pure _)

theorem allM_decides {test : α → Effect (Hearing σ) Bool} {passes : α → Bool} {l : List α}
    (h : ∀ a ∈ l, Decides outcome (test a) (passes a)) :
    Decides outcome (l.allM test) (l.all passes) := by
  induction l with
  | nil => exact .pure true
  | cons a l ih =>
    obtain ⟨ha, hl⟩ := List.forall_mem_cons.1 h
    rw [List.allM, List.all_cons]
    refine ha.bind ?_
    cases passes a with
    | false => exact .pure false
    | true => exact ih hl

theorem anyM_decides {test : α → Effect (Hearing σ) Bool} {passes : α → Bool} {l : List α}
    (h : ∀ a ∈ l, Decides outcome (test a) (passes a)) :
    Decides outcome (l.anyM test) (l.any passes) := by
  induction l with
  | nil => exact .pure false
  | cons a l ih =>
    obtain ⟨ha, hl⟩ := List.forall_mem_cons.1 h
    rw [List.anyM, List.any_cons]
    refine ha.bind ?_
    cases passes a with
    | false => exact ih hl
    | true => exact .pure true

/-- What is kept are the configurations whose guards may hold. -/
theorem alive_decides (h : setting.Answers outcome) {l : List Config}
    (hl : ∀ c ∈ l, ∀ index ∈ c.guard.predicates, ∃ p, setting.grammar.predicate index = .ok p) :
    Decides outcome (setting.alive l)
      (l.filter fun c => c.guard.holds (mayCome outcome)) := by
  induction l with
  | nil => exact .pure []
  | cons c l ih =>
    obtain ⟨hc, hl⟩ := List.forall_mem_cons.1 hl
    have hguard : Decides outcome (c.guard.holdsM setting.mayHold)
        (c.guard.holds (mayCome outcome)) := by
      refine anyM_decides fun term hterm => allM_decides fun index hindex => ?_
      obtain ⟨p, hp⟩ := hc index (Guard.mem_predicates.2 ⟨term, hterm, hindex⟩)
      exact mayHold_decides h hp
    rw [alive, List.filter_cons]
    exact hguard.bind ((ih hl).bind (by split <;> exact .pure _))

end Setting

/-- The guards of a decision say which of its paths cross no predicate of the invocation that
    fails, and what is kept after some tokens is what these paths lead to, where the invocation
    is not reentered at a predicate. -/
theorem Grammar.alive_iff_sifted {g : Grammar σ} (hg : g.IsBuilt) (hnet : g.toNetwork.IsClosed)
    (hleft : ¬g.toNetwork.IsLeftRecursive) {id : StateId} {input : Input} {stack : Stack}
    {setting : Setting σ} (hset : g.setting id input stack = .ok setting)
    (hx : setting.exit.active = false)
    (houter : ∀ follow ∈ stack.context, g.toNetwork.HasState follow)
    (hre : ∀ t ∈ setting.decision.transitions, ¬g.toNetwork.Reenters t.target stack.context)
    (outcome : Int → Truth) :
    (∃ steps f, (∀ fuel ≥ steps, startFrontier g.toNetwork setting.exit fuel setting.decision
        stack.context = .ok f) ∧
      (∀ k, f.Holds k ↔ Arrives g.toNetwork setting.decision stack.context [] k) ∧
      ∀ c ∈ f.items, c.guard.holds (Setting.mayCome outcome) = true ↔
        ArrivesUnder g.toNetwork (Setting.mayCome outcome) setting.decision stack.context
          c.toKey) ∧
    (setting.Answers outcome → ∀ w, ∃ steps f,
      (∀ fuel ≥ steps, frontierAfter g.toNetwork setting.exit fuel setting.decision
        stack.context w = .ok f) ∧
      ∀ hearing : Hearing σ, hearing.KeepsTo outcome → ∃ l hearing',
        setting.alive f.items hearing = (.ok l, hearing') ∧
        ∀ k, (∃ c ∈ l, c.toKey = k) ↔ k ∈ siftedAfter g.toNetwork (Setting.mayCome outcome)
          setting.decision stack.context w) := by
  obtain ⟨rfl, hs, -⟩ := setting_eq_ok hset
  have hdecision : ∀ t ∈ setting.decision.transitions,
      setting.grammar.toNetwork.IsIn ⟨t.target, stack.context⟩ :=
    fun t ht => ⟨(hnet id _ hs t ht).1, houter⟩
  -- Without left recursion, some fuel is enough for the frontier at the start.
  obtain ⟨n, f, hf⟩ := (startFrontier_isFueled setting.grammar.toNetwork setting.exit
    setting.decision stack.context).exists_eq_ok (startFrontier_halts hleft _ _)
    fun n => startFrontier_needsFuelOnly hnet n hdecision
  have hsifts : f.Sifts setting.grammar.toNetwork (Setting.mayCome outcome) _ :=
    sifts_startFrontier hnet hx hdecision hre (hf n le_rfl)
  refine ⟨⟨n, f, hf, fun k => holds_startFrontier_iff hx (hf n le_rfl), fun c hc => ?_⟩,
    fun hanswers w => ?_⟩
  · have hnodup : (f.items.map Config.toKey).Nodup := by
      obtain ⟨search, _, h⟩ := Except.exists_of_bind (hf n le_rfl)
      cases h
      exact search.nodup_frontier
    rw [Frontier.holds_iff_permits hnodup hc]
    exact hsifts.permits _
  · obtain ⟨m, f', hf', hafter⟩ := hsifts.exists_after hnet hleft hx w
    refine ⟨max n m, f', fun fuel hfuel => ?_, fun hearing hkeeps => ?_⟩
    · rw [frontierAfter, hf fuel ((le_max_left n m).trans hfuel)]
      exact hf' fuel ((le_max_right n m).trans hfuel)
    · have hpredicates : ∀ c ∈ f'.items, ∀ index ∈ c.guard.predicates,
          ∃ p, setting.grammar.predicate index = .ok p := by
        intro c hc index hindex
        obtain ⟨_, ⟨_, _⟩, ht, rfl⟩ :=
          Guard.mem_predicates_of_isOver (hafter.isOver c hc) index hindex
        exact hg.isSound.allows ht
      obtain ⟨hearing', hrun, -⟩ := Setting.alive_decides hanswers hpredicates hearing hkeeps
      refine ⟨_, hearing', hrun, fun k => ?_⟩
      rw [siftedAfter, ← hafter.permits]
      refine exists_congr fun c => ?_
      rw [List.mem_filter, and_assoc, and_comm (a := c.toKey = k)]

namespace Grammar

/-- Defines a rule that calls another one in a loop. The other one begins with a part that it
    uses once more behind a way past it. -/
def revisiting : Build Unit Unit := do
  let s ← Build.openRule "s" {}
  let call ← Build.call "r"
  let loop ← Build.star [call] .auto
  Build.closeRule s loop
  let r ← Build.openRule "r" {}
  let test ← Build.predicate { text := "p", test := some fun _ => pure false }
  let token ← Build.token 5
  let part ← Build.sequence [test, token]
  let empty ← Build.epsilon
  let inner ← Build.block [empty, part]
  let last ← Build.token 6
  let outer ← Build.block [inner, last]
  let body ← Build.sequence [part, outer]
  Build.closeRule r body

/-- A grammar in which a rule can be left and called again without a token. -/
def revisited : Grammar Unit :=
  ((Build.finish (revisiting {}).2).1.toOption).getD {}

theorem isReachable_revisiting : (revisiting {}).2.IsReachable :=
  (Builder.IsReachable.empty.openRule "s" {}).bind fun s _ h =>
    (h.step (.call "r")).bind fun call _ h =>
      (h.step (.star [call] .auto)).bind fun loop _ h =>
        (h.closeRule s loop).bind fun _ _ h =>
          (h.openRule "r" {}).bind fun r _ h =>
            (h.step (.predicate _)).bind fun test _ h =>
              (h.step (.token 5)).bind fun token _ h =>
                (h.step (.sequence [test, token])).bind fun part _ h =>
                  (h.step .epsilon).bind fun empty _ h =>
                    (h.step (.block [empty, part])).bind fun inner _ h =>
                      (h.step (.token 6)).bind fun last _ h =>
                        (h.step (.block [inner, last])).bind fun outer _ h =>
                          (h.step (.sequence [part, outer])).bind fun body _ h => h.closeRule r body

/-- The last decision of the rule. -/
def revisitedDecision : State :=
  { rule := 1, kind := .blockStart, transitions := [⟨14, .epsilon⟩, ⟨16, .epsilon⟩],
    decision := some 3 }

theorem revisited_eq : (Build.finish (revisiting {}).2).1.toOption.isSome = true ∧
    revisited.toNetwork.isLayered (fun id => if id < 7 then 1 else 0) = true ∧
    revisited.toNetwork.allTransitions revisited.toNetwork.leadsInside = true ∧
    revisited.state 18 = .ok revisitedDecision ∧
    LoopExit.ofState revisited.toNetwork revisitedDecision = .ok ⟨false, 8, 0⟩ ∧
    (revisited.state 8).map State.kind = .ok .ruleStop ∧
    (∀ p ∈ revisited.predicates.toList, (p.speculate none (.ofTypes [5]) 0 ()).1 = .ok .fails) ∧
    (∀ step ∈ [(14, 13), (13, 15), (15, 19), (19, 8), (3, 5), (5, 4), (4, 2), (7, 9), (10, 11)],
      revisited.toNetwork.HasTransition step.1 ⟨step.2, .epsilon⟩) ∧
    revisited.toNetwork.HasTransition 2 ⟨7, .call 1 3⟩ ∧
    revisited.toNetwork.HasTransition 9 ⟨10, .predicate 0⟩ ∧
    revisited.toNetwork.HasTransition 11 ⟨12, .atom 5⟩ ∧
    (startFrontier revisited.toNetwork ⟨false, 8, 0⟩ 40 revisitedDecision [3]).map
      (fun f => f.items.map fun c => (c.toKey, c.guard)) = .ok [(⟨11, 1, [3]⟩, ⟨[[0]]⟩),
        (⟨1, 1, []⟩, {}), (⟨16, 2, [3]⟩, {})] := by
  decide +kernel

/-- The network can be predicted in. -/
theorem revisited_isClosed : revisited.IsBuilt ∧ revisited.toNetwork.IsClosed ∧
    ¬revisited.toNetwork.IsLeftRecursive :=
  ⟨isBuilt_finish_getD isReachable_revisiting revisited_eq.1 {},
    Network.isClosed_of_leadsInside revisited_eq.2.2.1,
    Network.not_isLeftRecursive_of_isLayered _ revisited_eq.2.1⟩

/-- How the decision predicts without a call. -/
def revisitedSetting : Setting Unit :=
  { grammar := revisited, decision := revisitedDecision, number := 3, exit := ⟨false, 8, 0⟩,
    frame := none, outer := [], input := .ofTypes [5] }

/-- Without a call, what the decision keeps is what its paths under their predicates lead to. -/
theorem revisited_alive_iff_sifted :
    revisited.setting 18 (.ofTypes [5]) {} = .ok revisitedSetting ∧
    (∃ steps f, (∀ fuel ≥ steps, startFrontier revisited.toNetwork ⟨false, 8, 0⟩ fuel
        revisitedDecision [] = .ok f) ∧
      (∀ k, f.Holds k ↔ Arrives revisited.toNetwork revisitedDecision [] [] k) ∧
      ∀ c ∈ f.items, c.guard.holds (Setting.mayCome fun _ => .fails) = true ↔
        ArrivesUnder revisited.toNetwork (Setting.mayCome fun _ => .fails) revisitedDecision []
          c.toKey) ∧
    ∀ w, ∃ steps f, (∀ fuel ≥ steps, frontierAfter revisited.toNetwork ⟨false, 8, 0⟩ fuel
        revisitedDecision [] w = .ok f) ∧
      ∀ hearing : Hearing Unit, hearing.KeepsTo (fun _ => .fails) → ∃ l hearing',
        revisitedSetting.alive f.items hearing = (.ok l, hearing') ∧
        ∀ k, (∃ c ∈ l, c.toKey = k) ↔ k ∈ siftedAfter revisited.toNetwork
          (Setting.mayCome fun _ => .fails) revisitedDecision [] w := by
  obtain ⟨_, _, _, hstate, hexit, _, hfails, -⟩ := revisited_eq
  obtain ⟨hbuilt, hclosed, hleft⟩ := revisited_isClosed
  have hset : revisited.setting 18 (.ofTypes [5]) {} = .ok revisitedSetting :=
    setting_eq hstate rfl hexit _ _
  have hanswers : revisitedSetting.Answers fun _ => .fails := by
    intro index p hp host
    dsimp only [revisitedSetting] at hp ⊢
    have hp := hfails p (Array.mem_toList_iff.2 (mem_of_predicate hp))
    exact ⟨_, Prod.ext hp rfl⟩
  obtain ⟨hguards, hafter⟩ := alive_iff_sifted hbuilt hclosed hleft hset rfl nofun
    (fun _ _ => Network.not_reenters_nil) fun _ => .fails
  exact ⟨hset, hguards, hafter hanswers⟩

/-- In a call from the loop, the decision drops a way that crosses the predicate only in the
    next call. -/
theorem revisited_drops : revisited.IsBuilt ∧ revisited.toNetwork.IsClosed ∧
    ¬revisited.toNetwork.IsLeftRecursive ∧ ∃ (decision : State) (exit : LoopExit) (f : Frontier),
      revisited.state 18 = .ok decision ∧ LoopExit.ofState revisited.toNetwork decision = .ok exit ∧
      exit.active = false ∧ revisited.toNetwork.HasState 3 ∧
      startFrontier revisited.toNetwork exit 40 decision [3] = .ok f ∧
      ∃ c ∈ f.items, c.guard.holds (Setting.mayCome fun _ => .fails) = false ∧
        ArrivesUnder revisited.toNetwork (Setting.mayCome fun _ => .fails) decision [3]
          c.toKey := by
  obtain ⟨_, _, _, hstate, hexit, hstop, _, hsteps, hcall, htest, htoken, hf⟩ := revisited_eq
  simp only [List.forall_mem_cons] at hsteps
  obtain ⟨h14, h13, h15, h19, h3, h5, h4, h7, h10, -⟩ := hsteps
  have hstop : revisited.toNetwork.IsStop 8 := by
    obtain ⟨s, hs, hk⟩ := Except.exists_of_map hstop
    exact ⟨s, hs, hk⟩
  have hleaves : revisited.toNetwork.LeavesTo (Setting.mayCome fun _ => .fails) 14 [3]
      ⟨11, [3]⟩ := by
    refine ⟨8, 3, [], ?_, hstop, rfl, ?_⟩
    · exact (((Relation.ReflTransGen.single (.epsilon h14)).tail (.epsilon h13)).tail
        (.epsilon h15)).tail (.epsilon h19)
    · exact ((((((Relation.ReflTransGen.single (.epsilon h3)).tail (.epsilon h5)).tail
        (.epsilon h4)).tail (.call hcall)).tail (.epsilon h7)).tail (.predicate htest)).tail
        (.epsilon h10)
  obtain ⟨f, hf, hitems⟩ := Except.exists_of_map hf
  obtain ⟨c, hc, he⟩ := List.mem_map.1 (hitems ▸ List.mem_cons_self)
  obtain ⟨hkey, hguard⟩ := Prod.mk.inj he
  obtain ⟨s, hs, _, _⟩ := h3
  refine ⟨revisited_isClosed.1, revisited_isClosed.2.1, revisited_isClosed.2.2, revisitedDecision,
    ⟨false, 8, 0⟩, f, hstate, hexit, rfl, ⟨s, hs⟩, hf, c, hc, ?_, ?_⟩
  · rw [hguard]
    rfl
  · rw [hkey]
    exact ⟨.inr ⟨_, htoken, rfl⟩, 0, _, rfl, rfl, .inr hleaves⟩

end Grammar

end AdaptiveLL
