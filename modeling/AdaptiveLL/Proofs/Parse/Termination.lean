import AdaptiveLL.Proofs.Grammar.Looping
import AdaptiveLL.Proofs.Parse.Safety
import AdaptiveLL.Proofs.Prediction.Termination

/-!
# Parses terminate

Between two tokens, a parse goes on for finitely many steps, as every run that consumes nothing
ends. It consumes finitely many tokens before the end of the input, and then nothing but this
end, in grammars in which nothing is consumed behind it (`Network.StopsAtEnd`). So there is no
infinite sequence of moves (`Network.IsCohesive.acc_moves`), and no step of a parse runs on for
ever (`Machine.step_converges`). Hence a parse comes to one result with whatever fuel, once there
is enough of it (`Grammar.parse_terminates`).
-/

namespace AdaptiveLL

open Effect

variable {σ : Type}

/-! ## Moves -/

namespace Network

/-- Nothing is consumed behind the end of the input. -/
def StopsAtEnd (net : Network) : Prop :=
  ∀ (id : RuleId) (rule : Rule) (v w : List Int) (q : Point), net.rule id = .ok rule →
    net.Run ⟨rule.start, []⟩ (v ++ Token.endOfInput :: w) q → w = []

/-- Without transitions that match the end of the input, nothing comes behind it. -/
theorem stopsAtEnd_of_allTransitions {net : Network}
    (h : net.allTransitions (fun t => !t.label.accepts Token.endOfInput) = true) :
    net.StopsAtEnd := by
  intro id rule v w q _ hrun
  obtain ⟨_, _, hrun⟩ := run_append_iff.1 hrun
  obtain ⟨id, _, t, _, ht, ha, _⟩ := run_cons_iff.1 hrun
  rw [not_accepts_of_allTransitions h id t ht] at ha
  cases ha

variable {net : Network} {loops : List Fragment} {start p : Point} {input : Input}
  (h : net.IsCohesive loops) (hfree : ∀ p, net.StandsWithin p → Acc (fun q p => net.FreeStep p q) p)
  (hend : ∀ v w q, net.Run start (v ++ Token.endOfInput :: w) q → w = [])

/-- An input still ends when it is moved on in. -/
theorem Moves.isEnded {q : Point} {input' : Input} (hm : net.Moves p input q input')
    (hended : input.IsEnded) : input'.IsEnded := by
  cases hm with
  | free => exact hended
  | token => exact hended.consume

namespace IsCohesive

include h hfree hend

/-- Behind the end of the input, all moves are free steps. -/
theorem acc_moves_of_end {v : List Int} (hp : net.StandsWithin p)
    (hrun : net.Run start (v ++ [Token.endOfInput]) p) (input : Input) :
    Acc (fun y x => net.Moves x.1 x.2 y.1 y.2) (p, input) := by
  -- Along the free steps, the run that leads here is still one past the end of the input.
  induction hfree p hp with
  | intro p _ ih =>
    refine ⟨_, ?_⟩
    rintro ⟨q, input'⟩ hmoves
    cases hmoves with
    | free hs => exact ih q hs (h.freeStep hp hs) (by simpa using hrun.trans (.free hs (.refl q)))
    | token ht ha =>
      have htoken := hrun.trans (.token ht ha (.refl _))
      rw [List.append_assoc, List.singleton_append] at htoken
      cases hend _ _ _ htoken

/-- There is no infinite sequence of moves: each token that is consumed is one less ahead, or
    the end of the input. -/
theorem acc_moves {v : List Int} (hp : net.StandsWithin p) (hrun : net.Run start v p)
    (hended : input.IsEnded) : Acc (fun y x => net.Moves x.1 x.2 y.1 y.2) (p, input) := by
  -- The order is lexicographic: by the tokens that are ahead, then by the free steps.
  induction hlen : input.ahead.length using Nat.strong_induction_on generalizing p v input with
  | _ n ih =>
    induction hfree p hp with
    | intro p _ ihfree =>
      refine ⟨_, ?_⟩
      rintro ⟨q, input'⟩ hmoves
      cases hmoves with
      | free hs =>
        exact ihfree q hs (h.freeStep hp hs) (by simpa using hrun.trans (.free hs (.refl q)))
      | token ht ha =>
        have hq : net.StandsWithin ⟨_, _⟩ := ⟨h.target hp.1 ht, hp.2⟩
        have htoken := hrun.trans (.token ht ha (.refl _))
        by_cases hlast : input.current.isEnd = true
        · rw [Token.isEnd_iff.1 hlast] at htoken
          exact h.acc_moves_of_end hfree hend hq htoken _
        · refine ih _ ?_ hq htoken hended.consume rfl
          rw [← hlen, hended.ahead_eq, if_neg hlast, List.length_cons]
          exact Nat.lt_succ_self _

end IsCohesive

end Network

/-! ## Steps -/

namespace Machine

variable {g : Grammar σ} {m : Machine σ} {loops : List Fragment} (hg : g.IsSound)
  (hnet : g.toNetwork.IsCohesive loops) (hleft : ¬g.toNetwork.IsLeftRecursive)
  (hraises : ¬g.Raises .outOfFuel)

/-- What needs no fuel comes to a result, if no predicate, action or default runs on for ever. -/
theorem converges_of_isSafe {α : Type} {e : Effect (Machine σ) α} {Q : α → Machine σ → Prop}
    (hraises : ¬g.Raises .outOfFuel) (h : IsSafeFor g.Raises Q (e m)) :
    Converges (fun _ => e) m :=
  converges_const fun he => hraises (h.of_error he)

variable (hm : m.IsPlaced g) (hended : m.input.IsEnded)

include hg hnet hleft hraises hm hended

/-- A prediction comes to a result. -/
theorem decide_converges (options : ParseOptions) {s : State} (hs : g.state m.state = .ok s)
    (hd : s.decision.isSome = true) : Converges (fun fuel => decide g fuel options) m := by
  unfold decide
  refine .bind_of_ok rfl ?_
  have hpredict := Grammar.predictAt_converges hg hnet.isClosed hleft
    (Grammar.predicatesEnd_of_not_raises hraises) hm.cache hs hd
    options.toPredictOptions hended m.stack m.host
  refine .bind_of_isSafe (.zoom hpredict) (fun _ => predictAt_isSafe hg hnet hm hs hd) ?_
  rintro p _ ⟨⟨hvalid, hrule⟩, cache, host, rfl, hcache⟩
  obtain ⟨r, hr⟩ := hg.rule m.state s hs
  obtain ⟨d, report, hreport⟩ := m.report.exists_addPrediction hvalid (hrule ▸ hr) m.input
  refine .bind_of_ok rfl ?_
  dsimp only
  rw [hreport]
  exact .of_ok rfl

/-- A step comes to a result. -/
theorem step_converges (options : ParseOptions) (vocabulary : Vocabulary) :
    Converges (fun fuel => step g fuel options vocabulary) m := by
  have hstate : g.toNetwork.HasState m.state := hnet.hasState hm.within.1
  obtain ⟨s, hs⟩ := hstate
  have hrule := hg.rule m.state s hs
  unfold step
  refine .bind_of_ok rfl ?_
  dsimp only
  rw [show g.state m.state = .ok s from hs]
  refine .bind_of_ok rfl ?_
  split
  · next hk => exact converges_of_isSafe hraises (leave_isSafe hnet hm hs hk)
  next hk =>
  split
  · next hd =>
    -- Wherever the prediction leaves the parse, the transition that it takes is there.
    have hdecide := decide_converges hg hnet hleft hraises hm hended options hs hd
    refine .bind_of_isSafe hdecide (fun _ => decide_isSafe hg hnet hm hs hd) ?_
    rintro index m' ⟨⟨hm', hpoint, -⟩, hindex⟩
    cases index with
    | none => exact .of_ok rfl
    | some i =>
      obtain ⟨t, ht⟩ := hindex i rfl
      have hstate : m'.state = m.state := congrArg Point.state hpoint
      dsimp only
      rw [ht]
      exact converges_of_isSafe hraises
        (take_isSafe hg hnet hm' ⟨s, hstate ▸ hs, hk, List.mem_of_getElem? ht⟩ hrule)
  · obtain ⟨t, hfirst, ht⟩ := hm.exists_first hnet hs hk
    refine .bind_of_ok rfl ?_
    dsimp only
    rw [hfirst]
    exact converges_of_isSafe hraises (take_isSafe hg hnet hm ht hrule)

/-- Where there is no infinite sequence of moves, a parse comes to a result, if each of its steps
    is granted as much fuel as there are steps. -/
theorem run_converges (options : ParseOptions) (vocabulary : Vocabulary)
    (hacc : Acc (fun y x => g.toNetwork.Moves x.1 x.2 y.1 y.2) (m.point, m.input))
    {fuel : Nat → Nat} (hfuel : ∀ n, n ≤ fuel n) :
    Converges (fun n => run g (fuel n) options vocabulary n) m := by
  generalize hx : (m.point, m.input) = x at hacc
  induction hacc generalizing m fuel with
  | intro x _ ih =>
    subst hx
    -- With one step more, there is still fuel enough for the steps that are left.
    have hmore (n : Nat) : n ≤ fuel (n + 1) := (Nat.le_succ n).trans (hfuel (n + 1))
    have hstep := step_converges hg hnet hleft hraises hm hended options vocabulary
    refine .of_succ ?_
    simp only [run]
    refine Converges.bind_of_isSafe (hstep.comp hmore) (fun _ => step_isSafe hg hnet hm) ?_
    intro progress m' hgoes
    cases progress with
    | running =>
      obtain ⟨hm', hmoves⟩ := hgoes
      exact ih _ hmoves hm' (hmoves.isEnded hended) hmore rfl
    | returned => exact .of_ok rfl
    | rejected => exact .of_ok rfl

end Machine

/-! ## Parses -/

namespace Grammar

variable {g : Grammar σ} {loops : List Fragment}

/-- With a proper cache, a parse comes to a result if there is no infinite sequence of moves. -/
theorem parse_converges (hg : g.IsSound) (hnet : g.toNetwork.IsCohesive loops)
    (hleft : ¬g.toNetwork.IsLeftRecursive) (hraises : ¬g.Raises .outOfFuel) {s : ParseState σ}
    (hcache : s.cache.IsProper g) (hended : s.input.IsEnded)
    (hacc : ∀ id rule, g.rule id = .ok rule →
      Acc (fun y x => g.toNetwork.Moves x.1 x.2 y.1 y.2) (⟨rule.start, []⟩, s.input))
    (options : ParseOptions) (vocabulary : Vocabulary) (start : String) :
    Converges (fun fuel => g.parse fuel options vocabulary start) s := by
  unfold parse
  cases hstart : g.findRule? start with
  | none => exact converges_const nofun
  | some id =>
    obtain ⟨rule, hrule⟩ := Network.exists_rule_of_findRule? hstart
    dsimp only
    rw [show g.rule id = .ok rule from hrule]
    refine .bind_of_ok rfl (.bind_of_ok rfl ?_)
    have henter := enter_start_isSafe hrule s
    refine .bind_of_isSafe (converges_const fun he => hraises (henter.of_error he))
      (fun _ => henter) ?_
    rintro stack _ ⟨hlinked, host, rfl⟩
    refine .zoom (.bind (Machine.run_converges hg hnet hleft hraises ?_ hended options
      vocabulary ?_ fun _ => le_rfl) fun _ _ _ _ => .bind_of_ok rfl (.of_ok rfl))
    · exact Machine.isPlaced_start hrule rfl hlinked hcache
    · rw [Machine.point, hlinked.context_eq]
      exact hacc id rule hrule

/-- Where each fragment is used once, no rule is left recursive and nothing is consumed behind the
    end of the input, every parse terminates, from whatever cache that predictions lead to: if no
    predicate, action or default runs on for ever, it comes to one result with whatever fuel, once
    there is enough of it. -/
theorem parse_terminates {b : Builder σ} {rules : List (RuleDefinition σ)} {g : Grammar σ}
    (hb : b.Defines rules) (hg : (Build.finish b).1 = .ok g)
    (hleft : ¬g.toNetwork.HasLeftRecursiveRule) (hend : g.toNetwork.StopsAtEnd)
    (hraises : ¬g.Raises .outOfFuel) {s : ParseState σ} {tokens : List Token} {i : Nat}
    (hinput : s.input = (Input.ofList tokens).seek i)
    (hcache : s.cache.IsReachable g fun _ _ => True) (options : ParseOptions)
    (vocabulary : Vocabulary) (start : String) :
    ∃ n r, r.1 ≠ .error .outOfFuel ∧
      ∀ fuel ≥ n, g.parse fuel options vocabulary start s = r := by
  have hnet := hb.isCohesive_grammar hg
  have hsound := (hb.isComposed_grammar hg).isBuilt.isSound
  have hended : s.input.IsEnded := hinput ▸ Input.isEnded_seek tokens i
  refine parse_converges hsound hnet (mt hnet.isLeftRecursive_iff.1 hleft) hraises
    (hcache.isProper hsound hnet.isClosed) hended (fun id rule hrule => ?_) options vocabulary start
  exact hnet.acc_moves (fun p => hb.acc_freeStep hg hleft) (fun v w q => hend id rule v w q hrule)
    (Network.standsWithin_start hrule) (.refl _) hended

/-- The parse of a list in a list terminates. -/
theorem lists_parse_terminates :
    ∃ n r, r.1 ≠ .error .outOfFuel ∧ ∀ fuel ≥ n, lists.parse fuel {} {} "list"
      { input := .ofTypes [1, 4, 3, 1, 2, 2], cache := .ofNetwork lists.toNetwork,
        host := () } = r := by
  obtain ⟨hok, hlayered, hend, hpredicates, hactions, hsignatures⟩ := lists_eq
  have hrules : ofRules [listRule, itemRule] = .ok lists := ofRules_getD hok {}
  obtain ⟨b, hb, hfinish⟩ := exists_defines_of_ofRules hrules
  have hleft : ¬lists.toNetwork.HasLeftRecursiveRule :=
    mt (hb.isCohesive_grammar hfinish).isLeftRecursive_iff.2
      (Network.not_isLeftRecursive_of_isLayered _ hlayered)
  have hinput : Input.ofTypes [1, 4, 3, 1, 2, 2] =
      (Input.ofTypes [1, 4, 3, 1, 2, 2]).seek 0 := rfl
  refine parse_terminates hb hfinish hleft (Network.stopsAtEnd_of_allTransitions hend)
    (not_raises hpredicates hactions (defaultsSucceed_of_all hsignatures) _) hinput ?_ {} {} "list"
  exact .new

end Grammar

end AdaptiveLL
