import AdaptiveLL.Proofs.Grammar.Composition
import AdaptiveLL.Proofs.Invocation.Stack
import AdaptiveLL.Proofs.Network.Acceptance
import AdaptiveLL.Proofs.Parse.Step
import AdaptiveLL.Proofs.Prediction.Speculation
import AdaptiveLL.Proofs.Token.Input
import AdaptiveLL.Script.Statement

/-!
# What a parse performs

A *performance* is a run of the network in which everything happens that the
labels on the way ask for (`Grammar.Performs`): a call begins an invocation with
attributes of its own and its return hands the returns to the caller, predicates
hold where they are crossed, and actions are executed. Each of them acts on the
invocation it belongs to. Where the grammar decides, any way may be taken, and
predicates may be evaluated speculatively.

A parse that succeeds is a performance of this kind, whatever is predicted on its
way and from whatever cache (`Grammar.parse_performs`). It ends at a stop, which is
that of the rule it has started with if every rule is composed of its own
fragments. Where it is not, it may be the stop of another rule.
-/

namespace AdaptiveLL

variable {σ : Type}

/-- Where a performance stands. -/
structure Performance (σ : Type) where
  state : StateId
  /-- The current invocation. -/
  frame : Frame
  /-- The callers, innermost first, and the states they go on at. -/
  callers : List (StateId × Frame) := []
  input : Input
  /-- The token consumed last. -/
  last : Option Token := none
  out : String := ""
  host : σ

namespace Performance

variable (p : Performance σ)

/-- The states that the callers go on at, innermost first. -/
def context : List StateId :=
  p.callers.map Prod.fst

/-- Where the run of a performance stands. -/
def point : Point :=
  ⟨p.state, p.context⟩

end Performance

namespace Grammar

variable (g : Grammar σ)

/-- An invocation of a rule begins at a place in the input. Its attributes have their
    defaults, of which those of the locals are computed first. -/
def Invokes (id : RuleId) (context : List StateId) (start : Nat) (host : σ) (frame : Frame)
    (host' : σ) : Prop :=
  ∃ rule locals host₁ returns, g.rule id = .ok rule ∧
    Scope.ofDeclarations (g.signature id).locals host = (.ok locals, host₁) ∧
    Scope.ofDeclarations (g.signature id).returns host₁ = (.ok returns, host') ∧
    frame = { rule := id, name := rule.name, follow := context.head?, start, locals, returns,
              context }

/-- What is done without consuming a token. -/
inductive Acts : Performance σ → Performance σ → Prop
  | epsilon {p : Performance σ} {target : StateId} :
    g.toNetwork.HasTransition p.state ⟨target, .epsilon⟩ → Acts p { p with state := target }
  | predicate {p : Performance σ} {target : StateId} {index : Int} {condition : Predicate σ}
    {s : PredicateState σ} : g.toNetwork.HasTransition p.state ⟨target, .predicate index⟩ →
    g.predicate index = .ok condition →
    condition.evaluate
        { frame := some p.frame, input := p.input, position := p.input.position,
          speculative := false }
        { locals := p.frame.locals, host := p.host } = (.ok .holds, s) →
    Acts p { p with state := target, frame := { p.frame with locals := s.locals }, host := s.host }
  | action {p : Performance σ} {target : StateId} {index : Int} {action : Action σ}
    {s : ActionState σ} : g.toNetwork.HasTransition p.state ⟨target, .action index⟩ →
    g.action index = .ok action →
    action.execute { children := p.frame.children, last := p.last }
        { locals := p.frame.locals, returns := p.frame.returns, out := p.out, host := p.host } =
      (.ok ⟨⟩, s) →
    Acts p { p with
      state := target, frame := { p.frame with locals := s.locals, returns := s.returns },
      out := s.out, host := s.host }
  | call {p : Performance σ} {target follow : StateId} {callee : RuleId} {frame : Frame}
    {host : σ} : g.toNetwork.HasTransition p.state ⟨target, .call callee follow⟩ →
    g.Invokes callee (follow :: p.context) p.input.position p.host frame host →
    Acts p { p with state := target, frame, callers := (follow, p.frame) :: p.callers, host }
  | exit {p : Performance σ} {follow : StateId} {caller : Frame}
    {callers : List (StateId × Frame)} : g.toNetwork.IsStop p.state →
    p.callers = (follow, caller) :: callers →
    Acts p { p with
      state := follow, callers,
      frame := { caller with
        children := Ascending.insertKey p.frame.name p.frame.returns caller.children } }
  | speculate {p : Performance σ} {s : State} {host : σ} : g.state p.state = .ok s →
    s.decision.isSome = true → g.Speculates (some p.frame) p.input p.host host →
    Acts p { p with host }

/-- What is done on a way on which some tokens are matched. A token that ends the
    input is not moved behind. -/
inductive Performs : Performance σ → List Token → Performance σ → Prop
  | refl (p : Performance σ) : Performs p [] p
  | free {p q r : Performance σ} {w : List Token} : g.Acts p q → Performs q w r → Performs p w r
  | token {p r : Performance σ} {t : Transition} {w : List Token} :
    g.toNetwork.HasTransition p.state t → t.label.accepts p.input.current.type = true →
    Performs { p with state := t.target, input := p.input.consume, last := some p.input.current }
      w r → Performs p (p.input.current :: w) r

variable {g} {p q r : Performance σ} {v w : List Token}

/-! ## The run of a performance -/

theorem Performs.trans (h : g.Performs p v q) (h' : g.Performs q w r) :
    g.Performs p (v ++ w) r := by
  induction h with
  | refl _ => exact h'
  | free hs _ ih => exact .free hs (ih h')
  | token ht ha _ ih => exact .token ht ha (ih h')

/-- What is done without a token is a step of the network, but for speculation. -/
theorem Acts.reaches (h : g.Acts p q) : g.toNetwork.Reaches p.point q.point := by
  cases h with
  | epsilon ht => exact .single (.epsilon ht)
  | predicate ht => exact .single (.predicate ht)
  | action ht => exact .single (.action ht)
  | call ht => exact .single (.call ht)
  | speculate => exact .refl
  | exit hstop hcallers =>
    obtain ⟨s, hs, hk⟩ := hstop
    rw [Performance.point, Performance.context, hcallers]
    exact .single (.exit hs hk)

/-- A performance is a run of the network on the tokens that are matched. -/
theorem Performs.run (h : g.Performs p w q) :
    g.toNetwork.Run p.point (w.map Token.type) q.point := by
  induction h with
  | refl _ => exact .refl _
  | free hs _ ih => exact hs.reaches.run ih
  | token ht ha _ ih => exact .token ht ha ih

/-! ## The tokens that are matched -/

theorem Acts.input (h : g.Acts p q) : q.input = p.input := by
  cases h <;> rfl

/-- What is matched are the tokens that are moved behind, none of which ends the
    input, and then possibly the one that does, any number of times. -/
theorem Performs.tokens_eq (h : g.Performs p w q) :
    q.input.tokens = p.input.tokens ∧ p.input.position ≤ q.input.position ∧
      (∀ t ∈ p.input.between p.input.position q.input.position, t.isEnd = false) ∧
      ∃ n, w = p.input.between p.input.position q.input.position ++
          List.replicate n q.input.current ∧ (0 < n → q.input.current.isEnd = true) := by
  induction h with
  | refl p =>
    exact ⟨rfl, le_rfl, by simp [Input.between], 0, by simp [Input.between], by simp⟩
  | free hs _ ih => rwa [hs.input] at ih
  | @token p r t w ht ha _ ih =>
    obtain ⟨htokens, hle, hnot, n, rfl, hn⟩ := ih
    dsimp only at htokens hle hnot ⊢
    by_cases hend : p.input.current.isEnd = true
    · -- The token that ends the input stays the current one.
      rw [Input.consume, if_pos hend] at htokens hle hnot ⊢
      have hposition : r.input.position = p.input.position := by
        by_contra hne
        have hlt : p.input.position < r.input.position := by omega
        rw [p.input.between_of_lt hlt] at hnot
        have hfalse := hnot p.input.current List.mem_cons_self
        rw [hend] at hfalse
        cases hfalse
      have hinput : r.input = p.input := by
        show Input.mk r.input.tokens r.input.position = ⟨p.input.tokens, p.input.position⟩
        rw [htokens, hposition]
      rw [hinput, Input.between_self]
      exact ⟨rfl, le_rfl, List.forall_mem_nil _, n + 1, rfl, fun _ => hend⟩
    · rw [Input.consume, if_neg hend] at htokens hle hnot ⊢
      dsimp only at htokens hle hnot ⊢
      have hlt : p.input.position < r.input.position := hle
      rw [p.input.between_of_lt hlt]
      refine ⟨htokens, hlt.le, fun t ht => ?_, n, rfl, hn⟩
      rcases List.mem_cons.1 ht with rfl | ht
      · exact Bool.eq_false_iff.2 hend
      · exact hnot t ht

end Grammar

/-! ## Steps of a parse -/

namespace Stack

variable {stack stack' : Stack} {frame caller : Frame} {frames : List Frame}

/-- A predicate that holds in earnest does so in the current invocation. -/
theorem evaluate_of_commit (h : stack.frames = frame :: frames) {condition : Predicate σ}
    {input : Input} {position : Nat} {host host' : σ} {truth : Truth}
    (hc : commit condition input position (stack, host) = (.ok truth, stack', host')) :
    ∃ s, condition.evaluate { frame := some frame, input, position, speculative := false }
        { locals := frame.locals, host } = (.ok truth, s) ∧
      stack' = { frames := { frame with locals := s.locals } :: frames } ∧ host' = s.host := by
  rw [commit, h] at hc
  dsimp only at hc
  rcases he : condition.evaluate { frame := some frame, input, position, speculative := false }
    { locals := frame.locals, host } with ⟨r, s⟩
  rw [he] at hc
  cases hc
  exact ⟨s, rfl, rfl, rfl⟩

/-- An action that succeeds has been executed in the current invocation. -/
theorem execute_of_perform (h : stack.frames = frame :: frames) {a : Action σ}
    {last : Option Token} {out out' : String} {host host' : σ}
    (hc : perform a last (stack, out, host) = (.ok ⟨⟩, stack', out', host')) :
    ∃ s, a.execute { children := frame.children, last }
        { locals := frame.locals, returns := frame.returns, out, host } = (.ok ⟨⟩, s) ∧
      stack' = { frames := { frame with locals := s.locals, returns := s.returns } :: frames } ∧
      out' = s.out ∧ host' = s.host := by
  rw [perform, h] at hc
  dsimp only at hc
  rcases he : a.execute { children := frame.children, last }
    { locals := frame.locals, returns := frame.returns, out, host } with ⟨r, s⟩
  rw [he] at hc
  cases hc
  exact ⟨s, rfl, rfl, rfl, rfl⟩

theorem exit_singleton (h : stack.frames = [frame]) :
    stack.exit = .ok (frame.returns, { frames := [] }) := by
  rw [exit, h]

theorem exit_cons (h : stack.frames = frame :: caller :: frames) : stack.exit =
    .ok (frame.returns, { frames := { caller with
      children := Ascending.insertKey frame.name frame.returns caller.children } :: frames }) := by
  rw [exit, h]

end Stack

/-- A rule that is entered is invoked. -/
theorem Grammar.invokes_of_enter {g : Grammar σ} {stack stack' : Stack} {id : RuleId}
    {follow : Option StateId} {start : Nat} {host host' : σ}
    (h : g.enter stack id follow start host = (.ok stack', host')) :
    ∃ frame, stack'.frames = frame :: stack.frames ∧ frame.follow = follow ∧
      frame.context = follow.toList ++ stack.context ∧
      ((follow.toList ++ stack.context).head? = follow →
        g.Invokes id (follow.toList ++ stack.context) start host frame host') := by
  obtain ⟨rule, locals, host₁, returns, hrule, hlocals, hreturns, rfl⟩ := enter_eq_ok h
  refine ⟨_, rfl, rfl, rfl, fun hhead => ?_⟩
  exact ⟨rule, locals, host₁, returns, hrule, hlocals, hreturns, by rw [hhead]⟩

namespace Machine

/-- A parse stands where a performance does. -/
structure Plays (m : Machine σ) (p : Performance σ) : Prop where
  state : m.state = p.state
  frames : m.stack.frames = p.frame :: p.callers.map Prod.snd
  linked : Linked m.stack.frames p.context
  input : m.input = p.input
  last : m.last = p.last
  out : m.out = p.out
  host : m.host = p.host

variable {g : Grammar σ} {fuel : Nat} {options : ParseOptions} {vocabulary : Vocabulary}
  {m m' : Machine σ} {p : Performance σ}

/-- To follow a transition is to perform what its label asks for. -/
theorem Takes.performs {rule : RuleId} {t : Transition}
    (h : Takes g vocabulary rule t m .running m') (hm : m.Plays p)
    (ht : g.toNetwork.HasTransition p.state t) : ∃ w q, g.Performs p w q ∧ m'.Plays q := by
  have act {q : Performance σ} (hs : g.Acts p q) (hq : m'.Plays q) :
      ∃ w q, g.Performs p w q ∧ m'.Plays q := ⟨[], q, .free hs (.refl q), hq⟩
  obtain ⟨hstate, hframes, hlinked, hinput, hlast, hout, hhost⟩ := hm
  have hcontext := hlinked.context_eq
  rw [hframes] at hlinked
  cases h with
  | epsilon => exact act (.epsilon ht) ⟨rfl, hframes, hframes ▸ hlinked, hinput, hlast, hout, hhost⟩
  | @holds target index condition _ stack host hp hc =>
    rw [hinput, hhost] at hc
    obtain ⟨s, he, rfl, rfl⟩ := Stack.evaluate_of_commit hframes hc
    exact act (.predicate ht hp he) ⟨rfl, rfl, hlinked.of_eq rfl rfl, hinput, hlast, hout, rfl⟩
  | @action target index a _ stack out host ha hc =>
    rw [hlast, hout, hhost] at hc
    obtain ⟨s, he, rfl, rfl, rfl⟩ := Stack.execute_of_perform hframes hc
    exact act (.action ht ha he) ⟨rfl, rfl, hlinked.of_eq rfl rfl, hinput, hlast, rfl, rfl⟩
  | @call target follow callee _ stack host henter =>
    rw [hinput, hhost] at henter
    obtain ⟨frame, hstack, hfollow, hframe, hinvokes⟩ := Grammar.invokes_of_enter henter
    rw [hcontext] at hframe hinvokes
    rw [hframes] at hstack
    exact act (.call ht (hinvokes rfl))
      ⟨rfl, hstack, hstack ▸ .call hfollow hframe hlinked, hinput, hlast, hout, rfl⟩
  | token ha =>
    rw [hinput] at ha
    refine ⟨_, _, .token ht ha (.refl _), rfl, hframes, hframes ▸ hlinked, ?_, ?_, hout, hhost⟩
    · rw [hinput]
    · rw [hinput]

/-- To predict is to evaluate predicates speculatively. -/
theorem Plays.decide {index : Option Nat} (hm : m.Plays p) {s : State}
    (hs : g.state p.state = .ok s) (hd : s.decision.isSome = true)
    (h : Machine.decide g fuel options m = (.ok index, m')) :
    ∃ q, g.Acts p q ∧ m'.Plays q ∧ q.state = p.state := by
  obtain ⟨_, hframes, _, hinput, _, _, hhost⟩ := id hm
  obtain ⟨prediction, cache, host, d, report, hpredict, _, _, rfl⟩ := decide_eq_ok h
  have hspeculates := g.speculates_predictAt fuel options.toPredictOptions m.state m.input m.stack
    m.cache m.host
  rw [hpredict, hframes, hinput, hhost] at hspeculates
  exact ⟨_, .speculate hs hd hspeculates,
    ⟨hm.state, hm.frames, hm.linked, hm.input, hm.last, hm.out, rfl⟩, rfl⟩

/-- To leave an invocation is to hand its returns to the caller. -/
theorem Plays.leave (hm : m.Plays p) (hstop : g.toNetwork.IsStop p.state) {frame : Frame}
    {returns : Scope} {stack : Stack} (htop : m.stack.top = .ok frame)
    (hexit : m.stack.exit = .ok (returns, stack)) (hne : stack.frames ≠ []) :
    ∃ q, g.Acts p q ∧ Plays { m with stack, state := frame.follow.getD (-1) } q := by
  obtain ⟨hstate, hframes, hlinked, hinput, hlast, hout, hhost⟩ := hm
  rw [Performance.context] at hlinked
  cases hcallers : p.callers with
  | nil =>
    rw [hcallers] at hframes
    rw [Stack.exit_singleton hframes] at hexit
    cases hexit
    exact absurd rfl hne
  | cons link callers =>
    obtain ⟨follow, caller⟩ := link
    rw [hcallers] at hframes hlinked
    rw [Stack.exit_cons hframes] at hexit
    rw [Stack.top, hframes] at htop
    rw [hframes] at hlinked
    cases hexit
    cases htop
    cases hlinked with
    | call hfollow _ hrest =>
      refine ⟨_, .exit hstop hcallers, ?_, rfl, hrest.of_eq rfl rfl, hinput, hlast, hout, hhost⟩
      rw [hfollow, Option.getD_some]

/-- A step of a parse that goes on is part of a performance. -/
theorem Steps.performs (h : Steps g fuel options vocabulary m .running m') (hm : m.Plays p) :
    ∃ w q, g.Performs p w q ∧ m'.Plays q := by
  cases h with
  | leaves hs hk htop hexit hne =>
    rw [hm.state] at hs
    obtain ⟨q, hact, hq⟩ := hm.leave ⟨_, hs, hk⟩ htop hexit hne
    exact ⟨[], q, .free hact (.refl q), hq⟩
  | follows hs hk hd ht htake =>
    rw [hm.state] at hs
    exact htake.performs hm ⟨_, hs, hk, List.mem_of_getElem? ht⟩
  | decides hs hk hd hdecide ht htake =>
    rw [hm.state] at hs
    obtain ⟨q, hact, hq, hstate⟩ := hm.decide hs hd hdecide
    rw [← hstate] at hs
    obtain ⟨w, r, hr, hmr⟩ := htake.performs hq ⟨_, hs, hk, List.mem_of_getElem? ht⟩
    exact ⟨w, r, .free hact hr, hmr⟩

/-- The step that ends a parse ends a performance. -/
theorem Steps.returns_eq {returns : Scope}
    (h : Steps g fuel options vocabulary m (.returned returns) m') (hm : m.Plays p) :
    g.toNetwork.IsStop p.state ∧ p.callers = [] ∧ returns = p.frame.returns ∧
      m'.toParseState = m.toParseState := by
  cases h with
  | returns hs hk hexit hempty =>
    rw [hm.state] at hs
    have hframes := hm.frames
    cases hcallers : p.callers with
    | nil =>
      rw [hcallers] at hframes
      rw [Stack.exit_singleton hframes] at hexit
      cases hexit
      exact ⟨⟨_, hs, hk⟩, rfl, rfl, rfl⟩
    | cons link callers =>
      rw [hcallers] at hframes
      rw [Stack.exit_cons hframes] at hexit
      cases hexit
      cases hempty
  | follows _ _ _ _ htake => cases htake
  | decides _ _ _ _ _ htake => cases htake

/-- A parse that comes to its end is a performance. -/
theorem run_performs {steps : Nat} {returns : Scope}
    (h : run g fuel options vocabulary steps m = (.ok (some returns), m')) (hm : m.Plays p) :
    ∃ w q, g.Performs p w q ∧ g.toNetwork.IsStop q.state ∧ q.callers = [] ∧
      returns = q.frame.returns ∧ m'.input = q.input ∧ m'.out = q.out ∧ m'.host = q.host := by
  induction steps generalizing m p with
  | zero => cases h
  | succ steps ih =>
    obtain ⟨progress, m₁, hstep, h⟩ := exists_of_bind_apply h
    have hstep := steps_of_step hstep
    cases progress with
    | running =>
      obtain ⟨v, q, hq, hm₁⟩ := hstep.performs hm
      obtain ⟨w, r, hr, hend⟩ := ih h hm₁
      exact ⟨v ++ w, r, hq.trans hr, hend⟩
    | returned returns' =>
      cases h
      obtain ⟨hstop, hcallers, hreturns, hparse⟩ := hstep.returns_eq hm
      refine ⟨[], p, .refl p, hstop, hcallers, hreturns, ?_, ?_, ?_⟩
      · exact (congrArg ParseState.input hparse).trans hm.input
      · exact (congrArg ParseState.out hparse).trans hm.out
      · exact (congrArg ParseState.host hparse).trans hm.host
    | rejected => cases h

end Machine

namespace Grammar

variable {g : Grammar σ} {fuel : Nat} {options : ParseOptions} {vocabulary : Vocabulary}
  {start : String} {s s' : ParseState σ} {outcome : ParseOutcome}

/-- A parse that succeeds is a performance from the start of its rule to a stop where
    no call is open. It matches the tokens it has moved behind, and possibly the one
    that ends the input. The returns are those of the invocation of the rule. If every
    rule is composed of its own fragments, the stop is that of the rule. -/
theorem parse_performs (h : g.parse fuel options vocabulary start s = (.ok outcome, s'))
    (hsuccess : outcome.success = true) :
    ∃ id rule frame host w p, g.findRule? start = some id ∧ g.rule id = .ok rule ∧
      g.Invokes id [] s.input.position s.host frame host ∧
      g.Performs { state := rule.start, frame, input := s.input, out := s.out, host } w p ∧
      g.toNetwork.Run ⟨rule.start, []⟩ (w.map Token.type) ⟨p.state, []⟩ ∧
      g.toNetwork.IsStop p.state ∧ (g.IsComposed → p.state = rule.stop) ∧ p.callers = [] ∧
      outcome.returns = p.frame.returns ∧ s'.out = p.out ∧ s'.host = p.host ∧
      s'.input = p.input ∧ s'.input.tokens = s.input.tokens ∧
      s.input.position ≤ s'.input.position ∧
      ∃ n, w = s.input.between s.input.position s'.input.position ++
        List.replicate n s'.input.current ∧ (0 < n → s'.input.current.isEnd = true) := by
  obtain ⟨id, rule, stack, host, m, returns?, hid, hrule, henter, hrun, rfl, rfl⟩ := parse_eq_ok h
  obtain ⟨returns, rfl⟩ : ∃ returns, returns? = some returns := by
    cases returns? with
    | none => cases hsuccess
    | some returns => exact ⟨returns, rfl⟩
  obtain ⟨frame, hframes, _, hcontext, hinvokes⟩ := invokes_of_enter henter
  let p₀ : Performance σ := { state := rule.start, frame, input := s.input, out := s.out, host }
  have hlinked : Linked stack.frames p₀.context := hframes ▸ .outermost hcontext
  obtain ⟨w, p, hp, hstop, hcallers, hreturns, hinput, hout, hhost⟩ :=
    Machine.run_performs hrun (p := p₀) ⟨rfl, hframes, hlinked, rfl, rfl, rfl, rfl⟩
  have hnetwork := hp.run
  rw [show p.point = ⟨p.state, []⟩ by rw [Performance.point, Performance.context, hcallers]; rfl]
    at hnetwork
  obtain ⟨htokens, hposition, _, hmatched⟩ := hp.tokens_eq
  refine ⟨id, rule, frame, host, w, p, hid, hrule, hinvokes rfl, hp, hnetwork, hstop, fun hg => ?_,
    hcallers, hreturns, hout, hhost, hinput, hinput ▸ htokens, hinput ▸ hposition,
    hinput ▸ hmatched⟩
  -- Without an open call, the run has stayed in the rule.
  have hkeeps := hg.keepsToRules
  exact hkeeps.eq_stop hstop (hkeeps.isOf_of_run hnetwork (hkeeps.start id rule hrule)) hrule

/-- A rule that hands on what the rule it calls returns: the place of the token behind
    those that the loop there goes through. -/
def handing : Grammar Tally :=
  ((ofRules [
    { name := "s", signature := { returns := [{ name := "n" }] }, body := .sequence [.call "a",
      .predicate (Expr.toPredicate "a.m > 0"
        (.greater (.childReturn "a" "m") (.const (.int 0))) none),
      .action (Statement.toAction "n = a.m" [.setReturn "n" (.childReturn "a" "m")])] },
    { name := "a", signature := { returns := [{ name := "m" }] }, body := .sequence [
      .star [.token 1] .auto, .token 2,
      .action (Statement.toAction "m = index" [.setReturn "m" .lastIndex])] }]).toOption).getD {}

/-- A parse in which that happens. -/
def handingOn : Except Fault ParseOutcome × ParseState Tally :=
  handing.parse 100 {} {} "s"
    { input := .ofTypes [1, 1, 2], cache := .ofNetwork handing.toNetwork, host := {} }

theorem handingOn_eq : handing.IsComposed ∧ handing.findRule? "s" = some 0 ∧
    handing.rule 0 = .ok { name := "s", start := 0, stop := 1 } ∧
    handingOn.1.toOption.map ParseOutcome.success = some true ∧
    handingOn.1.toOption.bind (fun o => (o.returns.get? "n").map Value.text) = some "2" ∧
    handingOn.2.input.position = 3 :=
  ⟨isComposed_getD (by decide +kernel) {}, by decide +kernel⟩

theorem handing_performs :
    ∃ outcome frame host w p, handingOn.1 = .ok outcome ∧ outcome.success = true ∧
      handing.Invokes 0 [] 0 {} frame host ∧
      handing.Performs { state := 0, frame, input := .ofTypes [1, 1, 2], host } w p ∧
      p.state = 1 ∧ p.callers = [] ∧ p.input.position = 3 ∧ outcome.returns = p.frame.returns ∧
      (p.frame.returns.get? "n").map Value.text = some "2" := by
  obtain ⟨hcomposed, hstart, hrule, hsuccess, htext, hposition⟩ := handingOn_eq
  rcases h : handingOn with ⟨result, s⟩
  rw [h] at hsuccess htext hposition
  cases result with
  | error fault => cases hsuccess
  | ok outcome =>
    have hsuccess : outcome.success = true := Option.some.inj hsuccess
    rw [handingOn] at h
    obtain ⟨id, rule, frame, host, w, p, hid, hr, hinvokes, hp, _, _, hstop, hcallers, hreturns, _,
      _, hinput, _⟩ := parse_performs h hsuccess
    cases hstart.symm.trans hid
    cases hrule.symm.trans hr
    refine ⟨outcome, frame, host, w, p, rfl, hsuccess, hinvokes, hp, hstop hcomposed, hcallers, ?_,
      hreturns, ?_⟩
    · rw [← hinput]
      exact hposition
    · rw [← hreturns]
      exact htext

/-- Defines a rule, and another one with the fragment of the first one in its body. -/
def borrowing : Build Unit Unit := do
  let b ← Build.openRule "b" {}
  let part ← Build.token 1
  Build.closeRule b part
  let a ← Build.openRule "a" {}
  let last ← Build.token 2
  let body ← Build.sequence [part, last]
  Build.closeRule a body

/-- A grammar with a rule that borrows a fragment of another one. -/
def borrowed : Grammar Unit :=
  ((Build.finish (borrowing {}).2).1.toOption).getD {}

/-- A parse with that rule. -/
def borrowedOn : Except Fault ParseOutcome × ParseState Unit :=
  borrowed.parse 30 {} {} "a"
    { input := .ofTypes [1], cache := .ofNetwork borrowed.toNetwork, host := () }

theorem isReachable_borrowing : (borrowing {}).2.IsReachable :=
  (Builder.IsReachable.empty.openRule "b" {}).bind fun b _ h =>
    (h.step (.token 1)).bind fun part _ h =>
      (h.closeRule b part).bind fun _ _ h =>
        (h.openRule "a" {}).bind fun a _ h =>
          (h.step (.token 2)).bind fun last _ h =>
            (h.step (.sequence [part, last])).bind fun body _ h => h.closeRule a body

/-- A rule that borrows can be parsed up to the stop of the other one, on an input that no
    run spells from its start to its stop. -/
theorem borrowed_parse_succeeds :
    borrowed.IsBuilt ∧ borrowed.findRule? "a" = some 1 ∧
      borrowed.rule 1 = .ok { name := "a", start := 4, stop := 5 } ∧
      borrowedOn.1.toOption.map ParseOutcome.success = some true ∧
      borrowedOn.2.input.position = 1 ∧
      ∀ n, ¬borrowed.toNetwork.Run ⟨4, []⟩ (1 :: List.replicate n Token.endOfInput) ⟨5, []⟩ := by
  have hevaluate : (Build.finish (borrowing {}).2).1.toOption.isSome = true ∧
      borrowed.findRule? "a" = some 1 ∧
      borrowed.rule 1 = .ok { name := "a", start := 4, stop := 5 } ∧
      borrowedOn.1.toOption.map ParseOutcome.success = some true ∧
      borrowedOn.2.input.position = 1 ∧
      borrowed.toNetwork.confines [1, Token.endOfInput] [4, 2, 3, 1, 6] = true := by
    decide +kernel
  obtain ⟨hfinish, hstart, hrule, hparse, hposition, hconfines⟩ := hevaluate
  refine ⟨isBuilt_finish_getD isReachable_borrowing hfinish {}, hstart, hrule, hparse, hposition,
    fun n hrun => ?_⟩
  have hw : 1 :: List.replicate n Token.endOfInput ⊆ [1, Token.endOfInput] :=
    List.cons_subset_cons 1 (List.replicate_subset_singleton n _)
  have hstop := (hrun.mem_of_confines hconfines hw (by simp) rfl).1
  simp at hstop

end Grammar

end AdaptiveLL
