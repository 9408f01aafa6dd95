import AdaptiveLL.Proofs.Grammar.Containment
import AdaptiveLL.Proofs.Invocation.Stack
import AdaptiveLL.Proofs.Parse.Step
import AdaptiveLL.Proofs.Prediction.Safety

/-!
# Parses are safe

A parse stands within rules, and its invocations return to where its calls go on
(`Machine.IsPlaced`). There it finds everything that it looks up: states and rules, a way on
where there is no stop, an alternative where it has predicted one, and an invocation where it
returns. So each of its steps either is a step of the network, which leaves it in such a place,
or ends it; and no fault ends it but one that a predicate, an action or a default has raised,
or the want of fuel (`Machine.step_isSafe`).
-/

namespace AdaptiveLL

open Effect

variable {σ : Type} {g : Grammar σ}

/-! ## Invocations -/

section

variable {stack : Stack} {context : List StateId} (h : Linked stack.frames context)

include h

/-- A predicate that is evaluated in earnest leaves the links alone. -/
theorem Linked.commit_isSafe {index : Int} {p : Predicate σ} (hp : g.predicate index = .ok p)
    (input : Input) (position : Nat) (host : σ) :
    IsSafe (fun _ r => Linked r.1.frames context) (fun fault _ => g.Raises fault)
      (Stack.commit p input position (stack, host)) := by
  obtain ⟨frames⟩ := stack
  cases frames with
  | nil => cases h
  | cons frame rest =>
    rw [Stack.commit]
    dsimp only
    rcases he : p.evaluate _ _ with ⟨fault | truth, s⟩
    · exact .predicate hp (congrArg Prod.fst he)
    · exact h.of_eq rfl rfl

/-- An action leaves the links alone. -/
theorem Linked.perform_isSafe {index : Int} {a : Action σ} (ha : g.action index = .ok a)
    (last : Option Token) (out : String) (host : σ) :
    IsSafe (fun _ r => Linked r.1.frames context) (fun fault _ => g.Raises fault)
      (Stack.perform a last (stack, out, host)) := by
  rcases hp : Stack.perform a last (stack, out, host) with ⟨fault | ⟨⟩, stack', out', host'⟩
  · obtain ⟨frames⟩ := stack
    cases frames with
    | nil => cases h
    | cons frame rest => exact .action ha (Prod.mk.inj hp).1
  · exact h.of_perform hp

end

theorem Scope.declare_isSafe {declarations : List (Declaration σ)}
    (h : ∀ d ∈ declarations, ∀ host fault, (d.value host).1 = .error fault → g.Raises fault)
    (scope : Scope) (host : σ) :
    IsSafe (fun _ _ => True) (fun fault _ => g.Raises fault)
      (Scope.declare declarations scope host) := by
  induction declarations generalizing scope host with
  | nil => trivial
  | cons d rest ih =>
    obtain ⟨hd, hrest⟩ := List.forall_mem_cons.1 h
    have hvalue : IsSafe (fun _ _ => True) (fun fault _ => g.Raises fault) (d.value host) := by
      rcases hv : d.value host with ⟨fault | v, host'⟩
      · exact hd host fault (congrArg Prod.fst hv)
      · trivial
    rw [Scope.declare]
    exact hvalue.bind fun v host' _ => ih hrest _ host'

/-- Entering a rule puts an invocation on the stack, unless the default of an attribute raises a
    fault. -/
theorem Grammar.enter_isSafe {id : RuleId} {rule : Rule} (hrule : g.rule id = .ok rule)
    (stack : Stack) (follow : Option StateId) (start : Nat) (host : σ) :
    IsSafe (fun stack' _ => ∃ frame, stack'.frames = frame :: stack.frames ∧
        frame.follow = follow ∧ frame.context = follow.toList ++ stack.context)
      (fun fault _ => g.Raises fault) (g.enter stack id follow start host) := by
  rw [enter, show g.rule id = .ok rule from hrule, ofExcept_ok_bind, Stack.enter]
  refine (Scope.declare_isSafe (fun d hd _ _ hv => ?_) {} host).bind fun locals host₁ _ =>
    (Scope.declare_isSafe (fun d hd _ _ hv => ?_) {} host₁).bind fun returns host₂ _ =>
      ⟨_, rfl, rfl, rfl⟩
  · exact .default (List.mem_append_left _ hd) hv
  · exact .default (List.mem_append_right _ hd) hv

/-! ## Diagnostics -/

namespace Diagnostic

variable {rule : RuleId} {r : Rule} (hrule : g.rule rule = .ok r)

include hrule

theorem exists_ofPredicate {index : Int} {p : Predicate σ} (hp : g.predicate index = .ok p)
    (input : Input) (position : Nat) : ∃ d, ofPredicate g rule index input position = .ok d := by
  rw [ofPredicate, hp, Except.ok_bind_eq, show g.rule rule = .ok r from hrule]
  exact ⟨_, rfl⟩

theorem exists_ofMismatch (expected : String) (found : Token) :
    ∃ d, ofMismatch g rule expected found = .ok d := by
  rw [ofMismatch, show g.rule rule = .ok r from hrule]
  exact ⟨_, rfl⟩

end Diagnostic

theorem Report.exists_addPrediction (r : Report) {p : Prediction} {decision : State}
    (hp : p.outcome.IsValid g decision) {rule : Rule} (hrule : g.rule p.rule = .ok rule)
    (input : Input) : ∃ d r', r.addPrediction g p input = .ok (d, r') := by
  have hd : ∃ d, Diagnostic.ofPrediction? g r.ambiguities p input = .ok d := by
    rw [Diagnostic.ofPrediction?, show g.rule p.rule = .ok rule from hrule, Except.ok_bind_eq]
    cases ho : p.outcome with
    | failedPredicate found =>
      cases found with
      | none => exact ⟨_, rfl⟩
      | some index =>
        rw [ho] at hp
        obtain ⟨predicate, hpredicate⟩ := hp
        dsimp only
        rw [hpredicate]
        exact ⟨_, rfl⟩
    | ambiguous =>
      dsimp only
      split <;> exact ⟨_, rfl⟩
    | _ => exact ⟨_, rfl⟩
  obtain ⟨d, hd⟩ := hd
  rw [addPrediction, hd, Except.ok_bind_eq]
  cases d <;> exact ⟨_, _, rfl⟩

/-! ## Steps -/

/-- From a point and an input, a network makes a free step or consumes the current token. -/
inductive Network.Moves (net : Network) : Point → Input → Point → Input → Prop
  | free {p q : Point} {input : Input} : net.FreeStep p q → Moves net p input q input
  | token {id : StateId} {t : Transition} {context : List StateId} {input : Input} :
    net.HasTransition id t → t.label.accepts input.current.type = true →
    Moves net ⟨id, context⟩ input ⟨t.target, context⟩ input.consume

namespace Machine

/-- A parse stands within rules, it will return to where its calls go on, and what it remembers of
    predictions is proper. -/
structure IsPlaced (g : Grammar σ) (m : Machine σ) : Prop where
  linked : Linked m.stack.frames m.stack.context
  within : g.toNetwork.StandsWithin m.point
  cache : m.cache.IsProper g

/-- A parse that goes on has made a step of the network, and still stands within rules. -/
def GoesOn (g : Grammar σ) (p : Point) (input : Input) (progress : Progress) (m : Machine σ) :
    Prop :=
  match progress with
  | .running => m.IsPlaced g ∧ g.toNetwork.Moves p input m.point m.input
  | .returned _ | .rejected => True

variable {m : Machine σ} {fuel : Nat} {options : ParseOptions} {vocabulary : Vocabulary}

/-- What a part of a step comes to, unless a fault of some kind ends it. -/
abbrev IsSafeFor {α : Type} (F : Fault → Prop) (Q : α → Machine σ → Prop) :
    Except Fault α × Machine σ → Prop :=
  IsSafe Q fun fault _ => F fault

theorem IsSafeFor.mayFail {α : Type} {Q : α → Machine σ → Prop} {r : Except Fault α × Machine σ}
    (h : IsSafeFor g.Raises Q r) : IsSafeFor g.MayFail Q r :=
  h.imp (fun _ _ hQ => hQ) fun _ _ => .inr

theorem reject_isSafe {d : Except Fault Diagnostic} (hd : ∃ d', d = .ok d') (p : Point)
    (input : Input) : IsSafeFor g.Raises (GoesOn g p input) (reject d m) := by
  obtain ⟨d, rfl⟩ := hd
  trivial

variable {loops : List Fragment} (hg : g.IsSound) (hnet : g.toNetwork.IsCohesive loops)

include hnet

theorem goto_isSafe {p : Point} {id : StateId} {context : List StateId}
    (hp : g.toNetwork.StandsWithin p) (hlinked : Linked m.stack.frames context)
    (hcache : m.cache.IsProper g) (hstep : g.toNetwork.FreeStep p ⟨id, context⟩) :
    IsSafeFor g.Raises (GoesOn g p m.input) (goto id m) := by
  obtain rfl := hlinked.context_eq
  exact ⟨⟨hlinked, hnet.freeStep hp hstep, hcache⟩, .free hstep⟩

/-- Where a parse is not at a stop, there is a way on. -/
theorem IsPlaced.exists_first (hm : m.IsPlaced g) {s : State} (hs : g.state m.state = .ok s)
    (hk : s.kind ≠ .ruleStop) :
    ∃ t, s.transitions[0]? = some t ∧ g.toNetwork.HasTransition m.state t := by
  obtain ⟨s', hs', hstop⟩ | ⟨t, s', hs', _, ht⟩ := hnet.exists_transition hm.within.1
  · obtain rfl := Except.ok.inj (hs.symm.trans hs')
    exact absurd hstop hk
  · obtain rfl := Except.ok.inj (hs.symm.trans hs')
    have hfirst := List.getElem?_eq_getElem (List.length_pos_of_mem ht)
    exact ⟨_, hfirst, s, hs, hk, List.mem_of_getElem? hfirst⟩

variable (hm : m.IsPlaced g)

include hm

/-- Leaving an invocation leads to where it returns to, which is on top of the context. -/
theorem leave_isSafe {s : State} (hs : g.state m.state = .ok s) (hk : s.kind = .ruleStop) :
    IsSafeFor g.Raises (GoesOn g m.point m.input) (leave m) := by
  have hlinked := hm.linked
  rw [leave, bind_apply, get_apply]
  dsimp only
  cases hcontext : m.stack.context with
  | nil =>
    rw [hcontext] at hlinked
    obtain ⟨frame, htop, hexit⟩ := hlinked.exit_outermost
    rw [htop, ofExcept_ok_bind, hexit, ofExcept_ok_bind]
    trivial
  | cons follow context =>
    rw [hcontext] at hlinked
    obtain ⟨frame, stack, htop, hfollow, hexit, hlinked', hne⟩ := hlinked.exit
    rw [htop, ofExcept_ok_bind, hexit, ofExcept_ok_bind]
    dsimp only
    rw [bind_apply, set_apply]
    dsimp only
    rw [if_neg fun hempty => hne (List.isEmpty_iff.1 hempty), hfollow, Option.getD_some]
    refine goto_isSafe hnet hm.within hlinked' hm.cache ?_
    rw [point, hcontext]
    exact .exit hs hk

include hg

/-- Following a transition of the state that the parse stands at. -/
theorem take_isSafe {rule : RuleId} {t : Transition} (ht : g.toNetwork.HasTransition m.state t)
    (hrule : ∃ r, g.rule rule = .ok r) :
    IsSafeFor g.Raises (GoesOn g m.point m.input) (take g vocabulary rule t m) := by
  obtain ⟨r, hrule⟩ := hrule
  obtain ⟨target, label⟩ := t
  have consume : IsSafeFor g.Raises (GoesOn g m.point m.input)
      ((if label.accepts m.input.current.type then do
          modify fun m' => { m' with last := some m.input.current, input := m'.input.consume }
          goto target
        else reject (Diagnostic.ofMismatch g rule (label.expected vocabulary) m.input.current) :
          Effect (Machine σ) Progress) m) := by
    split
    · next haccepts =>
      exact ⟨⟨hm.linked, ⟨hnet.target hm.within.1 ht, hm.within.2⟩, hm.cache⟩, .token ht haccepts⟩
    · exact reject_isSafe (Diagnostic.exists_ofMismatch hrule _ _) _ _
  rw [take, bind_apply, get_apply]
  cases label with
  | epsilon => exact goto_isSafe hnet hm.within hm.linked hm.cache (.epsilon ht)
  | predicate index =>
    obtain ⟨p, hp⟩ := hg.allows ht
    dsimp only
    rw [hp, ofExcept_ok_bind]
    refine IsSafe.bind (Q := fun _ m' => ∃ stack host, m' = { m with stack, host } ∧
      Linked stack.frames m.stack.context) ?_ ?_
    · exact .zoom ((hm.linked.commit_isSafe hp _ _ _).mono fun _ r hr => ⟨r.1, r.2, rfl, hr⟩)
    rintro truth _ ⟨stack, host, rfl, hlinked⟩
    split
    · exact goto_isSafe hnet hm.within hlinked hm.cache (.predicate ht)
    · exact reject_isSafe (Diagnostic.exists_ofPredicate hrule hp _ _) _ _
  | action index =>
    obtain ⟨a, ha⟩ := hg.allows ht
    dsimp only
    rw [ha, ofExcept_ok_bind]
    refine IsSafe.bind (Q := fun _ m' => ∃ stack out host, m' = { m with stack, out, host } ∧
      Linked stack.frames m.stack.context) ?_ ?_
    · exact .zoom ((hm.linked.perform_isSafe ha _ _ _).mono
        fun _ r hr => ⟨r.1, r.2.1, r.2.2, rfl, hr⟩)
    rintro _ _ ⟨stack, out, host, rfl, hlinked⟩
    exact goto_isSafe hnet hm.within hlinked hm.cache (.action ht)
  | call callee follow =>
    obtain ⟨_, hcallee⟩ := hg.allows ht
    refine IsSafe.bind (Q := fun stack m' => (∃ host, m' = { m with host }) ∧
      Linked stack.frames (follow :: m.stack.context)) ?_ ?_
    · refine .zoom ((Grammar.enter_isSafe hcallee _ _ _ _).mono ?_)
      rintro stack host ⟨frame, hframes, hfollow, hcontext⟩
      rw [hframes]
      exact ⟨⟨host, rfl⟩, .call hfollow hcontext hm.linked⟩
    rintro stack _ ⟨⟨host, rfl⟩, hlinked⟩
    exact goto_isSafe hnet hm.within hlinked hm.cache (.call ht)
  | _ => exact consume

/-- A prediction that a parse makes comes to a valid outcome for its rule, and changes nothing but
    the cache and the host. -/
theorem predictAt_isSafe {s : State} (hs : g.state m.state = .ok s)
    (hd : s.decision.isSome = true) :
    IsSafeFor g.MayFail (fun p m' => (p.outcome.IsValid g s ∧ p.rule = s.rule) ∧
        ∃ cache host, m' = { m with cache, host } ∧ cache.IsProper g)
      (Effect.zoom (fun m => (m.cache, m.host)) (fun r m => { m with cache := r.1, host := r.2 })
        (g.predictAt fuel options.toPredictOptions m.state m.input m.stack) m) := by
  have hstack : ∀ follow ∈ m.stack.context, g.toNetwork.HasState follow :=
    fun follow hfollow => hnet.hasState (hm.within.2 follow hfollow)
  refine .zoom ((Grammar.predictAt_isSafe hg hnet.isClosed hm.cache hs hd).imp ?_ ?_)
  · rintro p ⟨cache, host⟩ ⟨hvalid, hrule, hcache⟩
    exact ⟨⟨hvalid, hrule⟩, cache, host, rfl, hcache⟩
  · rintro fault _ ⟨hfault, _⟩
    exact hfault hstack

/-- A prediction leaves the parse where it stands, and takes a transition of its state. -/
theorem decide_isSafe {s : State} (hs : g.state m.state = .ok s) (hd : s.decision.isSome = true) :
    IsSafeFor g.MayFail (fun index m' => (m'.IsPlaced g ∧ m'.point = m.point ∧ m'.input = m.input) ∧
        ∀ i ∈ index, ∃ t, s.transitions[i]? = some t)
      (decide g fuel options m) := by
  rw [decide, bind_apply, get_apply]
  refine (predictAt_isSafe hg hnet hm hs hd).bind ?_
  rintro p _ ⟨⟨hvalid, hrule⟩, cache, host, rfl, hcache⟩
  obtain ⟨r, hr⟩ := hg.rule m.state s hs
  obtain ⟨d, report, hreport⟩ := m.report.exists_addPrediction hvalid (hrule ▸ hr) m.input
  rw [bind_apply, modify_apply]
  dsimp only
  rw [hreport, ofExcept_ok_bind]
  refine ⟨⟨⟨hm.linked, hm.within, hcache⟩, rfl, rfl⟩, fun i hi => ?_⟩
  obtain ⟨alt, halt, rfl⟩ := Option.map_eq_some_iff.1 hi
  obtain ⟨hleast, hmost⟩ := hvalid.hasAlt halt
  exact ⟨_, List.getElem?_eq_getElem (by omega)⟩

/-- A step goes on within the rules, or ends the parse. No fault ends it but one of a predicate,
    an action or a default, or the want of fuel. -/
theorem step_isSafe :
    IsSafeFor g.MayFail (GoesOn g m.point m.input) (step g fuel options vocabulary m) := by
  have hstate : g.toNetwork.HasState m.state := hnet.hasState hm.within.1
  obtain ⟨s, hs⟩ := hstate
  have hrule := hg.rule m.state s hs
  rw [step, bind_apply, get_apply]
  dsimp only
  rw [show g.state m.state = .ok s from hs, ofExcept_ok_bind]
  split
  · next hk => exact (leave_isSafe hnet hm hs hk).mayFail
  next hk =>
  split
  · next hd =>
    refine (decide_isSafe hg hnet hm hs hd).bind ?_
    rintro index m' ⟨⟨hm', hpoint, hinput⟩, hindex⟩
    cases index with
    | none => trivial
    | some i =>
      obtain ⟨t, ht⟩ := hindex i rfl
      have hstate : m'.state = m.state := congrArg Point.state hpoint
      dsimp only
      rw [ht, ← hpoint, ← hinput]
      exact (take_isSafe hg hnet hm' ⟨s, hstate ▸ hs, hk, List.mem_of_getElem? ht⟩ hrule).mayFail
  · obtain ⟨t, hfirst, ht⟩ := hm.exists_first hnet hs hk
    rw [pure_bind]
    dsimp only
    rw [hfirst]
    exact (take_isSafe hg hnet hm ht hrule).mayFail

/-- However many steps it makes, only such a fault ends a parse. -/
theorem run_isSafe (steps : Nat) :
    IsSafeFor g.MayFail (fun _ _ => True) (run g fuel options vocabulary steps m) := by
  induction steps generalizing m with
  | zero => exact .inl rfl
  | succ steps ih =>
    rw [run]
    refine (step_isSafe hg hnet hm).bind fun progress m' hgoes => ?_
    cases progress with
    | running => exact ih hgoes.1
    | returned => trivial
    | rejected => trivial

end Machine

/-- A rule that is found exists. -/
theorem Network.exists_rule_of_findRule? {net : Network} {name : String} {id : RuleId}
    (h : net.findRule? name = some id) : ∃ rule, net.rule id = .ok rule := by
  obtain ⟨n, hn, rfl⟩ := Option.map_eq_some_iff.1 h
  obtain ⟨hlt, _⟩ := List.findIdx?_eq_some_iff_getElem.1 hn
  rw [Array.length_toList] at hlt
  exact ⟨_, by rw [rule, Int.ofNat_eq_natCast, Builder.numbered?_natCast,
    Array.getElem?_eq_getElem hlt]⟩

/-- A parse begins within its rule, in an invocation of it. -/
theorem Machine.isPlaced_start {id : RuleId} {rule : Rule} (hrule : g.rule id = .ok rule)
    {m : Machine σ} (hstate : m.state = rule.start) (hlinked : Linked m.stack.frames [])
    (hcache : m.cache.IsProper g) : m.IsPlaced g := by
  refine ⟨?_, ?_, hcache⟩
  · rwa [hlinked.context_eq]
  · rw [point, hlinked.context_eq, hstate]
    exact Network.standsWithin_start hrule

/-- The invocation that a parse begins in returns to nowhere. -/
theorem Grammar.enter_start_isSafe {id : RuleId} {rule : Rule} (hrule : g.rule id = .ok rule)
    (s : ParseState σ) :
    IsSafe (fun stack s' => Linked stack.frames [] ∧ ∃ host, s' = { s with host })
      (fun fault _ => g.Raises fault)
      (Effect.zoom (fun s => s.host) (fun host s => { s with host })
        (g.enter {} id none s.input.position) s) := by
  refine .zoom ((enter_isSafe hrule {} none _ _).mono ?_)
  rintro stack host ⟨frame, hframes, _, hcontext⟩
  rw [hframes]
  exact ⟨.outermost hcontext, host, rfl⟩

/-- With a proper cache, only a fault of a predicate, an action or a default ends a parse, or the
    want of fuel. -/
theorem Grammar.parse_isSafe {loops : List Fragment} (hg : g.IsSound)
    (hnet : g.toNetwork.IsCohesive loops) {s : ParseState σ} (hcache : s.cache.IsProper g)
    {start : String} {id : RuleId} (hstart : g.findRule? start = some id) (fuel : Nat)
    (options : ParseOptions) (vocabulary : Vocabulary) :
    IsSafe (fun _ _ => True) (fun fault _ => g.MayFail fault)
      (g.parse fuel options vocabulary start s) := by
  obtain ⟨rule, hrule⟩ := Network.exists_rule_of_findRule? hstart
  rw [parse, show g.findRule? start = some id from hstart]
  dsimp only
  rw [show g.rule id = .ok rule from hrule, ofExcept_ok_bind, bind_apply, get_apply]
  dsimp only
  refine ((enter_start_isSafe hrule s).imp (fun _ _ h => h) fun _ _ => .inr).bind ?_
  rintro stack _ ⟨hlinked, host, rfl⟩
  refine .zoom (IsSafe.bind (Machine.run_isSafe hg hnet ?_ fuel) fun _ _ _ => ?_)
  · exact Machine.isPlaced_start hrule rfl hlinked hcache
  · trivial

namespace Grammar

/-- Where each fragment is used once, nothing goes wrong within the interpreter, from whatever
    cache that predictions lead to: only a predicate, an action or a default ends a parse by a
    fault, unless the fuel runs out. A prediction that comes to an outcome takes an alternative
    that its decision has, and the least one of several. -/
theorem interpreter_isSafe {b : Builder σ} {rules : List (RuleDefinition σ)} {g : Grammar σ}
    (hb : b.Defines rules) (hg : (Build.finish b).1 = .ok g) {cache : Cache}
    (hcache : cache.IsReachable g fun _ _ => True) :
    (∀ (fuel : Nat) (options : ParseOptions) (vocabulary : Vocabulary) (start : String)
        (id : RuleId) (s : ParseState σ) (fault : Fault), g.findRule? start = some id →
      s.cache = cache → (g.parse fuel options vocabulary start s).1 = .error fault →
        fault = .outOfFuel ∨ g.Raises fault) ∧
    ∀ (fuel : Nat) (options : PredictOptions) (id : StateId) (decision : State) (input : Input)
        (stack : Stack) (host : σ) (p : Prediction), g.state id = .ok decision →
      (g.predictAt fuel options id input stack (cache, host)).1 = .ok p →
        p.outcome.IsValid g decision ∧
          ∀ alt, p.outcome.alt? = some alt → 1 ≤ alt ∧ alt ≤ decision.transitions.length := by
  have hnet := hb.isCohesive_grammar hg
  have hsound := (hb.isComposed_grammar hg).isBuilt.isSound
  have hproper : cache.IsProper g := hcache.isProper hsound hnet.isClosed
  refine ⟨fun fuel options vocabulary start id s fault hstart hs h => ?_,
    fun fuel options id decision input stack host p hs h => ?_⟩
  · subst hs
    exact (parse_isSafe hsound hnet hproper hstart fuel options vocabulary).of_error h
  · have hvalid := isValid_of_predictAt hsound hnet.isClosed hproper hs h
    exact ⟨hvalid, fun alt halt => hvalid.hasAlt halt⟩

/-- Where no default gives up, a grammar without predicates and actions raises no fault. -/
theorem not_raises (hpredicates : g.predicates.size = 0) (hactions : g.actions.size = 0)
    (hdefaults : g.DefaultsSucceed) (fault : Fault) : ¬g.Raises fault := by
  rintro (⟨hp, _⟩ | ⟨ha, _⟩ | ⟨hd, he⟩)
  · exact predicate_ne_ok hpredicates _ _ hp
  · exact action_ne_ok hactions _ _ ha
  · obtain ⟨_, _, hv⟩ := hdefaults _ _ hd _
    rw [hv] at he
    cases he

/-- Without predicates, actions and defaults, nothing goes wrong at all. -/
theorem nested_interpreter_isSafe :
    ∃ cache : Cache,
      cache =
        (nested.predictAt 9 {} 12 (.ofTypes [1, 3]) {} (.ofNetwork nested.toNetwork, ())).2.1 ∧
      (∀ (fuel : Nat) (options : ParseOptions) (vocabulary : Vocabulary) (input : Input)
          (fault : Fault), (nested.parse fuel options vocabulary "r"
            { input, cache, host := () }).1 = .error fault → fault = .outOfFuel) ∧
      ∀ (fuel : Nat) (options : PredictOptions) (decision : State) (input : Input) (stack : Stack)
          (p : Prediction), nested.state 12 = .ok decision →
        (nested.predictAt fuel options 12 input stack (cache, ())).1 = .ok p →
          p.outcome.IsValid nested decision := by
  obtain ⟨⟨rules, hrules⟩, hstart, _, hpredicates, hactions, _, _, _, hsignatures⟩ := nested_eq
  obtain ⟨b, hb, hfinish⟩ := exists_defines_of_ofRules hrules
  obtain ⟨cache, hc⟩ : ∃ cache : Cache, cache =
      (nested.predictAt 9 {} 12 (.ofTypes [1, 3]) {} (.ofNetwork nested.toNetwork, ())).2.1 :=
    ⟨_, rfl⟩
  have hcache : cache.IsReachable nested fun _ _ => True := by
    rw [hc]
    exact .predict 9 {} 12 (.ofTypes [1, 3]) {} () .new trivial
  obtain ⟨hparse, hpredict⟩ := interpreter_isSafe hb hfinish hcache
  refine ⟨cache, hc, fun fuel options vocabulary input fault h => ?_,
    fun fuel options decision input stack p hs h =>
      (hpredict fuel options 12 decision input stack () p hs h).1⟩
  have hsafe := hparse fuel options vocabulary "r" 0 { input, cache, host := () } fault hstart rfl h
  exact hsafe.resolve_right
    (not_raises hpredicates hactions (defaultsSucceed_of_all hsignatures) fault)

end Grammar

end AdaptiveLL
