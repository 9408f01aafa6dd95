import AdaptiveLL.Proofs.Prediction.Exploration
import AdaptiveLL.Proofs.Prediction.Transparency

/-!
# Where a non-greedy loop stands

The decision of a non-greedy loop takes notice of how deep a configuration is in
calls, and so tells configurations apart that are the same. Within one context
their depth follows from the states they return to, as long as the invocation
that predicts is left by the stop of its own rule only (`Config.StandsIn`).

Two contexts may be confused if one is the other with more calls around it and
the alternatives of the decision make these very calls. Contexts of which this
does not hold are *apart* (`Apart`), and in such contexts predictions do not
tell frontiers apart that hold the same configurations (`separates_of_apart`).
There caching is transparent. Elsewhere it is not: a cache that has grown deep in
a recursion may answer wrongly outside of it.
-/

namespace AdaptiveLL

open Relation

variable (net : Network) (exit : LoopExit) (decision : State)

/-- The alternatives of a decision come to a state, with some calls open since. -/
def Network.ComesTo (id : StateId) (calls : List StateId) : Prop :=
  ∃ t ∈ decision.transitions, ∃ w, net.Run ⟨t.target, []⟩ w ⟨id, calls⟩

/-- A configuration stands where the calls made since a decision say. -/
def Config.StandsIn (outer : List StateId) (c : Config) : Prop :=
  ∃ calls, c.context = calls ++ outer ∧ c.depth = calls.length ∧ c.left = false ∧
    net.ComesTo decision c.state calls

/-- The invocation that predicts is left by the stop of its own rule only. -/
def LeavesByStop : Prop :=
  ∀ id, net.ComesTo decision id [] → net.IsStop id → id = exit.ruleStop

/-- No context is another one with calls around it that the alternatives of a
    decision make. -/
def Apart (contexts : Set (List StateId)) : Prop :=
  ∀ outer ∈ contexts, ∀ calls, calls ≠ [] → calls ++ outer ∈ contexts →
    ∀ id inner, ¬net.ComesTo decision id (inner ++ calls)

variable {net exit decision} {collect : Bool} {outer : List StateId} {contexts : Set (List StateId)}

theorem Network.ComesTo.run {p q : Point} {w : List Int}
    (h : net.ComesTo decision p.state p.context) (hrun : net.Run p w q) :
    net.ComesTo decision q.state q.context := by
  obtain ⟨t, ht, v, hv⟩ := h
  exact ⟨t, ht, v ++ w, hv.trans hrun⟩

/-- A free transition keeps a configuration where its calls say. -/
theorem Config.StandsIn.freeStep {c d : Config} {t : Transition}
    (h : c.StandsIn net decision outer) (ht : net.HasTransition c.state t)
    (hd : AdaptiveLL.freeStep collect c t = some d) : d.StandsIn net decision outer := by
  obtain ⟨calls, hcontext, hdepth, hleft, hcomes⟩ := h
  have step {q : Point} (hs : net.FreeStep ⟨c.state, calls⟩ q) :
      net.ComesTo decision q.state q.context := hcomes.run (.free hs (.refl q))
  obtain ⟨target, label⟩ := t
  cases label with
  | epsilon =>
    cases hd
    exact ⟨calls, hcontext, hdepth, hleft, step (.epsilon ht)⟩
  | action index =>
    cases hd
    exact ⟨calls, hcontext, hdepth, hleft, step (.action ht)⟩
  | predicate p =>
    cases hd
    exact ⟨calls, hcontext, hdepth, hleft, step (.predicate ht)⟩
  | call rule follow =>
    cases hd
    refine ⟨follow :: calls, ?_, ?_, hleft, step (.call ht)⟩
    · rw [List.cons_append, ← hcontext]
    · show c.depth + 1 = ((calls.length + 1 : Nat) : Int)
      omega
  | _ => cases hd

/-- A token keeps a configuration where its calls say. -/
theorem Config.StandsIn.advance {c : Config} {t : Transition} {type : Int}
    (h : c.StandsIn net decision outer) (ht : net.HasTransition c.state t)
    (ha : t.label.accepts type = true) :
    StandsIn net decision outer { c with state := t.target } := by
  obtain ⟨calls, hcontext, hdepth, hleft, hcomes⟩ := h
  exact ⟨calls, hcontext, hdepth, hleft,
    hcomes.run (p := ⟨c.state, calls⟩) (.token ht ha (.refl ⟨t.target, calls⟩))⟩

/-- The alternatives of a decision begin without calls. -/
theorem Config.standsIn_start {t : Transition} (ht : t ∈ decision.transitions) (alt : Int)
    (outer : List StateId) :
    StandsIn net decision outer { state := t.target, alt, context := outer } :=
  ⟨[], rfl, rfl, rfl, t, ht, [], .refl _⟩

/-- At a stop without a call to return from, a configuration is at the end of the
    invocation that predicts. -/
theorem Config.StandsIn.isAtEnd (hx : exit.active = true) (hstop : LeavesByStop net exit decision)
    {c : Config} (h : c.StandsIn net decision outer) (hs : net.IsStop c.state)
    (hc : c.context = outer) : exit.isAtEnd c = true := by
  obtain ⟨calls, hcontext, hdepth, hleft, hcomes⟩ := h
  obtain rfl : calls = [] := by simpa [hc] using hcontext
  simp [LoopExit.isAtEnd, hx, hstop _ hcomes hs, hdepth, hleft]

/-- A closure keeps configurations where their calls say: it does not pass the end
    of the invocation that predicts. -/
theorem Config.StandsIn.follows (hx : exit.active = true)
    (hstop : LeavesByStop net exit decision) {c d : Config} (h : c.StandsIn net decision outer)
    (hd : Follows net exit collect c d) : d.StandsIn net decision outer := by
  obtain ⟨t, ht, htd⟩ | ⟨follow, context, hs, hc, hend, rfl⟩ := hd.cases
  · exact h.freeStep ht htd
  have hatEnd := h.isAtEnd hx hstop hs
  obtain ⟨calls, hcontext, hdepth, hleft, hcomes⟩ := h
  cases calls with
  | nil =>
    rw [hatEnd hcontext] at hend
    cases hend
  | cons f calls =>
    rw [hc] at hcontext
    obtain ⟨rfl, rfl⟩ := List.cons.inj hcontext
    obtain ⟨s, hs, hk⟩ := hs
    have hlen : c.depth = (calls.length : Int) + 1 := by simpa using hdepth
    refine ⟨calls, rfl, ?_, ?_, hcomes.run (.free (.exit hs hk) (.refl ⟨follow, calls⟩))⟩
    · show c.depth - 1 = _
      omega
    · show (c.left || decide (c.depth < 1)) = false
      rw [hleft, Bool.false_or, decide_eq_false_iff_not]
      omega

/-- A decision starts with configurations that stand where their calls say. -/
theorem standsIn_startFrontier (hx : exit.active = true) (hstop : LeavesByStop net exit decision)
    {fuel : Nat} {f : Frontier} (hf : startFrontier net exit fuel decision outer = .ok f) :
    ∀ c ∈ f.items, c.StandsIn net decision outer :=
  forall_startFrontier (fun _ _ hc => hc) (fun _ _ hd hc => hc.follows hx hstop hd)
    (fun _ _ ht => Config.standsIn_start (List.mem_of_getElem? ht) _ outer) hf

/-- A token leads from configurations that stand where their calls say to such. -/
theorem standsIn_nextFrontier (hx : exit.active = true) (hstop : LeavesByStop net exit decision)
    {fuel : Nat} {type : Int} {f g : Frontier} (hf : ∀ c ∈ f.items, c.StandsIn net decision outer)
    (hg : nextFrontier net exit fuel f type = .ok g) :
    ∀ c ∈ g.items, c.StandsIn net decision outer := by
  refine forall_nextFrontier (fun _ _ hc => hc) (fun _ _ hd hc => hc.follows hx hstop hd) ?_ hf hg
  rintro c _ ⟨t, ht, ha, rfl⟩ hc
  exact hc.advance ht ha

/-- The configurations that predictions come to in a context stand where the calls
    made since say. -/
theorem Arises.standsIn (hx : exit.active = true) (hstop : LeavesByStop net exit decision)
    {f : Frontier} (h : Arises net exit decision contexts f) :
    ∃ outer ∈ contexts, ∀ c ∈ f.items, c.StandsIn net decision outer := by
  induction h with
  | start ho hf => exact ⟨_, ho, standsIn_startFrontier hx hstop hf⟩
  | next _ _ _ hg ih =>
    obtain ⟨outer, ho, hf⟩ := ih
    exact ⟨outer, ho, standsIn_nextFrontier hx hstop hf hg⟩

/-- Where configurations are the same, contexts that are apart leave no doubt about
    where they stand. -/
theorem Config.StandsIn.eq_of_forget {inner : List StateId} {c d : Config}
    (hapart : Apart net decision contexts) (ho : outer ∈ contexts) (hi : inner ∈ contexts)
    (hc : c.StandsIn net decision outer) (hd : d.StandsIn net decision inner)
    (h : c.forget = d.forget) : c = d := by
  obtain ⟨calls, hcontext, hdepth, hleft, hcomes⟩ := hc
  obtain ⟨calls', hcontext', hdepth', hleft', hcomes'⟩ := hd
  obtain ⟨hkey, hguard⟩ : c.toKey = d.toKey ∧ c.guard = d.guard := by
    simpa [same] using same_iff_forget.2 h
  have happend : calls ++ outer = calls' ++ inner := by rw [← hcontext, ← hcontext', hkey]
  -- If the calls were not the same, one context would be the other with calls around it.
  have hcalls : calls = calls' := by
    rcases List.append_eq_append_iff.1 happend with ⟨more, rfl, rfl⟩ | ⟨more, rfl, rfl⟩
    · by_cases hmore : more = []
      · rw [hmore, List.append_nil]
      · exact absurd hcomes' (hapart _ hi more hmore ho _ calls)
    · by_cases hmore : more = []
      · rw [hmore, List.append_nil]
      · exact absurd hcomes (hapart _ ho more hmore hi _ calls')
  obtain ⟨⟨state, alt, context⟩, guard, depth, left⟩ := c
  obtain ⟨⟨state', alt', context'⟩, guard', depth', left'⟩ := d
  simp_all

theorem eq_of_map_forget {l m : List Config} (h : l.map Config.forget = m.map Config.forget)
    (heq : ∀ c ∈ l, ∀ d ∈ m, c.forget = d.forget → c = d) : l = m := by
  induction l generalizing m with
  | nil => exact (List.map_eq_nil_iff.1 h.symm).symm
  | cons c l ih =>
    cases m with
    | nil => cases h
    | cons d m =>
      obtain ⟨hcd, hlm⟩ := List.cons.inj h
      rw [heq c List.mem_cons_self d List.mem_cons_self hcd, ih hlm fun c hc d hd =>
        heq c (List.mem_cons_of_mem _ hc) d (List.mem_cons_of_mem _ hd)]

/-- In contexts that are apart, predictions do not tell frontiers apart that hold the
    same configurations. -/
theorem separates_of_apart (hstop : LeavesByStop net exit decision)
    (hapart : Apart net decision contexts) : Separates net exit decision contexts := by
  cases hx : exit.active with
  | false => exact separates_of_inactive hx
  | true =>
    intro f g hf hg hfg
    obtain ⟨outer, ho, hfo⟩ := hf.standsIn hx hstop
    obtain ⟨inner, hi, hgi⟩ := hg.standsIn hx hstop
    have hitems : f.items = g.items := by
      refine eq_of_map_forget (Frontier.same_iff_forget.1 hfg) fun c hc d hd => ?_
      exact (hfo c hc).eq_of_forget hapart ho hi (hgi d hd)
    have hguarded : f.guarded = g.guarded := by rw [hf.guarded, hg.guarded, hitems]
    obtain ⟨items, guarded⟩ := f
    obtain rfl : items = g.items := hitems
    obtain rfl : guarded = g.guarded := hguarded
    rfl

/-- Contexts of one length are apart. -/
theorem apart_of_length {n : Nat} (h : ∀ outer ∈ contexts, outer.length = n) :
    Apart net decision contexts := by
  intro outer ho calls hne hcalls
  have hlen := h _ hcalls
  rw [List.length_append, h outer ho] at hlen
  exact absurd (List.length_eq_zero_iff.1 (by omega)) hne

/-! ## Predictions within some contexts -/

theorem Arises.mono {contexts' : Set (List StateId)} (hsub : contexts ⊆ contexts') {f : Frontier}
    (h : Arises net exit decision contexts f) : Arises net exit decision contexts' f := by
  induction h with
  | start ho hf => exact .start (hsub ho) hf
  | next _ hopen htype hg ih => exact .next ih hopen htype hg

namespace Grammar

variable {σ : Type}

/-- Caching is transparent at a decision that predicts in contexts where it does not
    tell frontiers apart that hold the same configurations: whatever predictions
    have been made at it in such contexts, and at other decisions in any, a
    prediction in such a context comes to what it comes to without a cache. -/
theorem ignoresCache_of_separates_within {g : Grammar σ} (hg : g.IsBuilt)
    (hleft : ¬g.toNetwork.IsLeftRecursive) {id : StateId} {contexts : Set (List StateId)}
    (hsep : ∀ s exit, g.state id = .ok s → LoopExit.ofState g.toNetwork s = .ok exit →
      Separates g.toNetwork exit s contexts)
    (input : Input) {stack : Stack} (hstack : stack.context ∈ contexts) :
    ∃ steps, ∀ fuel ≥ steps, ∀ (options : PredictOptions) (cache : Cache) (host : σ),
      cache.IsReachable g (fun id' stack' => id' = id → stack'.context ∈ contexts) →
        g.IgnoresCache fuel options id input stack cache host ∧
        (g.PredicatesEnd → input.IsEnded →
          (g.predictAt fuel options id input stack (cache, host)).1 ≠ .error .outOfFuel) := by
  refine ignoresCache_of_separates hg.isSound hleft (fun s exit hs hx => ?_) (fun _ => hstack) input
  have hsub : contextsAt (fun id' (stack' : Stack) => id' = id → stack'.context ∈ contexts) id ⊆
      contexts := by
    rintro outer ⟨stack', hadmits, rfl⟩
    exact hadmits rfl
  exact fun f f' hf hf' => hsep s exit hs hx f f' (hf.mono hsub) (hf'.mono hsub)

/-- A rule with a non-greedy loop that may call itself between two tokens. -/
def reentered : Grammar Unit :=
  ((ofRules [{ name := "r", body := .sequence [.star [.token 2] .nonGreedy, .wildcard,
    .block [.token 2, .sequence [.token 3, .call "r", .token 1]]] }]).toOption).getD {}

theorem reentered_eq :
    (∃ rules, ofRules rules = .ok reentered) ∧
      (reentered.toNetwork.descends fun id =>
        [3, 0, 0, 4, 2, 3, 1, 0, 2, 0, 2, 0, 5, 4, 1, 0, 2, 1, 1].getD id.toNat 0) = true ∧
      reentered.predicates.size = 0 ∧
      (reentered.state 4).bind (LoopExit.ofState reentered.toNetwork) = .ok ⟨true, 1, 2⟩ ∧
      (∀ k < reentered.states.size, ∀ s ∈ reentered.states[k]?, s.kind = .ruleStop → k = 1) ∧
      (reentered.state 4).map State.transitions = .ok [⟨2, .epsilon⟩, ⟨6, .epsilon⟩] ∧
      reentered.toNetwork.walk [0, 0, 0, 1, 0, 0, 0, 0, 1, 0, 0, 0, 0, 0, 0, 0, 0, 0, 0, 0, 0]
        [2, 3, 5, 2, 1] ⟨6, []⟩ = some ⟨1, []⟩ :=
  ⟨⟨_, ofRules_getD (by decide +kernel) {}⟩, by decide +kernel⟩

theorem isBuilt_reentered : reentered.IsBuilt ∧ ¬reentered.toNetwork.IsLeftRecursive ∧
    reentered.predicates.size = 0 := by
  obtain ⟨⟨rules, hrules⟩, hdescends, hpredicates, _⟩ := reentered_eq
  exact ⟨isBuilt_ofRules hrules,
    Network.not_isLeftRecursive (Network.not_hasFreeCycle_of_descends _ hdescends), hpredicates⟩

/-- The rule has one stop. -/
theorem eq_of_isStop_reentered {id : StateId} {s : State} {exit : LoopExit}
    (h : reentered.toNetwork.IsStop id) (hs : reentered.state 4 = .ok s)
    (hx : LoopExit.ofState reentered.toNetwork s = .ok exit) : id = exit.ruleStop := by
  obtain ⟨_, _, _, hexit, hone, _⟩ := reentered_eq
  rw [hs] at hexit
  obtain rfl := Except.ok.inj (hx.symm.trans hexit)
  obtain ⟨s', hs', hk⟩ := h
  obtain ⟨n, rfl, hn⟩ := Network.state_eq_ok_iff.1 hs'
  exact congrArg Int.ofNat (hone n (Array.getElem?_eq_some_iff.1 hn).1 s' hn hk)

/-- The invocations of a rule that has called itself, which return to some states. -/
def invocations : List StateId → List Frame
  | [] => [{ rule := 0, name := "r", follow := none, start := 0, locals := {}, returns := {},
             context := [] }]
  | follow :: outer =>
    { rule := 0, name := "r", follow := some follow, start := 0, locals := {}, returns := {},
      context := follow :: outer } :: invocations outer

/-- What is known once the decision of the loop has predicted in a call, with only
    one token ahead. -/
def deepCache : Cache :=
  (reentered.predictAt 30 {} 4 (.ofTypes [2]) { frames := invocations [14] }
    (.ofNetwork reentered.toNetwork, ())).2.1

theorem reentered_ignoresCache_within :
    ∃ steps, ∀ fuel ≥ steps, ∀ options : PredictOptions,
      reentered.IgnoresCache fuel options 4 (.ofTypes [2, 3, 3, 2]) { frames := invocations [14] }
          deepCache () ∧
        (reentered.predictAt fuel options 4 (.ofTypes [2, 3, 3, 2]) { frames := invocations [14] }
          (deepCache, ())).1 ≠ .error .outOfFuel := by
  let contexts : Set (List StateId) := {outer | outer.length = 1}
  have hsep (s : State) (exit : LoopExit) (hs : reentered.state 4 = .ok s)
      (hx : LoopExit.ofState reentered.toNetwork s = .ok exit) :
      Separates reentered.toNetwork exit s contexts :=
    separates_of_apart (fun id _ hstop => eq_of_isStop_reentered hstop hs hx)
      (apart_of_length fun _ ho => ho)
  obtain ⟨hbuilt, hleft, hpredicates⟩ := isBuilt_reentered
  obtain ⟨steps, hsteps⟩ := ignoresCache_of_separates_within hbuilt hleft hsep
    (.ofTypes [2, 3, 3, 2])
    (show ({ frames := invocations [14] } : Stack).context ∈ contexts from rfl)
  refine ⟨steps, fun fuel hf options => ?_⟩
  have hreach : deepCache.IsReachable reentered
      (fun id' stack' => id' = 4 → stack'.context ∈ contexts) :=
    .predict 30 {} 4 (.ofTypes [2]) { frames := invocations [14] } () .new fun _ => rfl
  have h := hsteps fuel hf options _ () hreach
  exact ⟨h.1, h.2 (predicatesEnd_of_isEmpty hpredicates) (Input.isEnded_ofList _)⟩

/-- A cache that has grown in a call makes the loop of the outermost invocation
    accept what is not possible there. -/
theorem reentered_heeds_cache :
    reentered.IsBuilt ∧ ¬reentered.toNetwork.IsLeftRecursive ∧ reentered.predicates.size = 0 ∧
      deepCache.IsReachable reentered (fun _ _ => True) ∧
      (reentered.predictAt 30 { useCache := true } 4 (.ofTypes [2, 3, 3, 2])
          { frames := invocations [] } (deepCache, ())).1 =
        .ok { outcome := .predicted 2, decision := 0, rule := 0, start := 0, stop := 3,
              lookahead := 4 } ∧
      (reentered.predictAt 30 { useCache := false } 4 (.ofTypes [2, 3, 3, 2])
          { frames := invocations [] } (deepCache, ())).1 =
        .ok { outcome := .noViableAlt, decision := 0, rule := 0, start := 0, stop := 4,
              lookahead := 5 } :=
  ⟨isBuilt_reentered.1, isBuilt_reentered.2.1, isBuilt_reentered.2.2,
    .predict 30 {} 4 (.ofTypes [2]) { frames := invocations [14] } () .new trivial,
    by decide +kernel, by decide +kernel⟩

end Grammar

end AdaptiveLL
