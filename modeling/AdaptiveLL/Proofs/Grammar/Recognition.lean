import AdaptiveLL.Proofs.Grammar.Assembly
import AdaptiveLL.Proofs.Grammar.Crossing

/-!
# Recognition

A network that is laid out for some rules recognizes the languages of their bodies: the
runs from the start of a rule to its stop spell just the words that the body of the rule
derives (`Grammar.run_iff_derives`).

A run that enters a fragment in which a body lies comes through the end of the fragment,
and spells a word of the body up to there (`crosses_of_lies`). Bodies may call each other, so
this is shown along the number of steps that the run takes to come to its end
(`Network.EndsIn`). Conversely, a word is spelled wherever a body lies that derives it
(`spells_of_derives`).
-/

namespace AdaptiveLL

variable {σ : Type}

namespace Network

variable (net : Network)

/-- A run from a point spells a word and comes to the end of a rule that has no caller, within
    a number of steps. -/
inductive EndsIn : Nat → Point → List Int → Prop
  | stop {id : StateId} : net.IsStop id → EndsIn 0 ⟨id, []⟩ []
  | free {n : Nat} {p q : Point} {w : List Int} : net.FreeStep p q → EndsIn n q w →
    EndsIn (n + 1) p w
  | token {n : Nat} {id : StateId} {t : Transition} {context : List StateId} {type : Int}
    {w : List Int} : net.HasTransition id t → t.label.accepts type = true →
    EndsIn n ⟨t.target, context⟩ w → EndsIn (n + 1) ⟨id, context⟩ (type :: w)

variable {net} {n : Nat} {id target : StateId} {context : List StateId} {w : List Int}

theorem Run.exists_endsIn {p q : Point} (h : net.Run p w q) (hstop : net.IsStop q.state)
    (hq : q.context = []) : ∃ n, net.EndsIn n p w := by
  induction h with
  | refl p =>
    obtain ⟨id, context⟩ := p
    obtain rfl : context = [] := hq
    exact ⟨0, .stop hstop⟩
  | free hs _ ih => exact (ih hstop hq).imp' (· + 1) fun _ => .free hs
  | token ht ha _ ih => exact (ih hstop hq).imp' (· + 1) fun _ => .token ht ha

/-! ## Runs by the ways on -/

theorem hasTransition_iff_ways {t : Transition} :
    net.HasTransition id t ↔ ∃ ts, net.ways id = some ts ∧ t ∈ ts := by
  constructor
  · rintro ⟨s, hs, hk, ht⟩
    obtain ⟨n, rfl, hn⟩ := state_eq_ok_iff.1 hs
    exact ⟨s.transitions, waysFrom_eq_some_iff.2 ⟨n, s, rfl, hn, hk, rfl⟩, ht⟩
  · rintro ⟨ts, hw, ht⟩
    obtain ⟨n, s, rfl, hn, hk, rfl⟩ := waysFrom_eq_some_iff.1 hw
    exact ⟨s, state_eq_ok_iff.2 ⟨n, rfl, hn⟩, hk, ht⟩

theorem not_isStop_of_ways {ts : List Transition} (h : net.ways id = some ts) :
    ¬net.IsStop id := by
  obtain ⟨n, s, rfl, hn, hk, _⟩ := waysFrom_eq_some_iff.1 h
  exact not_isStop (state_eq_ok_iff.2 ⟨n, rfl, hn⟩) hk

/-- A run goes on by one of the ways on. -/
theorem EndsIn.next {ts : List Transition} (h : net.EndsIn n ⟨id, context⟩ w)
    (hw : net.ways id = some ts) : ∃ t ∈ ts, ∃ m < n,
      (t.label.isFree = true ∧ net.EndsIn m (behind t context) w) ∨
        ∃ type v, t.label.accepts type = true ∧ w = type :: v ∧
          net.EndsIn m ⟨t.target, context⟩ v := by
  have mem {t : Transition} (ht : net.HasTransition id t) : t ∈ ts := by
    obtain ⟨ts', hw', ht⟩ := hasTransition_iff_ways.1 ht
    cases hw.symm.trans hw'
    exact ht
  cases h with
  | stop hstop => exact absurd hstop (not_isStop_of_ways hw)
  | @free m _ _ _ hs h =>
    cases hs with
    | epsilon ht => exact ⟨_, mem ht, m, m.lt_succ_self, .inl ⟨rfl, h⟩⟩
    | predicate ht => exact ⟨_, mem ht, m, m.lt_succ_self, .inl ⟨rfl, h⟩⟩
    | action ht => exact ⟨_, mem ht, m, m.lt_succ_self, .inl ⟨rfl, h⟩⟩
    | call ht => exact ⟨_, mem ht, m, m.lt_succ_self, .inl ⟨rfl, h⟩⟩
    | exit hs hk => exact absurd ⟨_, hs, hk⟩ (not_isStop_of_ways hw)
  | @token m _ _ _ type v ht ha h =>
    exact ⟨_, mem ht, m, m.lt_succ_self, .inr ⟨type, v, ha, rfl, h⟩⟩

/-- A run from a state under some callers spells a word and comes to its end. -/
abbrev EndsUnder (net : Network) (context : List StateId) (n : Nat) (id : StateId)
    (w : List Int) : Prop :=
  net.EndsIn n ⟨id, context⟩ w

/-- The runs under some callers go along the ways on. -/
theorem endsUnder_followsWays (net : Network) (context : List StateId) :
    FollowsWays net.ways (net.EndsUnder context) := by
  intro n id w ts h hw _
  obtain ⟨t, ht, m, hm, ⟨hfree, h⟩ | htoken⟩ := h.next hw
  · refine ⟨t, ht, m, hm, .inl ⟨hfree, fun hcall => ?_⟩⟩
    obtain ⟨target, label⟩ := t
    cases label with
    | call callee follow => exact absurd rfl (hcall callee follow)
    | _ => exact h
  · exact ⟨t, ht, m, hm, .inr htoken⟩

theorem FreeStep.of_stop {p q : Point} (h : net.FreeStep p q) (hstop : net.IsStop p.state) :
    ∃ follow context, p.context = follow :: context ∧ q = ⟨follow, context⟩ := by
  cases h with
  | exit => exact ⟨_, _, rfl, rfl⟩
  | epsilon ht => exact absurd hstop ht.not_isStop
  | predicate ht => exact absurd hstop ht.not_isStop
  | action ht => exact absurd hstop ht.not_isStop
  | call ht => exact absurd hstop ht.not_isStop

/-- A run goes on behind the call that has come to its end. -/
theorem EndsIn.of_stop {follow : StateId} (h : net.EndsIn n ⟨id, follow :: context⟩ w)
    (hstop : net.IsStop id) : ∃ m < n, net.EndsIn m ⟨follow, context⟩ w := by
  cases h with
  | @free m _ _ _ hs h =>
    obtain ⟨_, _, hcontext, rfl⟩ := hs.of_stop hstop
    cases hcontext
    exact ⟨m, m.lt_succ_self, h⟩
  | token ht => exact absurd hstop ht.not_isStop

theorem EndsIn.eq_nil (h : net.EndsIn n ⟨id, []⟩ w) (hstop : net.IsStop id) : w = [] := by
  cases h with
  | stop => rfl
  | free hs h =>
    obtain ⟨_, _, hcontext, _⟩ := hs.of_stop hstop
    cases hcontext
  | token ht => exact absurd hstop ht.not_isStop

theorem reaches_of_ways {ts : List Transition} (hw : net.ways id = some ts)
    (ht : ⟨target, .epsilon⟩ ∈ ts) (context : List StateId) :
    net.Reaches ⟨id, context⟩ ⟨target, context⟩ :=
  .single (.epsilon (hasTransition_iff_ways.2 ⟨ts, hw, ht⟩))

end Network

/-! ## Runs through a body spell words of it -/

section Language

variable {net : Network} {rules : List (RuleDefinition σ)}

namespace Network.IsLaidOut

/-- The body of a rule lies between the bounds of the rule of its name. -/
theorem liesBetween (h : net.IsLaidOut rules) {r : RuleDefinition σ} (hr : r ∈ rules) {id : RuleId}
    {rule : Rule} (hrule : net.rule id = .ok rule) (hname : rule.name = r.name) :
    net.LiesBetween r.body rule := by
  obtain ⟨id', rule', hrule', hname', hlies⟩ := h.rule r hr
  have hfind := h.find id rule hrule
  rw [hname, ← hname', h.find id' rule' hrule'] at hfind
  cases hfind
  cases hrule.symm.trans hrule'
  exact hlies

end Network.IsLaidOut

/-- A run through the fragment that a body lies in spells a word of the body there. -/
theorem crosses_of_lies (hnet : net.IsLaidOut rules) (n : Nat) (context : List StateId)
    {body : Body σ} {f : Fragment} (h : net.Lies body f) :
    CrossesWithin (net.EndsUnder context) rules n body f := by
  -- A call leads to the body of any rule, but leaves fewer steps for it.
  induction n using Nat.strong_induction_on generalizing context body f with
  | _ n ih =>
    refine h.crosses (net.endsUnder_followsWays context) ?_
    rintro name f ⟨target, label⟩ hw ⟨id, rule, hl, hrule, rfl, htarget⟩ m hm w h
    obtain rfl : label = .call id f.stop := hl
    obtain rfl : target = rule.start := htarget
    obtain ⟨r, hr, hname⟩ := hnet.known id rule hrule
    obtain ⟨g, hend, hstart, hlies, hstop⟩ := hnet.liesBetween hr hrule hname.symm
    obtain ⟨t, ht, k, hk, hnext⟩ := Network.EndsIn.next h hw
    obtain rfl := List.mem_singleton.1 ht
    rcases hnext with ⟨_, hnext⟩ | ⟨_, _, haccepts, _⟩
    · have hcross : CrossesWithin (net.EndsUnder (f.stop :: context)) rules k r.body
          ⟨rule.start, rule.stop⟩ :=
        crosses_bounds (net.endsUnder_followsWays _) (ih k (by omega) _ hlies) hstart hstop
      obtain ⟨u, v, rfl, hu, k', hk', hv⟩ := hcross k le_rfl w hnext
      obtain ⟨k'', hk'', hv⟩ := Network.EndsIn.of_stop hv hend
      exact ⟨u, v, rfl, hname ▸ .call hr hu, k'', by omega, hv⟩
    · cases haccepts

/-! ## Words of a body are spelled by runs through it -/

/-- The body of a loop leads from an entry back to it, and the entry leads out of the loop. -/
def Network.Turns (net : Network) (bodies : List (Body σ)) (entry exit : StateId) : Prop :=
  ∃ f, net.Lies (.block bodies) f ∧
    net.ways entry = some [⟨f.start, .epsilon⟩, ⟨exit, .epsilon⟩] ∧
    ∀ context, net.Reaches ⟨f.stop, context⟩ ⟨entry, context⟩

/-- Where a body lies, runs spell a word: that of a loop wherever its body turns, and that of a
    block also where there are more alternatives. -/
def Spells (net : Network) : Body σ → List Int → Prop
  | .star bodies _, w => ∀ entry exit, net.Turns bodies entry exit →
    ∀ context, net.Run ⟨entry, context⟩ w ⟨exit, context⟩
  | .block bodies, w => ∀ more f, bodies ⊆ more → net.Lies (.block more) f →
    ∀ context, net.Run ⟨f.start, context⟩ w ⟨f.stop, context⟩
  | body, w => ∀ f, net.Lies body f → ∀ context, net.Run ⟨f.start, context⟩ w ⟨f.stop, context⟩

theorem Spells.run {body : Body σ} {w : List Int} (h : Spells net body w) {f : Fragment}
    (hf : net.Lies body f) (context : List StateId) :
    net.Run ⟨f.start, context⟩ w ⟨f.stop, context⟩ := by
  cases body with
  | star bodies greediness =>
    cases hf with
    | element hl => cases hl
    | @star _ _ _ body back hlies hentry hstop hback =>
      refine h _ _ ⟨body, hlies, hentry, fun context => ?_⟩ context
      exact (Network.reaches_of_ways hstop List.mem_cons_self context).trans
        (Network.reaches_of_ways hback List.mem_cons_self context)
  | block bodies => exact h bodies f (List.Subset.refl bodies) hf context
  | _ => exact h f hf context

theorem spells_of_label? (rules : List (RuleDefinition σ)) {body : Body σ} {w : List Int}
    {l : Label} (hl : body.label? = some l) (h : Body.Derives rules body w) :
    Spells net body w := by
  obtain ⟨type, rfl, ha⟩ := (Body.derives_label? hl).1 h
  have through (f : Fragment) (hf : net.Lies body f) (context : List StateId) :
      net.Run ⟨f.start, context⟩ [type] ⟨f.stop, context⟩ := by
    cases hf with
    | element hl' hw =>
      cases hl.symm.trans hl'
      exact .token (Network.hasTransition_iff_ways.2 ⟨_, hw, List.mem_cons_self⟩) ha (.refl _)
    | _ => cases hl
  cases body with
  | star => cases hl
  | block => cases hl
  | _ => exact through

/-- A run may go through any of the alternatives of a block. -/
theorem run_of_joined {f g : Fragment} {fs : List Fragment} {w : List Int}
    (hjoined : Body.IsJoined net.ways f fs) (hg : g ∈ fs) {context : List StateId}
    (h : net.Run ⟨g.start, context⟩ w ⟨g.stop, context⟩) :
    net.Run ⟨f.start, context⟩ w ⟨f.stop, context⟩ := by
  match fs with
  | [g'] =>
    obtain rfl : f = g' := hjoined
    rwa [List.mem_singleton.1 hg] at h
  | g₁ :: g₂ :: rest =>
    obtain ⟨hstart, hstops⟩ := hjoined
    have henter := Network.reaches_of_ways hstart (List.mem_map_of_mem hg) context
    have hleave := Network.reaches_of_ways (hstops g hg) List.mem_cons_self context
    have hrun := henter.run (h.trans (Network.run_nil_iff.2 hleave))
    rwa [List.append_nil] at hrun

theorem run_of_mem_block {bodies : List (Body σ)} {body : Body σ} {w : List Int}
    (hbody : body ∈ bodies) (h : Spells net body w) {f : Fragment}
    (hf : net.Lies (.block bodies) f) (context : List StateId) :
    net.Run ⟨f.start, context⟩ w ⟨f.stop, context⟩ := by
  cases hf with
  | element hl => cases hl
  | @block _ fs _ hparts hjoined =>
    obtain ⟨g, hg, hlies⟩ := exists_of_forall₂ hparts hbody
    exact run_of_joined hjoined hg (h.run hlies context)

/-- A run through what lies between the bounds of a rule. -/
theorem run_of_liesBetween {body : Body σ} {w : List Int} (h : Spells net body w) {rule : Rule}
    (hrule : net.LiesBetween body rule) (context : List StateId) :
    net.Run ⟨rule.start, context⟩ w ⟨rule.stop, context⟩ := by
  obtain ⟨f, _, hstart, hlies, hstop⟩ := hrule
  have henter := Network.reaches_of_ways hstart List.mem_cons_self context
  have hleave := Network.reaches_of_ways hstop List.mem_cons_self context
  have hrun := henter.run ((h.run hlies context).trans (Network.run_nil_iff.2 hleave))
  rwa [List.append_nil] at hrun

/-- A call spells what the body of its rule spells. -/
theorem spells_call (hnet : net.IsLaidOut rules) {r : RuleDefinition σ} (hr : r ∈ rules)
    {w : List Int} (h : Spells net r.body w) : Spells net (.call r.name : Body σ) w := by
  intro f hf context
  cases hf with
  | element hl => cases hl
  | @call _ _ t hw hcall =>
    obtain ⟨target, label⟩ := t
    obtain ⟨id, rule, rfl, hrule, hname, rfl⟩ := hcall
    have hbetween := hnet.liesBetween hr hrule hname
    have hrun := run_of_liesBetween h hbetween (f.stop :: context)
    obtain ⟨_, ⟨s, hs, hk⟩, _⟩ := hbetween
    have hexit := hrun.trans (.free (.exit hs hk) (.refl _))
    rw [List.append_nil] at hexit
    exact .free (.call (Network.hasTransition_iff_ways.2 ⟨_, hw, List.mem_cons_self⟩)) hexit

/-- A sequence spells what its first part spells, and then what the others do. -/
theorem spells_andThen {first : Body σ} {rest : List (Body σ)} {v w : List Int}
    (hrest : Body.Derives rules (.sequence rest) w) (hv : Spells net first v)
    (hw : Spells net (.sequence rest) w) : Spells net (.sequence (first :: rest)) (v ++ w) := by
  intro f hf context
  cases hf with
  | element hl => cases hl
  | @sequence _ fs g last hparts hchained hfirst hlast =>
    obtain _ | ⟨hg, hparts⟩ := hparts
    cases hfirst
    have hrun := hv.run hg context
    cases hparts with
    | nil =>
      cases hlast
      cases hrest with
      | done => rwa [List.append_nil]
    | @cons _ g' _ gs hg' hparts =>
      rw [List.getLast?_cons_cons] at hlast
      have hnext := Network.reaches_of_ways hchained.1 List.mem_cons_self context
      exact hrun.trans (hnext.run
        (hw.run (.sequence (.cons hg' hparts) hchained.2 rfl hlast) context))

/-- A loop that is gone through at least once spells what its body spells, and then what the
    same loop spells if it may be left at once. -/
theorem spells_plus {alternatives : List (Body σ)} {greediness : Greediness} {v w : List Int}
    (hv : Spells net (.block alternatives) v) (hw : Spells net (.star alternatives greediness) w) :
    Spells net (.plus alternatives greediness) (v ++ w) := by
  intro f hf context
  cases hf with
  | element hl => cases hl
  | @plus _ _ _ body back hlies hstart hstop hback =>
    rw [hstart]
    have hturns : net.Turns alternatives back f.stop :=
      ⟨body, hlies, hback, Network.reaches_of_ways hstop List.mem_cons_self⟩
    exact (hv.run hlies context).trans
      ((Network.reaches_of_ways hstop List.mem_cons_self context).run
        (hw back f.stop hturns context))

/-- What a body derives is spelled wherever it lies. -/
theorem spells_of_derives (hnet : net.IsLaidOut rules) {body : Body σ} {w : List Int}
    (h : Body.Derives rules body w) : Spells net body w := by
  induction h with
  | token => exact spells_of_label? rules rfl .token
  | range hlow hhigh => exact spells_of_label? rules rfl (.range hlow hhigh)
  | oneOf hmem => exact spells_of_label? rules rfl (.oneOf hmem)
  | noneOf hne hnot => exact spells_of_label? rules rfl (.noneOf hne hnot)
  | wildcard hne => exact spells_of_label? rules rfl (.wildcard hne)
  | epsilon =>
    intro f hf context
    cases hf with
    | element hl => cases hl
    | epsilon => exact .refl _
  | call hr _ ih => exact spells_call hnet hr ih
  | predicate =>
    intro f hf context
    cases hf with
    | element hl => cases hl
    | predicate hw =>
      exact .free (.predicate (Network.hasTransition_iff_ways.2 ⟨_, hw, List.mem_cons_self⟩))
        (.refl _)
  | action =>
    intro f hf context
    cases hf with
    | element hl => cases hl
    | action hw =>
      exact .free (.action (Network.hasTransition_iff_ways.2 ⟨_, hw, List.mem_cons_self⟩))
        (.refl _)
  | done =>
    intro f hf context
    cases hf with
    | element hl => cases hl
    | nothing => exact .refl _
    | sequence hparts _ hfirst =>
      cases hparts
      cases hfirst
  | andThen _ hrest ihfirst ih => exact spells_andThen hrest ihfirst ih
  | block hbody _ ih =>
    exact fun more f hsub hf context => run_of_mem_block (hsub hbody) ih hf context
  | absent =>
    intro f hf context
    cases hf with
    | element hl => cases hl
    | @optional alternatives f hblock =>
      have hempty : Spells net (.epsilon : Body σ) [] := fun g hg context => by
        cases hg with
        | element hl => cases hl
        | epsilon => exact .refl _
      exact run_of_mem_block (List.mem_append_right _ List.mem_cons_self) hempty hblock context
  | @present alternatives w hblock ih =>
    intro f hf context
    cases hf with
    | element hl => cases hl
    | optional hlies => exact ih _ f (List.subset_append_left _ _) hlies context
  | leave =>
    rintro entry exit ⟨f, _, hentry, _⟩ context
    exact Network.run_nil_iff.2 (Network.reaches_of_ways hentry (by simp) context)
  | @again alternatives greediness v w _ _ ihbody ih =>
    rintro entry exit hturns context
    obtain ⟨f, hlies, hentry, hback⟩ := id hturns
    exact (Network.reaches_of_ways hentry List.mem_cons_self context).run
      ((ihbody.run hlies context).trans ((hback context).run (ih entry exit hturns context)))
  | atLeastOnce _ _ ihbody ih => exact spells_plus ihbody ih

end Language

namespace Grammar

/-- A grammar preserves the language of the bodies that its rules are defined by. Between the
    start and the stop of a rule lies its body, where each transition of a block leads to the
    alternative of the same number, and at a loop the first one leads to the body and the second
    one out of it. The runs from the start to the stop spell just the words of the body. -/
theorem run_iff_derives {b : Builder σ} {rules : List (RuleDefinition σ)} {g : Grammar σ}
    (hb : b.Defines rules) (hg : (Build.finish b).1 = .ok g) {r : RuleDefinition σ}
    (hr : r ∈ rules) :
    ∃ id rule, g.findRule? r.name = some id ∧ g.rule id = .ok rule ∧
      g.LiesBetween r.body rule ∧
      ∀ w, g.toNetwork.Run ⟨rule.start, []⟩ w ⟨rule.stop, []⟩ ↔ Body.Derives rules r.body w := by
  have hnet := hb.isLaidOut_grammar hg
  obtain ⟨id, rule, hrule, hname, hlies⟩ := hnet.rule r hr
  refine ⟨id, rule, hname ▸ hnet.find id rule hrule, hrule, hlies,
    fun w => ⟨fun h => ?_, fun h => ?_⟩⟩
  · have hstop : g.toNetwork.IsStop rule.stop := hlies.elim fun _ hf => hf.1
    obtain ⟨n, h⟩ := h.exists_endsIn hstop rfl
    obtain ⟨f, _, hstart, hbody, hend⟩ := hlies
    have hcross : CrossesWithin (g.toNetwork.EndsUnder []) rules n r.body
        ⟨rule.start, rule.stop⟩ :=
      crosses_bounds (g.toNetwork.endsUnder_followsWays []) (crosses_of_lies hnet n [] hbody)
        hstart hend
    obtain ⟨u, v, rfl, hu, m, _, hv⟩ := hcross n le_rfl w h
    rwa [Network.EndsIn.eq_nil hv hstop, List.append_nil]
  · exact run_of_liesBetween (spells_of_derives hnet h) hlies []

/-- A list in brackets. -/
def listRule : RuleDefinition Unit where
  name := "list"
  body := .sequence [.token 1, .optional [.sequence [.call "item",
    .star [.sequence [.token 3, .call "item"]] .greedy]], .token 2]

/-- A name, or a list. -/
def itemRule : RuleDefinition Unit where
  name := "item"
  body := .block [.token 4, .call "list"]

/-- The grammar of lists. -/
def lists : Grammar Unit :=
  ((ofRules [listRule, itemRule]).toOption).getD {}

theorem lists_eq : (ofRules [listRule, itemRule]).toOption.isSome = true ∧
    lists.toNetwork.isLayered (fun id => if id < 3 then 0 else if id < 18 then 2 else 1) = true ∧
    lists.toNetwork.allTransitions (fun t => !t.label.accepts Token.endOfInput) = true ∧
    lists.predicates.size = 0 ∧ lists.actions.size = 0 ∧
    (lists.signatures.toList.all fun s => s.locals.isEmpty && s.returns.isEmpty) = true := by
  decide +kernel

theorem isOk_listRule : (ofRules [listRule, itemRule]).toOption.isSome = true :=
  lists_eq.1

/-- The list of a name and of an empty list. -/
theorem derives_listRule :
    Body.Derives [listRule, itemRule] listRule.body [1, 4, 3, 1, 2, 2] := by
  have item {w : List Int} (h : Body.Derives [listRule, itemRule] itemRule.body w) :
      Body.Derives [listRule, itemRule] (.call "item") w :=
    .call (List.mem_cons_of_mem _ List.mem_cons_self) h
  have empty : Body.Derives [listRule, itemRule] (.call "list") [1, 2] :=
    .call List.mem_cons_self (.andThen .token (.andThen .absent (.andThen .token .done)))
  have more : Body.Derives [listRule, itemRule]
      (.star [.sequence [.token 3, .call "item"]] .greedy) [3, 1, 2] :=
    .again (.block List.mem_cons_self (.andThen .token
      (.andThen (item (.block (List.mem_cons_of_mem _ List.mem_cons_self) empty)) .done))) .leave
  exact .andThen .token (.andThen (.present (.block List.mem_cons_self
    (.andThen (item (.block List.mem_cons_self .token)) (.andThen more .done))))
    (.andThen .token .done))

theorem listRule_run :
    ∃ g id rule, ofRules [listRule, itemRule] = .ok g ∧ g.findRule? "list" = some id ∧
      g.rule id = .ok rule ∧ g.LiesBetween listRule.body rule ∧
      g.toNetwork.Run ⟨rule.start, []⟩ [1, 4, 3, 1, 2, 2] ⟨rule.stop, []⟩ := by
  cases hg : ofRules [listRule, itemRule] with
  | error e =>
    have hok := isOk_listRule
    rw [hg] at hok
    cases hok
  | ok g =>
    obtain ⟨b, hb, hfinish⟩ := exists_defines_of_ofRules hg
    obtain ⟨id, rule, hfind, hrule, hlies, hlanguage⟩ :=
      run_iff_derives hb hfinish List.mem_cons_self
    exact ⟨g, id, rule, rfl, hfind, hrule, hlies, (hlanguage _).2 derives_listRule⟩

end Grammar

end AdaptiveLL
