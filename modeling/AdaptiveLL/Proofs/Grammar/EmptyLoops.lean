import AdaptiveLL.Proofs.Grammar.Crossing
import AdaptiveLL.Proofs.Grammar.Looping
import AdaptiveLL.Proofs.Grammar.Loops

/-!
# Loops with empty bodies

A body derives the empty word wherever it lies in a fragment that can be crossed without
consuming a token by skipping rules that derive the empty word (`Builder.derives_of_liesAlone`).
So it does not matter when the body of a loop is found to be empty: where the loop is made,
without skipping any call (`Builder.Fails.exists_derives`), or in the end, when all rules are
known (`Builder.DefinesExactly.exists_derives_of_finish`). If it is not found to be empty in
the end either, it derives no empty word (`Builder.DefinesExactly.not_derives`).

So the construction of a grammar fails because of an empty body exactly if a star or a plus
has a body that derives the empty word (`Grammar.rejects_iff`).
-/

namespace AdaptiveLL

open Relation

variable {σ : Type}

/-! ## Walks that consume nothing -/

namespace Fragment

/-- A number of steps that consume nothing and stay in their rule lead from a state to another
    one. -/
inductive EmptyWalk (states : Array State) (rules : List RuleId) (stop : StateId) :
    Nat → StateId → List Int → Prop
  | arrive : EmptyWalk states rules stop 0 stop []
  | step {n : Nat} {a b : StateId} : EmptyStep states rules a b →
    EmptyWalk states rules stop n b [] → EmptyWalk states rules stop (n + 1) a []

variable {states : Array State} {rules : List RuleId} {stop id : StateId}

theorem exists_emptyWalk (h : ReflTransGen (EmptyStep states rules) id stop) :
    ∃ n, EmptyWalk states rules stop n id [] := by
  induction h using ReflTransGen.head_induction_on with
  | refl => exact ⟨0, .arrive⟩
  | head hs _ ih => exact ih.imp' (· + 1) fun _ => .step hs

/-- The ways on from some states are all their transitions, and none leads on from the end of
    the walk. -/
def ShowsWays (states : Array State) (stop : StateId)
    (ways : StateId → Option (List Transition)) : Prop :=
  ∀ id ts, ways id = some ts → ts ≠ [] → id ≠ stop ∧ transitionsOf states id = ts

variable {ways : StateId → Option (List Transition)}

/-- A walk goes on by one of the ways on. -/
theorem EmptyWalk.next (hways : ShowsWays states stop ways) {n : Nat} {w : List Int}
    {ts : List Transition} (h : EmptyWalk states rules stop n id w) (hw : ways id = some ts)
    (hne : ts ≠ []) : ∃ t ∈ ts, ∃ target, emptyStep rules t = some target ∧
      ∃ m < n, w = [] ∧ EmptyWalk states rules stop m target [] := by
  obtain ⟨hstop, hts⟩ := hways id ts hw hne
  cases h with
  | arrive => exact absurd rfl hstop
  | @step m _ target hs h =>
    obtain ⟨t, ht, hstep⟩ := hs
    exact ⟨t, hts ▸ ht, target, hstep, m, m.lt_succ_self, rfl, h⟩

theorem isFree_of_emptyStep {t : Transition} {target : StateId}
    (h : emptyStep rules t = some target) : t.label.isFree = true := by
  obtain ⟨_, label⟩ := t
  cases label <;> first | rfl | cases h

theorem emptyWalk_followsWays (hways : ShowsWays states stop ways) :
    FollowsWays ways (EmptyWalk states rules stop) := by
  intro n id w ts h hw hne
  obtain ⟨t, ht, target, hstep, m, hm, rfl, hnext⟩ := h.next hways hw hne
  refine ⟨t, ht, m, hm, .inl ⟨isFree_of_emptyStep hstep, fun hcall => ?_⟩⟩
  rw [← innerStep_of_emptyStep hstep] at hnext
  obtain ⟨_, label⟩ := t
  cases label with
  | call callee follow => exact absurd rfl (hcall callee follow)
  | _ => exact hnext

end Fragment

/-! ## Crossing bodies without consuming a token -/

namespace Builder

open Fragment

variable {b : Builder σ} {defined : List (RuleDefinition σ)} {rules : List RuleId}
  {body : Body σ} {f : Fragment}

/-- The rules of a list derive the empty word. -/
def Empties (b : Builder σ) (defined : List (RuleDefinition σ)) (rules : List RuleId) : Prop :=
  ∀ (n : Nat) (draft : RuleDraft σ), (n : RuleId) ∈ rules → b.rules[n]? = some draft →
    Body.Derives defined (.call draft.name) []

/-- A walk that comes to an end behind a body crosses the body. -/
theorem crosses_emptyWalk {ways : StateId → Option (List Transition)} {stop : StateId}
    (hways : ShowsWays b.states stop ways) (hrules : b.Empties defined rules)
    (h : Body.Lies ways b.Calls body f) (n : Nat) :
    CrossesWithin (EmptyWalk b.states rules stop) defined n body f := by
  refine h.crosses (emptyWalk_followsWays hways) ?_
  rintro name f t hw ⟨k, draft, hl, hdraft, rfl⟩ m _ w h
  obtain ⟨t', ht, target, hstep, k', hk', rfl, h⟩ := h.next hways hw (List.cons_ne_nil _ _)
  obtain rfl := List.mem_singleton.1 ht
  obtain ⟨_, label⟩ := t'
  obtain rfl : label = .call k f.stop := hl
  rw [emptyStep_call] at hstep
  split at hstep
  · next hmem =>
    obtain rfl : f.stop = target := Option.some.inj hstep
    exact ⟨[], [], rfl, hrules k draft hmem hdraft, k', hk'.le, h⟩
  · cases hstep

theorem derives_of_walk {stop : StateId}
    (hcross : ∀ n, CrossesWithin (EmptyWalk b.states rules stop) defined n body f)
    (h : ReflTransGen (EmptyStep b.states rules) f.start stop) :
    Body.Derives defined body [] := by
  obtain ⟨n, hn⟩ := exists_emptyWalk h
  obtain ⟨u, v, hw, hu, _⟩ := hcross n n le_rfl [] hn
  obtain ⟨rfl, rfl⟩ := List.append_eq_nil_iff.1 hw.symm
  exact hu

/-- A body derives the empty word if it can be crossed where it lies by skipping rules that do. -/
theorem derives_of_liesAlone (hrules : b.Empties defined rules) (h : b.LiesAlone body f)
    (hempty : f.canBeEmpty b.states rules = true) : Body.Derives defined body [] := by
  refine derives_of_walk (crosses_emptyWalk (fun id ts hw hne => ⟨?_, ?_⟩) hrules h)
    (walk_of_canBeEmpty hempty)
  · rintro rfl
    rw [Function.update_self] at hw
    exact hne (Option.some.inj hw).symm
  · exact transitionsOf_of_ways (Build.of_update_nil hne hw)

/-- If the rules of a list derive the empty word, so do those that can be crossed by skipping
    them. -/
theorem IsLaidOut.empties_nullableStep (h : b.IsLaidOut defined)
    (hrules : b.Empties defined rules) : b.Empties defined (b.nullableStep rules) := by
  intro n draft hmem hdraft
  obtain ⟨k, draft', bounds, hk, hdraft', hbounds, hempty⟩ := mem_nullableStep.1 hmem
  obtain rfl := Int.natCast_inj.1 hk
  cases hdraft.symm.trans hdraft'
  obtain hnone | ⟨r, hr, hname⟩ := h.known n draft hdraft
  · rw [hbounds] at hnone
    cases hnone
  obtain ⟨m, own, bounds', f, hown, hownname, hownbounds, ⟨i, s, hi, hs, hkind⟩, hstart, hlies,
    hstop⟩ := h.rule r hr
  obtain rfl : n = m := h.names n m draft own hdraft hown (hname.symm.trans hownname.symm)
  cases hdraft.symm.trans hown
  cases hbounds.symm.trans hownbounds
  -- No way leads on from the stop of a rule.
  have hways : ShowsWays b.states bounds.stop b.ways := by
    refine fun id ts hw _ => ⟨?_, transitionsOf_of_ways hw⟩
    rintro rfl
    obtain ⟨j, s', hj, hs', hkind', _⟩ := waysFrom_eq_some_iff.1 hw
    obtain rfl := Int.natCast_inj.1 (hi.symm.trans hj)
    cases hs.symm.trans hs'
    exact hkind' hkind
  rw [← hname]
  refine .call hr (derives_of_walk (f := bounds) (fun n => ?_) (walk_of_canBeEmpty hempty))
  exact crosses_bounds (emptyWalk_followsWays hways) (crosses_emptyWalk hways hrules hlies n)
    hstart hstop

/-- The rules that can match nothing derive the empty word. -/
theorem IsLaidOut.empties_nullable (h : b.IsLaidOut defined) : b.Empties defined b.nullable := by
  rw [nullable, stabilize_eq_repeat]
  induction b.rules.size with
  | zero =>
    intro n draft hmem
    cases hmem
  | succ n ih => exact h.empties_nullableStep ih

end Builder

/-! ## Where empty bodies are found -/

namespace Build

open Builder

variable {b : Builder σ} {alternatives : List Fragment} {greediness : Greediness}
  {op : Build σ Fragment} {state : StateId}

/-- A loop fails because of its body only if this can be crossed without consuming a token. -/
theorem IsLoop.exists_block (h : IsLoop alternatives greediness op)
    (hop : (op b).1 = .error (.emptyLoopBody state)) :
    ∃ f c, block alternatives b = (.ok f, c) ∧ f.canBeEmpty c.states [] = true := by
  obtain ⟨rest, rfl, hrest⟩ := h.exists_rest ignoresLoops_isFrame ignoresLoops_isMarkFrame
  rcases hrun : (loopBody alternatives greediness >>= rest) b with ⟨r, b'⟩
  rw [hrun] at hop
  obtain rfl : r = .error (.emptyLoopBody state) := hop
  obtain hbody | ⟨body, c, _, hlater⟩ := error_of_bind_apply hrun
  · obtain hblock | ⟨f, c, hblock, hcheck⟩ := error_of_bind_apply hbody
    · exact absurd rfl (((block_obeys ignoresLoops_isFrame _).of_error hblock).2 state)
    · refine ⟨f, c, hblock, ?_⟩
      rw [bind_apply, get_apply] at hcheck
      dsimp only at hcheck
      cases hempty : f.canBeEmpty c.states [] with
      | true => rfl
      | false =>
        rw [loopError?, hempty] at hcheck
        cases hcheck
  · exact absurd rfl (((hrest body).of_error hlater).2 state)

end Build

namespace Builder

variable {b : Builder σ} {rules : List (RuleDefinition σ)} {body : Body σ} {state : StateId}

/-- Where a loop cannot be made because of its body, this derives the empty word. -/
theorem Fails.exists_derives (h : b.Fails body (.emptyLoopBody state)) :
    ∃ alternatives, body.Repeats alternatives ∧
      Body.Derives rules (.block alternatives) [] := by
  obtain ⟨b', pool, used, rest, op, part, hassembles, hmakes, hperm, hpart, hop⟩ := h
  obtain ⟨hobeys, _⟩ | ⟨greediness, hloop, hrepeats⟩ :=
    hmakes.obeys_or_isLoop Build.ignoresLoops_isFrame
  · have hb := (hobeys b').2 state
    rw [hop] at hb
    exact absurd rfl hb
  refine ⟨part.parts, ⟨part, hpart, hrepeats⟩, ?_⟩
  obtain ⟨f, c, hblock, hempty⟩ := hloop.exists_block hop
  obtain ⟨ho, hused⟩ := hassembles.holds.of_perm hperm
  obtain ⟨hyields, hjoined⟩ := Build.block_yields hblock ho
  have hlies : c.Lies (.block part.parts) f := by
    rw [hmakes.parts]
    exact .block (hyields.lies_used ho hused) hjoined
  refine derives_of_liesAlone (fun n draft hmem => ?_) ?_ hempty
  · cases hmem
  · rwa [LiesAlone, ← hyields.stop, Function.update_eq_self]

/-- A builder does not pass the check because of a loop only if the body of one is found to be
    empty. -/
theorem exists_loop_of_error? (h : b.error? = some (.emptyLoopBody state)) :
    ∃ f ∈ b.loops, f.canBeEmpty b.states b.nullable = true := by
  rw [error?] at h
  simp only [Option.orElse_eq_orElse, Option.orElse_eq_or, Option.or_eq_some_iff] at h
  obtain hrules | ⟨_, hstates | ⟨_, hloops⟩⟩ := h
  · obtain ⟨_, _, hr⟩ := List.exists_of_findSome?_eq_some hrules
    split at hr <;> cases hr
  · obtain ⟨_, _, hs⟩ := List.exists_of_findSome?_eq_some hstates
    rw [decisionError?] at hs
    repeat' split at hs
    all_goals cases hs
  · obtain ⟨f, hf, hloop⟩ := List.exists_of_findSome?_eq_some hloops
    rw [loopError?] at hloop
    split at hloop
    · next hempty => exact ⟨f, hf, hempty⟩
    · cases hloop

/-- The grammar is refused because of a loop only if the body of one is found to be empty. -/
theorem exists_loop_of_finish (h : (Build.finish b).1 = .error (.emptyLoopBody state)) :
    ∃ f ∈ b.numberDecisions.loops,
      f.canBeEmpty b.numberDecisions.states b.numberDecisions.nullable = true := by
  rw [Build.finish, bind_apply, get_apply] at h
  dsimp only at h
  split at h
  · cases h
  split at h
  · cases h
  cases hcall : b.undefinedCall? with
  | some name =>
    rw [hcall] at h
    cases h
  | none =>
    rw [hcall] at h
    dsimp only at h
    rw [bind_apply, set_apply] at h
    dsimp only at h
    generalize b.numberDecisions = b at h ⊢
    cases herror : b.error? with
    | none =>
      rw [herror] at h
      cases h
    | some e =>
      rw [herror] at h
      obtain rfl : e = .emptyLoopBody state := Except.error.inj h
      exact exists_loop_of_error? herror

/-- Where the grammar is refused because of the body of a loop, some body derives the empty
    word. -/
theorem DefinesExactly.exists_derives_of_finish (h : b.DefinesExactly rules)
    (hfinish : (Build.finish b).1 = .error (.emptyLoopBody state)) :
    ∃ alternatives ∈ Body.repeated (rules.map RuleDefinition.body),
      Body.Derives rules (.block alternatives) [] := by
  obtain ⟨f, hf, hempty⟩ := exists_loop_of_finish hfinish
  obtain ⟨hgrows, hways⟩ := b.grows_numberDecisions
  have htallies := h.tallies.mono hgrows.toRetains (fun _ _ _ hw => hways ▸ hw) (by
    obtain ⟨_, _, he⟩ := b.numberDecisions_eq
    rw [he])
  obtain ⟨alternatives, hmem, hlies⟩ := htallies.known f hf
  exact ⟨alternatives, hmem,
    derives_of_liesAlone h.defines.isLaidOut.numberDecisions.empties_nullable hlies hempty⟩

/-- Where the grammar is given, no body of a loop derives the empty word. -/
theorem DefinesExactly.not_derives (h : b.DefinesExactly rules) {g : Grammar σ}
    (hg : (Build.finish b).1 = .ok g) {alternatives : List (Body σ)}
    (hmem : alternatives ∈ Body.repeated (rules.map RuleDefinition.body)) :
    ¬Body.Derives rules (.block alternatives) [] := by
  intro hempty
  obtain ⟨hgrows, hways⟩ := b.grows_numberDecisions
  have htallies := h.tallies.mono hgrows.toRetains (fun _ _ _ hw => hways ▸ hw) (by
    obtain ⟨_, _, he⟩ := b.numberDecisions_eq
    rw [he])
  obtain ⟨f, hf, hlies⟩ := htallies.recorded alternatives hmem
  have hskips := h.defines.not_skips hg f hf
  have hnet := h.defines.isLaidOut_grammar hg
  obtain ⟨he, rfl⟩ := finish_eq_ok hg
  have hlies' : b.numberDecisions.Lies (.block alternatives) f :=
    lies_of_retains (Grows.refl _).toRetains (fun _ _ => Build.of_update_nil) hlies
  have hrun := (spells_of_derives hnet hempty).run (hlies'.grammar he) []
  exact hskips (Network.run_nil_iff.1 hrun).skips

end Builder

namespace Grammar

/-- Some star or plus in the body of a rule has a body that derives the empty word. -/
def HasEmptyLoop (rules : List (RuleDefinition σ)) : Prop :=
  ∃ r ∈ rules, ∃ alternatives, r.body.Repeats alternatives ∧
    Body.Derives rules (.block alternatives) []

variable {rules : List (RuleDefinition σ)} {result : Except BuildError (Grammar σ)}

theorem hasEmptyLoop_iff : HasEmptyLoop rules ↔
    ∃ alternatives ∈ Body.repeated (rules.map RuleDefinition.body),
      Body.Derives rules (.block alternatives) [] := by
  simp only [HasEmptyLoop, Body.repeated, Set.mem_ofPred_eq, List.mem_map,
    exists_exists_and_eq_and]
  constructor
  · rintro ⟨r, hr, alternatives, hrepeats, hempty⟩
    exact ⟨alternatives, ⟨r, hr, hrepeats⟩, hempty⟩
  · rintro ⟨alternatives, ⟨r, hr, hrepeats⟩, hempty⟩
    exact ⟨r, hr, alternatives, hrepeats, hempty⟩

/-- Empty bodies of loops are rejected exactly: a construction that meets with no other failure
    fails because of an empty body if and only if the body of some star or plus derives the
    empty word, however the rules call each other and in whatever order they are defined. -/
theorem rejects_iff (h : Constructs rules result)
    (hother : ∀ e, result = .error e → ∃ state, e = .emptyLoopBody state) :
    (∃ state, result = .error (.emptyLoopBody state)) ↔ HasEmptyLoop rules := by
  cases h with
  | @openRule b _ _ r _ _ _ hopen =>
    obtain ⟨state, rfl⟩ := hother _ rfl
    have hobeys := Build.openRule_obeys Build.ignoresLoops_isFrame r.name r.signature b
    rw [hopen] at hobeys
    exact absurd rfl (hobeys.2 state)
  | @step _ _ _ _ r _ _ _ hrules _ hfails =>
    obtain ⟨state, rfl⟩ := hother _ rfl
    obtain ⟨alternatives, hrepeats, hempty⟩ := hfails.exists_derives
    have hr : r ∈ rules := hrules ▸ List.mem_append_right _ List.mem_cons_self
    exact iff_of_true ⟨state, rfl⟩ ⟨r, hr, alternatives, hrepeats, hempty⟩
  | @closeRule _ _ b _ _ _ id f _ _ _ _ _ hclose =>
    obtain ⟨state, rfl⟩ := hother _ rfl
    have hobeys := Build.closeRule_obeys Build.ignoresLoops_isFrame id f b
    rw [hclose] at hobeys
    exact absurd rfl (hobeys.2 state)
  | @finish b hb =>
    rw [hasEmptyLoop_iff]
    cases hfinish : (Build.finish b).1 with
    | error e =>
      obtain ⟨state, rfl⟩ := hother _ hfinish
      exact iff_of_true ⟨state, rfl⟩ (hb.exists_derives_of_finish hfinish)
    | ok g =>
      refine iff_of_false (fun ⟨_, h⟩ => by cases h) ?_
      rintro ⟨alternatives, hmem, hempty⟩
      exact hb.not_derives hfinish hmem hempty

/-- A loop over a rule that is defined later and can match nothing only by calling another rule
    that calls it in turn. -/
def looping : List (RuleDefinition Unit) :=
  [{ name := "loop", body := .star [.call "left"] .greedy },
    { name := "left", body := .block [.token 1, .sequence [.call "right", .call "right"]] },
    { name := "right", body := .optional [.call "left"] }]

theorem looping_fails : Build.failure? (ofRules looping) = some (.emptyLoopBody 2) := by
  decide +kernel

theorem looping_hasEmptyLoop : HasEmptyLoop looping := by
  have right : Body.Derives looping (.call "right") [] :=
    .call (List.mem_cons_of_mem _ (List.mem_cons_of_mem _ List.mem_cons_self)) .absent
  have left : Body.Derives looping (.call "left") [] :=
    .call (List.mem_cons_of_mem _ List.mem_cons_self)
      (.block (List.mem_cons_of_mem _ List.mem_cons_self) (.andThen right (.andThen right .done)))
  exact ⟨_, List.mem_cons_self, [.call "left"], ⟨_, .refl, .greedy, .inl rfl⟩,
    .block List.mem_cons_self left⟩

/-- The loop is rejected because of the rule that is defined last. -/
theorem looping_rejects : ∃ state, ofRules looping = .error (.emptyLoopBody state) := by
  refine (rejects_iff (constructs_ofRules looping) fun e he => ⟨2, ?_⟩).2 looping_hasEmptyLoop
  have hfails := looping_fails
  rw [he] at hfails
  exact Option.some.inj hfails

end Grammar

end AdaptiveLL
