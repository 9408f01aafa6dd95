import AdaptiveLL.Proofs.Grammar.Wildcards

/-!
# Greediness

A loop whose greediness is left open is left as early as possible exactly if one of its
alternatives has a wildcard (`Greediness.LeavesEarly`). This is found out when the loop is made,
by a search among the states that are there by then, and nothing that is made later changes it.
So in the grammar of some rules the state that decides a loop is marked by the alternatives of
the loop alone, however deep the loop lies in the body of a rule, and the states that decide
blocks are not marked (`Builder.Defines.exists_liesMarked`).
-/

namespace AdaptiveLL

variable {σ : Type}

/-! ## Bodies whose loops are marked -/

/-- A loop of some alternatives is left as early as possible: either this is said, or nothing is
    said and one of them has a wildcard. -/
def Greediness.LeavesEarly (alternatives : List (Body σ)) : Greediness → Prop
  | .auto => ∃ part ∈ alternatives, part.HasWildcard
  | .greedy => False
  | .nonGreedy => True

namespace Body

variable (ways : StateId → Option (List Transition)) (calls : Transition → String → StateId → Prop)
  (marks : StateId → Option Mark)

/-- A state is marked as the decision of a loop of some alternatives. -/
def DecidesLoop (id : StateId) (alternatives : List (Body σ)) (greediness : Greediness) : Prop :=
  ∃ nonGreedy, marks id = some (.loop nonGreedy) ∧
    (nonGreedy = true ↔ greediness.LeavesEarly alternatives)

/-- A body lies in a fragment, and the states that decide about its parts are marked: the entry
    of a star and the way back of a plus as decisions of a loop, and the start of a block of
    several alternatives as one of no loop. A body without parts, which lies somewhere, is no
    loop: there is no block of no alternatives. -/
inductive LiesMarked : Body σ → Fragment → Prop
  | leaf {body : Body σ} {f : Fragment} : body.parts = [] → Lies ways calls body f →
    LiesMarked body f
  | sequence {used : List (Fragment × Body σ)} {first last : Fragment} :
    (∀ p ∈ used, LiesMarked p.2 p.1) → Chained ways (used.map Prod.fst) →
    (used.map Prod.fst).head? = some first → (used.map Prod.fst).getLast? = some last →
    LiesMarked (.sequence (used.map Prod.snd)) ⟨first.start, last.stop⟩
  | block {used : List (Fragment × Body σ)} {f : Fragment} :
    (∀ p ∈ used, LiesMarked p.2 p.1) → IsJoined ways f (used.map Prod.fst) →
    (2 ≤ used.length → marks f.start = some .plain) →
    LiesMarked (.block (used.map Prod.snd)) f
  | optional {alternatives : List (Body σ)} {f : Fragment} :
    LiesMarked (.block (alternatives ++ [.epsilon])) f → LiesMarked (.optional alternatives) f
  | star {alternatives : List (Body σ)} {greediness : Greediness} {f body : Fragment}
    {back : StateId} : LiesMarked (.block alternatives) body →
    ways f.start = some [⟨body.start, .epsilon⟩, ⟨f.stop, .epsilon⟩] →
    ways body.stop = some [⟨back, .epsilon⟩] → ways back = some [⟨f.start, .epsilon⟩] →
    DecidesLoop marks f.start alternatives greediness →
    LiesMarked (.star alternatives greediness) f
  | plus {alternatives : List (Body σ)} {greediness : Greediness} {f body : Fragment}
    {back : StateId} : LiesMarked (.block alternatives) body → f.start = body.start →
    ways body.stop = some [⟨back, .epsilon⟩] →
    ways back = some [⟨body.start, .epsilon⟩, ⟨f.stop, .epsilon⟩] →
    DecidesLoop marks back alternatives greediness →
    LiesMarked (.plus alternatives greediness) f

variable {ways calls marks} {body : Body σ} {f : Fragment}

theorem LiesMarked.lies (h : LiesMarked ways calls marks body f) : Lies ways calls body f := by
  have all {used : List (Fragment × Body σ)} (hused : ∀ p ∈ used, Lies ways calls p.2 p.1) :
      List.Forall₂ (Lies ways calls) (used.map Prod.snd) (used.map Prod.fst) := by
    rw [List.forall₂_map_left_iff, List.forall₂_map_right_iff, List.forall₂_same]
    exact hused
  induction h with
  | leaf _ hlies => exact hlies
  | sequence _ hc hfirst hlast ih => exact .sequence (all ih) hc hfirst hlast
  | block _ hj _ ih => exact .block (all ih) hj
  | optional _ ih => exact .optional ih
  | star _ hentry hstop hback _ ih => exact .star ih hentry hstop hback
  | plus _ hstart hstop hback _ ih => exact .plus ih hstart hstop hback

/-- A body lies where it did, and is marked as it was, if states have the same ways on, but for
    the targets of calls, and are not marked anew. -/
theorem LiesMarked.map {ways' : StateId → Option (List Transition)}
    {calls' : Transition → String → StateId → Prop} {marks' : StateId → Option Mark}
    (link : Transition → Transition)
    (hlink : ∀ t, (∀ callee follow, t.label ≠ .call callee follow) → link t = t)
    (hways : ∀ id ts, ts ≠ [] → ways id = some ts → ways' id = some (ts.map link))
    (hcalls : ∀ t name follow, calls t name follow → calls' (link t) name follow)
    (hmarks : ∀ id m, marks id = some m → marks' id = some m)
    (h : LiesMarked ways calls marks body f) : LiesMarked ways' calls' marks' body f := by
  have empty := ways_of_epsilons link hlink hways
  induction h with
  | leaf hparts hlies => exact .leaf hparts (hlies.map link hlink hways hcalls)
  | sequence _ hc hfirst hlast ih => exact .sequence ih (hc.map empty) hfirst hlast
  | block _ hj hplain ih => exact .block ih (hj.map empty) fun hlen => hmarks _ _ (hplain hlen)
  | optional _ ih => exact .optional ih
  | star _ hentry hstop hback hdecides ih =>
    obtain ⟨nonGreedy, hmark, hiff⟩ := hdecides
    exact .star ih (empty _ _ (by simp) (by simp) hentry) (empty _ _ (by simp) (by simp) hstop)
      (empty _ _ (by simp) (by simp) hback) ⟨nonGreedy, hmarks _ _ hmark, hiff⟩
  | plus _ hstart hstop hback hdecides ih =>
    obtain ⟨nonGreedy, hmark, hiff⟩ := hdecides
    exact .plus ih hstart (empty _ _ (by simp) (by simp) hstop)
      (empty _ _ (by simp) (by simp) hback) ⟨nonGreedy, hmarks _ _ hmark, hiff⟩

end Body

/-! ## Bodies that are put together -/

namespace Builder

/-- A body lies in a fragment of a builder, and its loops are marked. -/
abbrev LiesMarked (b : Builder σ) (body : Body σ) (f : Fragment) : Prop :=
  Body.LiesMarked b.ways b.Calls b.marks body f

variable {b b' : Builder σ} {body : Body σ} {f : Fragment} {alternatives : List (Body σ)}
  {used : List (Fragment × Body σ)}

theorem LiesMarked.mono (hretains : b.Retains b')
    (hways : ∀ id ts, ts ≠ [] → b.ways id = some ts → b'.ways id = some ts)
    (hkeeps : b.KeepsMarks b') (h : b.LiesMarked body f) : b'.LiesMarked body f := by
  refine Body.LiesMarked.map id (fun _ _ => rfl) (fun i ts hne hw => ?_)
    (fun _ _ _ hcall => hcall.mono hretains) hkeeps h
  rw [List.map_id]
  exact hways i ts hne hw

/-- What is found out about a body that has just been made is what is asked for. -/
theorem Lies.isNonGreedy_iff (h : b.Lies (.block alternatives) f)
    (hopen : b.ways f.stop = some []) (greediness : Greediness) :
    Build.isNonGreedy b.states f greediness = true ↔ greediness.LeavesEarly alternatives := by
  cases greediness with
  | auto => exact (h.hasWildcard_iff hopen).trans Body.hasWildcard_block
  | greedy => simp [Build.isNonGreedy, Greediness.LeavesEarly]
  | nonGreedy => simp [Build.isNonGreedy, Greediness.LeavesEarly]

end Builder

namespace Build

open Builder Body

variable {b b' : Builder σ} {used : List (Fragment × Body σ)} {op : Build σ Fragment}
  {body : Body σ} {f : Fragment}

/-- The state that decides a block of several alternatives is not marked. -/
theorem plain_of_block {fs : List Fragment} (h : block fs b = (.ok f, b'))
    (hlen : 2 ≤ fs.length) : b'.marks f.start = some .plain := by
  match fs with
  | g :: g' :: rest =>
    obtain ⟨start, b₁, h, hstart⟩ := exists_of_newState_bind (by simp) h
    obtain ⟨stop, b₂, h, hstop⟩ := exists_of_newState_bind (by simp) h
    obtain ⟨_, b₃, hbranch, h⟩ := exists_of_bind_apply h
    cases h
    have hplain : b₁.marks start = some .plain := by rw [hstart.marks, Function.update_self]
    have hkeeps : b₁.KeepsMarks b₂ := (KeepsMarks.of_eq rfl).update hstop.unmarked hstop.marks
    exact (branch_obeys keepsMarks_isFrame _ _ _).of_ok hbranch _ _ (hkeeps _ _ hplain)

theorem MarksLoop.keeps {fs : List Fragment} {greediness : Greediness} {body : Fragment}
    {id : StateId} (h : MarksLoop b b' fs greediness body id) : b.KeepsMarks b' := by
  obtain ⟨c, hblock, hkeeps, _⟩ := h
  exact ((block_obeys keepsMarks_isFrame fs).of_ok hblock).trans hkeeps

/-- The body of a loop is not marked with the loop. -/
theorem MarksLoop.plain {fs : List Fragment} {greediness : Greediness} {body : Fragment}
    {id : StateId} (h : MarksLoop b b' fs greediness body id) (hlen : 2 ≤ fs.length) :
    b'.marks body.start = some .plain := by
  obtain ⟨c, hblock, hkeeps, _⟩ := h
  exact hkeeps _ _ (plain_of_block hblock hlen)

/-- A loop is marked by what its alternatives are. -/
theorem MarksLoop.decides {greediness : Greediness} {loop : Fragment} {id : StateId}
    (h : MarksLoop b b' (used.map Prod.fst) greediness loop id)
    (ho : AreOpen b (used.map Prod.fst)) (hused : ∀ p ∈ used, b.Lies p.2 p.1) :
    DecidesLoop b'.marks id (used.map Prod.snd) greediness := by
  obtain ⟨c, hblock, _, hmark⟩ := h
  -- The search takes place in `c`, where nothing leads on from the end of the body yet.
  obtain ⟨hyields, hjoined⟩ := block_yields hblock ho
  have hlies : c.Lies (.block (used.map Prod.snd)) loop :=
    .block (hyields.lies_used ho hused) hjoined
  exact ⟨_, hmark, hlies.isNonGreedy_iff hyields.stop greediness⟩

/-- To make a body marks no state but the one that decides it, if it is a loop. -/
theorem Makes.keepsMarks (h : Makes used op body) (hop : op b = (.ok f, b'))
    (ho : AreOpen b (used.map Prod.fst)) : b.KeepsMarks b' := by
  obtain ⟨hobeys, _⟩ | ⟨_, hloop, _⟩ := h.obeys_or_isLoop keepsMarks_isFrame
  · exact hobeys.of_ok hop
  · cases hloop with
    | star =>
      obtain ⟨_, _, _, _, _, _, _, hmarks⟩ := star_yields hop ho
      exact hmarks.keeps
    | plus =>
      obtain ⟨_, _, _, _, _, _, _, hmarks⟩ := plus_yields hop ho
      exact hmarks.keeps

/-- The body that is made lies in the fragment that is made, and its loops are marked. -/
theorem Makes.liesMarked (h : Makes used op body) (hop : op b = (.ok f, b'))
    (ho : AreOpen b (used.map Prod.fst)) (hused : ∀ p ∈ used, b.LiesMarked p.2 p.1) :
    b'.LiesMarked body f := by
  have hlies (p : Fragment × Body σ) (hp : p ∈ used) : b.Lies p.2 p.1 := (hused p hp).lies
  obtain ⟨hyields, hmade⟩ := h.yields hop ho hlies
  have kept (p : Fragment × Body σ) (hp : p ∈ used) : b'.LiesMarked p.2 p.1 :=
    (hused p hp).mono hyields.toRetains (fun _ _ hne hw => hyields.keeps ho hne hw)
      (h.keepsMarks hop ho)
  cases h with
  | sequence =>
    obtain ⟨_, ⟨hnil, _⟩ | ⟨first, last, hfirst, hlast, rfl, hchained⟩⟩ := sequence_yields hop ho
    · exact .leaf (by simpa [Body.parts] using hnil) hmade
    · exact .sequence kept hchained hfirst hlast
  | block =>
    exact .block kept (block_yields hop ho).2 fun hlen => plain_of_block hop (by simpa using hlen)
  | optional =>
    -- This is a block with one more alternative, which is empty and made last.
    obtain ⟨_, id, hjoined⟩ := optional_yields hop ho
    obtain ⟨e, b₁, _, hblock⟩ := exists_of_bind_apply hop
    have hall : ∀ p ∈ used ++ [(⟨id, id⟩, .epsilon)], b'.LiesMarked p.2 p.1 := by
      intro p hp
      rcases List.mem_append.1 hp with hp | hp
      · exact kept p hp
      · rw [List.mem_singleton.1 hp]
        exact .leaf rfl .epsilon
    have hplain : 2 ≤ (used ++ [((⟨id, id⟩, .epsilon) : Fragment × Body σ)]).length →
        b'.marks f.start = some .plain := by
      intro hlen
      exact plain_of_block hblock (by simpa using hlen)
    have hmarked := Body.LiesMarked.block hall (by simpa using hjoined) hplain
    rw [List.map_append] at hmarked
    exact .optional hmarked
  | star =>
    obtain ⟨_, loop, back, hrecords, hentry, hstop, hback, hmarks⟩ := star_yields hop ho
    have hbody : b'.LiesMarked (.block (used.map Prod.snd)) loop :=
      .block kept hrecords.isJoined fun hlen => hmarks.plain (by simpa using hlen)
    exact .star hbody hentry hstop hback (hmarks.decides ho hlies)
  | plus =>
    obtain ⟨_, loop, back, hrecords, hstart, hstop, hback, hmarks⟩ := plus_yields hop ho
    have hbody : b'.LiesMarked (.block (used.map Prod.snd)) loop :=
      .block kept hrecords.isJoined fun hlen => hmarks.plain (by simpa using hlen)
    exact .plus hbody hstart hstop hback (hmarks.decides ho hlies)
  | _ => exact .leaf rfl hmade

end Build

namespace Builder

variable {b b₁ b₂ b₃ b' : Builder σ} {pool : List (Fragment × Body σ)} {r : RuleDefinition σ}
  {rules : List (RuleDefinition σ)}

/-- While bodies are put together, all of them stay marked. -/
theorem Assembles.liesMarked (h : b.Assembles b' pool) :
    b.KeepsMarks b' ∧ ∀ p ∈ pool, b'.LiesMarked p.2 p.1 := by
  induction h with
  | nothing => exact ⟨.of_eq rfl, nofun⟩
  | @step b₁ b₂ pool used rest f op body hassembles hmakes hperm hop ih =>
    obtain ⟨hkeeps, hpool⟩ := ih
    obtain ⟨ho, hlies⟩ := hassembles.holds.of_perm hperm
    have hmade := hmakes.keepsMarks hop ho
    refine ⟨hkeeps.trans hmade, fun p hp => ?_⟩
    rcases List.mem_cons.1 hp with rfl | hp
    · exact hmakes.liesMarked hop ho fun p hp =>
        hpool p (hperm.mem_iff.1 (List.mem_append_left rest hp))
    · obtain ⟨hyields, _⟩ := hmakes.yields hop ho hlies
      exact (hpool p (hperm.mem_iff.1 (List.mem_append_right used hp))).mono hyields.toRetains
        (fun _ _ hne hw => hyields.keeps ho hne hw) hmade

/-- A rule is defined, with its body between its bounds, the loops of which are marked. -/
def HasMarkedRule (b : Builder σ) (r : RuleDefinition σ) : Prop :=
  ∃ (n : Nat) (draft : RuleDraft σ) (bounds f : Fragment), b.rules[n]? = some draft ∧
    draft.name = r.name ∧ draft.bounds = some bounds ∧
    b.ways bounds.start = some [⟨f.start, .epsilon⟩] ∧ b.LiesMarked r.body f ∧
    b.ways f.stop = some [⟨bounds.stop, .epsilon⟩]

theorem HasMarkedRule.mono (hretains : b.Retains b')
    (hways : ∀ id ts, ts ≠ [] → b.ways id = some ts → b'.ways id = some ts)
    (hkeeps : b.KeepsMarks b') (h : b.HasMarkedRule r) : b'.HasMarkedRule r := by
  obtain ⟨n, draft, bounds, f, hdraft, hname, hbounds, hstart, hlies, hstop⟩ := h
  obtain ⟨draft', hdraft', hname', hbounds'⟩ := hretains.rule n draft hdraft
  exact ⟨n, draft', bounds, f, hdraft', hname'.trans hname, hbounds' bounds hbounds,
    hways _ _ (by simp) hstart, hlies.mono hretains hways hkeeps, hways _ _ (by simp) hstop⟩

/-- The loops of all rules that have been defined are marked. -/
theorem Defines.hasMarkedRule (h : b.Defines rules) : ∀ r ∈ rules, b.HasMarkedRule r := by
  induction h with
  | nothing => exact nofun
  | @rule b b₁ b₂ b₃ rules name signature id pool f body _ hopen hassembles hmem hclose ih =>
    obtain ⟨n, draft, bounds, hrule⟩ := exists_definesRule hopen hassembles hmem hclose
    obtain ⟨hassembled, hpool⟩ := hassembles.liesMarked
    have hopened := (Build.openRule_obeys keepsMarks_isFrame name signature).of_ok hopen
    have hclosed := (Build.closeRule_obeys keepsMarks_isFrame id f).of_ok hclose
    intro r hr
    rcases List.mem_append.1 hr with hr | hr
    · exact (ih r hr).mono hrule.retains hrule.ways ((hopened.trans hassembled).trans hclosed)
    · rw [List.mem_singleton.1 hr]
      have hlies := (hpool _ hmem).mono hrule.grows.toRetains hrule.keeps hclosed
      exact ⟨n, draft, bounds, f, hrule.rule, hrule.name, hrule.hasBounds, hrule.start, hlies,
        hrule.stop⟩

/-! ## The grammar that is given -/

theorem marks_numberDecisions (b : Builder σ) : b.numberDecisions.marks = b.marks := by
  refine numberDecisions_keeps (P := fun c => c.marks = b.marks) rfl fun c n hc => ?_
  let number (s : State) : State := { s with decision := some c.decisions.size }
  have hsame : marksFrom (c.states.modify n number) = c.marks :=
    marksFrom_modify_same fun _ => rfl
  exact hsame.trans hc

theorem marks_grammar (b : Builder σ) : b.grammar.marks = b.marks := by
  refine ext_of_natCast (fun _ => marksFrom_of_neg) (fun _ => marksFrom_of_neg) fun n => ?_
  rw [Network.marks, marks, marksFrom_natCast, marksFrom_natCast, grammar]
  simp only [List.getElem?_toArray, List.getElem?_map, Array.getElem?_toList, Option.map_map]
  rfl

end Builder

/-- A body lies in a fragment of a network, and its loops are marked. -/
abbrev Network.LiesMarked (net : Network) (body : Body σ) (f : Fragment) : Prop :=
  Body.LiesMarked net.ways net.Calls net.marks body f

namespace Builder

variable {b : Builder σ} {body : Body σ} {f : Fragment} {r : RuleDefinition σ}
  {rules : List (RuleDefinition σ)} {g : Grammar σ}

/-- In the grammar that is given, the loops of the body of each rule are marked by what they
    consist of. -/
theorem Defines.exists_liesMarked (h : b.Defines rules) (hg : (Build.finish b).1 = .ok g)
    (hr : r ∈ rules) :
    ∃ id rule f, g.findRule? r.name = some id ∧ g.rule id = .ok rule ∧
      g.ways rule.start = some [⟨f.start, .epsilon⟩] ∧ g.toNetwork.LiesMarked r.body f ∧
      g.ways f.stop = some [⟨rule.stop, .epsilon⟩] := by
  have hlaid := h.isLaidOut_grammar hg
  have hrule := h.hasMarkedRule r hr
  obtain ⟨he, rfl⟩ := finish_eq_ok hg
  obtain ⟨hgrows, hways⟩ := b.grows_numberDecisions
  obtain ⟨n, draft, bounds, f, hdraft, hname, hbounds, hstart, hmarked, hstop⟩ :=
    hrule.mono hgrows.toRetains (fun _ _ _ hw => hways ▸ hw) (.of_eq b.marks_numberDecisions)
  have hn := rule_grammar_of_bounds hdraft hbounds
  refine ⟨n, _, f, hname ▸ hlaid.find _ _ hn, hn, ways_grammar_of_some hstart, ?_,
    ways_grammar_of_some hstop⟩
  refine hmarked.map b.numberDecisions.link (fun _ => link_eq_self)
    (fun _ _ _ => ways_grammar_of_some) (fun _ _ _ hcall => hcall.grammar he) fun _ _ hm => ?_
  rw [marks_grammar, hm]

end Builder

namespace Grammar

/-- The first loop calls a rule that is a wildcard. The second one has a wildcard in a greedy loop
    in it, and another loop beside this, which has none. -/
def textRule : RuleDefinition Unit where
  name := "text"
  body := .sequence [.star [.call "any"] .auto, .star [.sequence [.plus [.token 1] .auto,
    .star [.block [.token 2, .wildcard]] .greedy]] .auto]

def anyRule : RuleDefinition Unit where
  name := "any"
  body := .wildcard

/-- How the decisions are marked, in the order in which they are made. -/
theorem marks_text : (ofRules [textRule, anyRule]).toOption.map
      (fun g => g.decisions.toList.map g.marks) =
    some [some (.loop false), some (.loop false), some .plain, some (.loop false),
      some (.loop true)] := by
  decide +kernel

/-- Only the second loop of the rule is left as early as possible. -/
theorem text_liesMarked :
    ∃ g id rule f, ofRules [textRule, anyRule] = .ok g ∧ g.findRule? "text" = some id ∧
      g.rule id = .ok rule ∧ g.ways rule.start = some [⟨f.start, .epsilon⟩] ∧
      g.toNetwork.LiesMarked textRule.body f ∧ g.ways f.stop = some [⟨rule.stop, .epsilon⟩] ∧
      g.decisions.toList.map g.marks = [some (.loop false), some (.loop false), some .plain,
        some (.loop false), some (.loop true)] := by
  obtain ⟨g, hg, hmarks⟩ := Option.map_eq_some_iff.1 marks_text
  cases hrules : ofRules [textRule, anyRule] with
  | error e =>
    rw [hrules] at hg
    cases hg
  | ok g' =>
    rw [hrules] at hg
    obtain rfl : g' = g := Option.some.inj hg
    obtain ⟨b, hb, hfinish⟩ := exists_defines_of_ofRules hrules
    obtain ⟨id, rule, f, hfind, hrule, hstart, hmarked, hstop⟩ :=
      hb.exists_liesMarked hfinish List.mem_cons_self
    exact ⟨g', id, rule, f, rfl, hfind, hrule, hstart, hmarked, hstop, hmarks⟩

end Grammar

end AdaptiveLL
