import AdaptiveLL.Proofs.Grammar.Cohesion
import AdaptiveLL.Proofs.Grammar.Loops
import AdaptiveLL.Proofs.Grammar.Nullability

/-!
# Searching for wildcards

The search for a wildcard in a fragment crosses calls and does not go on from the end of the
fragment. It finds a wildcard exactly if the body that lies there has one
(`Builder.Lies.hasWildcard_iff`), whatever else the body is made of: inside the fragment there
are no ways on but those that the parts of the body ask for (`Body.Lies.showsOnly`), and each
of the parts is come to (`Body.Lies.shows`).
-/

namespace AdaptiveLL

open Relation

variable {σ : Type}

/-! ## Bodies with wildcards -/

namespace Body

/-- A wildcard is part of a body. What is called in the body is no part of it. -/
def HasWildcard : Body σ → Prop :=
  Body.wildcard.IsPartOf

variable {body : Body σ} {bodies : List (Body σ)} {greediness : Greediness}

/-- A body that has a wildcard is one, or has it in one of its parts. -/
theorem hasWildcard_iff :
    body.HasWildcard ↔ body = .wildcard ∨ ∃ part ∈ body.parts, part.HasWildcard := by
  rw [HasWildcard, IsPartOf, ReflTransGen.cases_tail_iff]
  exact or_congr_right (exists_congr fun _ => and_comm)

/-- A body without parts has a wildcard only if it is one. -/
theorem HasWildcard.eq_wildcard (h : body.HasWildcard) (hparts : body.parts = []) :
    body = .wildcard := by
  refine (hasWildcard_iff.1 h).resolve_right fun ⟨part, hpart, _⟩ => ?_
  simp [hparts] at hpart

theorem hasWildcard_iff_parts (h : body ≠ .wildcard) :
    body.HasWildcard ↔ ∃ part ∈ body.parts, part.HasWildcard :=
  hasWildcard_iff.trans (or_iff_right h)

@[simp] theorem hasWildcard_sequence :
    (sequence bodies).HasWildcard ↔ ∃ part ∈ bodies, part.HasWildcard :=
  hasWildcard_iff_parts (by simp)

@[simp] theorem hasWildcard_block :
    (block bodies).HasWildcard ↔ ∃ part ∈ bodies, part.HasWildcard :=
  hasWildcard_iff_parts (by simp)

@[simp] theorem hasWildcard_optional :
    (optional bodies).HasWildcard ↔ ∃ part ∈ bodies, part.HasWildcard :=
  hasWildcard_iff_parts (by simp)

@[simp] theorem hasWildcard_star :
    (star bodies greediness).HasWildcard ↔ ∃ part ∈ bodies, part.HasWildcard :=
  hasWildcard_iff_parts (by simp)

@[simp] theorem hasWildcard_plus :
    (plus bodies greediness).HasWildcard ↔ ∃ part ∈ bodies, part.HasWildcard :=
  hasWildcard_iff_parts (by simp)

theorem not_hasWildcard_epsilon : ¬(epsilon : Body σ).HasWildcard := by
  intro h
  cases h.eq_wildcard rfl

/-- An empty alternative is no wildcard. -/
theorem hasWildcard_orNothing :
    (block (bodies ++ [.epsilon])).HasWildcard ↔ ∃ part ∈ bodies, part.HasWildcard := by
  simp [or_and_right, exists_or, not_hasWildcard_epsilon]

theorem eq_wildcard_of_label? (h : body.label? = some .wildcard) : body = .wildcard := by
  cases body <;> cases h
  rfl

end Body

/-! ## What there is inside a fragment -/

section Inside

open Fragment

variable {ways : StateId → Option (List Transition)} {calls : Transition → String → StateId → Prop}
  {body : Body σ} {f : Fragment} {fs : List Fragment} {id : StateId}

theorem innerStep_of_ne_call {t : Transition}
    (h : ∀ callee follow, t.label ≠ .call callee follow) : innerStep t = t.target := by
  rw [innerStep]
  split
  · next callee follow hl => exact absurd hl (h callee follow)
  · rfl

/-- Some ways on have a wildcard among them only if a body has one. -/
def Body.Allows (body : Body σ) (ts : List Transition) : Prop :=
  (∃ t ∈ ts, t.label = .wildcard) → body.HasWildcard

/-- Every state inside a fragment but its end has ways on that a body allows. -/
def ShowsOnly (ways : StateId → Option (List Transition)) (body : Body σ) (f : Fragment) : Prop :=
  ∀ id, Inside ways f id → id ≠ f.stop → ∃ ts, ways id = some ts ∧ body.Allows ts

theorem ShowsOnly.imp {body' : Body σ} (h : ShowsOnly ways body f)
    (hbody : body.HasWildcard → body'.HasWildcard) : ShowsOnly ways body' f :=
  fun id hid hne => (h id hid hne).imp fun _ hts => ⟨hts.1, fun ht => hbody (hts.2 ht)⟩

/-- Where one is led on from the end of a fragment, the body allows the ways on from there too. -/
theorem ShowsOnly.of_leadsOn {next : StateId} (h : ShowsOnly ways body f)
    (hstop : ways f.stop = some [⟨next, .epsilon⟩]) (hid : Inside ways f id) :
    ∃ ts, ways id = some ts ∧ body.Allows ts := by
  by_cases he : id = f.stop
  · subst he
    exact ⟨_, hstop, by simp [Body.Allows]⟩
  · exact h id hid he

/-- What the parts of a body allow, the body allows. -/
theorem showsOnly_of_parts {bodies : List (Body σ)}
    (h : List.Forall₂ (ShowsOnly ways) bodies fs)
    (hbody : (∃ part ∈ bodies, part.HasWildcard) → body.HasWildcard) {g : Fragment}
    (hg : g ∈ fs) : ShowsOnly ways body g := by
  obtain ⟨part, hpart, (hshows : ShowsOnly ways part g)⟩ := exists_of_forall₂ h.flip hg
  exact hshows.imp fun hwildcard => hbody ⟨part, hpart, hwildcard⟩

theorem showsOnly_point (id : StateId) : ShowsOnly ways body ⟨id, id⟩ :=
  fun _ hid hne => absurd (inside_point hid) hne

/-- In a fragment of one transition, only this has to be allowed. -/
theorem showsOnly_step {t : Transition} (hw : ways f.start = some [t]) (ht : innerStep t = f.stop)
    (hbody : t.label = .wildcard → body.HasWildcard) : ShowsOnly ways body f := by
  intro id hid hne
  rcases inside_step hw ht hid with rfl | rfl
  · exact ⟨[t], hw, by simpa [Body.Allows] using hbody⟩
  · exact absurd rfl hne

/-- Between alternatives, there is nothing but the ways to them and from them. -/
theorem showsOnly_join (hj : Body.IsJoined ways f fs) (h : ∀ g ∈ fs, ShowsOnly ways body g) :
    ShowsOnly ways body f := by
  match fs with
  | [g] =>
    obtain rfl : f = g := hj
    exact h f List.mem_cons_self
  | g :: g' :: rest =>
    intro id hid hne
    rcases inside_join hj hid with rfl | he | ⟨k, hk, hin⟩
    · exact ⟨_, hj.1, by simp [Body.Allows]⟩
    · exact absurd he hne
    · exact (h k hk).of_leadsOn (hj.2 k hk) hin

/-- The ways on from the states inside a fragment are those that its body asks for. -/
theorem Body.Lies.showsOnly
    (hcalls : ∀ t name follow, calls t name follow → ∃ callee, t.label = .call callee follow)
    (h : Body.Lies ways calls body f) : ShowsOnly ways body f := by
  -- Nothing is known of the end of a part by itself: what follows the part leads on from there.
  refine h.induction ?element ?epsilon ?call ?predicate ?action ?nothing ?sequence ?block
    ?optional ?star ?plus
  case element =>
    intro body f l hl hw
    refine showsOnly_step hw (innerStep_of_ne_call (Body.label?_ne_call hl)) fun hwildcard => ?_
    exact Body.hasWildcard_iff.2 (.inl (Body.eq_wildcard_of_label? (hwildcard ▸ hl)))
  case epsilon => exact showsOnly_point
  case call =>
    intro name f t hw hc
    obtain ⟨callee, hl⟩ := hcalls _ _ _ hc
    refine showsOnly_step hw ?_ (by simp [hl])
    rw [innerStep, hl]
  case predicate => exact fun hw => showsOnly_step hw rfl (by simp)
  case action => exact fun hw => showsOnly_step hw rfl (by simp)
  case nothing => exact showsOnly_point
  case sequence =>
    intro parts fs first last ih hc hfirst hlast id hid hne
    obtain ⟨g, hg, hin⟩ := inside_chain hc hfirst hlast hid
    have hshows : ShowsOnly ways (.sequence parts) g :=
      showsOnly_of_parts ih Body.hasWildcard_sequence.2 hg
    obtain he | ⟨g', _, hw⟩ := chained_stop hc hlast hg
    · exact hshows id hin (he ▸ hne)
    · exact hshows.of_leadsOn hw hin
  case block =>
    intro alternatives fs f ih hj
    exact showsOnly_join hj fun g hg => showsOnly_of_parts ih Body.hasWildcard_block.2 hg
  case optional =>
    intro alternatives f ih
    exact ih.imp fun h => Body.hasWildcard_optional.2 (Body.hasWildcard_orNothing.1 h)
  case star =>
    intro alternatives greediness f body back ih hentry hstop hback id hid hne
    obtain rfl | he | rfl | hin := inside_star hentry hstop hback hid
    · exact ⟨_, hentry, by simp [Body.Allows]⟩
    · exact absurd he hne
    · exact ⟨_, hback, by simp [Body.Allows]⟩
    · have hshows : ShowsOnly ways (.star alternatives greediness) body :=
        ih.imp fun h => Body.hasWildcard_star.2 (Body.hasWildcard_block.1 h)
      exact hshows.of_leadsOn hstop hin
  case plus =>
    intro alternatives greediness f body back ih hstart hstop hback id hid hne
    obtain he | rfl | hin := inside_plus hstart hstop hback hid
    · exact absurd he hne
    · exact ⟨_, hback, by simp [Body.Allows]⟩
    · have hshows : ShowsOnly ways (.plus alternatives greediness) body :=
        ih.imp fun h => Body.hasWildcard_plus.2 (Body.hasWildcard_block.1 h)
      exact hshows.of_leadsOn hstop hin

/-! ## What one comes to in a fragment -/

/-- One comes from a state to a wildcard without entering what is called. -/
def ComesToWildcard (ways : StateId → Option (List Transition)) (id : StateId) : Prop :=
  ∃ id' ts, ReflTransGen (Inner ways) id id' ∧ ways id' = some ts ∧ ∃ t ∈ ts, t.label = .wildcard

theorem inner_of_epsilon {ts : List Transition} {target : StateId} (hw : ways id = some ts)
    (ht : ⟨target, .epsilon⟩ ∈ ts) : Inner ways id target :=
  ⟨ts, hw, _, ht, rfl⟩

theorem ComesToWildcard.of_walk {id' : StateId} (hwalk : ReflTransGen (Inner ways) id id')
    (h : ComesToWildcard ways id') : ComesToWildcard ways id := by
  obtain ⟨a, ts, hwalk', hw, ht⟩ := h
  exact ⟨a, ts, hwalk.trans hwalk', hw, ht⟩

/-- A fragment can be crossed, and one comes to a wildcard in it if its body has one. -/
structure Shows (ways : StateId → Option (List Transition)) (body : Body σ) (f : Fragment) :
    Prop where
  crosses : ReflTransGen (Inner ways) f.start f.stop
  comes : body.HasWildcard → ComesToWildcard ways f.start

theorem shows_point (h : ¬body.HasWildcard) (id : StateId) : Shows ways body ⟨id, id⟩ :=
  ⟨.refl, fun hbody => absurd hbody h⟩

theorem shows_step {t : Transition} (hw : ways f.start = some [t]) (ht : innerStep t = f.stop)
    (hbody : body.HasWildcard → t.label = .wildcard) : Shows ways body f where
  crosses := .single ⟨[t], hw, t, List.mem_cons_self, ht⟩
  comes h := ⟨f.start, [t], .refl, hw, t, List.mem_cons_self, hbody h⟩

theorem crosses_of_mem {bodies : List (Body σ)} (h : List.Forall₂ (Shows ways) bodies fs)
    {g : Fragment} (hg : g ∈ fs) : ReflTransGen (Inner ways) g.start g.stop := by
  obtain ⟨_, _, hshows⟩ := exists_of_forall₂ h.flip hg
  exact hshows.crosses

/-- From where one comes to all of some fragments, one comes to the wildcards in them. -/
theorem comesToWildcard_of_parts {bodies : List (Body σ)}
    (h : List.Forall₂ (Shows ways) bodies fs)
    (hwalk : ∀ g ∈ fs, ReflTransGen (Inner ways) id g.start)
    (hbodies : ∃ part ∈ bodies, part.HasWildcard) : ComesToWildcard ways id := by
  obtain ⟨part, hpart, hwildcard⟩ := hbodies
  obtain ⟨g, hg, hshows⟩ := exists_of_forall₂ h hpart
  exact (hshows.comes hwildcard).of_walk (hwalk g hg)

/-- One comes from the start of a chain to the start of each of its fragments. -/
theorem walk_of_chained {first g : Fragment}
    (hfs : ∀ g ∈ fs, ReflTransGen (Inner ways) g.start g.stop) (hc : Body.Chained ways fs)
    (hfirst : fs.head? = some first) (hg : g ∈ fs) :
    ReflTransGen (Inner ways) first.start g.start := by
  induction fs generalizing first with
  | nil => simp at hg
  | cons f rest ih =>
    cases hfirst
    rcases List.mem_cons.1 hg with rfl | hg
    · exact .refl
    · match rest with
      | f' :: rest =>
        obtain ⟨hf, hrest⟩ := List.forall_mem_cons.1 hfs
        have hnext : Inner ways f.stop f'.start := inner_of_epsilon hc.1 List.mem_cons_self
        exact (hf.tail hnext).trans (ih hrest hc.2 rfl hg)

/-- Each of the alternatives of a block is come to, and leads to the end of the block. -/
theorem walk_of_isJoined {g : Fragment} (hj : Body.IsJoined ways f fs) (hg : g ∈ fs) :
    ReflTransGen (Inner ways) f.start g.start ∧ ReflTransGen (Inner ways) g.stop f.stop := by
  match fs with
  | [k] =>
    obtain rfl : f = k := hj
    rw [List.mem_singleton.1 hg]
    exact ⟨.refl, .refl⟩
  | k :: k' :: rest =>
    have hstart := inner_of_epsilon hj.1 (List.mem_map.2 ⟨g, hg, rfl⟩)
    exact ⟨.single hstart, .single (inner_of_epsilon (hj.2 g hg) List.mem_cons_self)⟩

/-- Each part of a body is come to in the fragment that the body lies in. -/
theorem Body.Lies.shows
    (hcalls : ∀ t name follow, calls t name follow → ∃ callee, t.label = .call callee follow)
    (h : Body.Lies ways calls body f) : Shows ways body f := by
  refine h.induction ?element ?epsilon ?call ?predicate ?action ?nothing ?sequence ?block
    ?optional ?star ?plus
  case element =>
    intro body f l hl hw
    refine shows_step hw (innerStep_of_ne_call (Body.label?_ne_call hl)) fun hbody => ?_
    have hparts : body.parts = [] := by
      cases body <;> first | rfl | cases hl
    rw [hbody.eq_wildcard hparts] at hl
    exact (Option.some.inj hl).symm
  case epsilon => exact shows_point Body.not_hasWildcard_epsilon
  case call =>
    -- What is called may be a wildcard, but the call is none.
    intro name f t hw hc
    obtain ⟨callee, hl⟩ := hcalls _ _ _ hc
    refine shows_step hw (by rw [innerStep, hl]) fun hbody => ?_
    cases hbody.eq_wildcard rfl
  case predicate =>
    intro p f index hw
    refine shows_step hw rfl fun hbody => ?_
    cases hbody.eq_wildcard rfl
  case action =>
    intro a f index hw
    refine shows_step hw rfl fun hbody => ?_
    cases hbody.eq_wildcard rfl
  case nothing => exact shows_point (by simp)
  case sequence =>
    intro parts fs first last ih hc hfirst hlast
    have hwalk (g : Fragment) (hg : g ∈ fs) : ReflTransGen (Inner ways) first.start g.start :=
      walk_of_chained (fun _ => crosses_of_mem ih) hc hfirst hg
    constructor
    case crosses =>
      have hmem := List.mem_of_getLast? hlast
      exact (hwalk last hmem).trans (crosses_of_mem ih hmem)
    case comes =>
      intro hbody
      exact comesToWildcard_of_parts ih hwalk (Body.hasWildcard_sequence.1 hbody)
  case block =>
    intro alternatives fs f ih hj
    constructor
    case crosses =>
      obtain ⟨g, hg⟩ : ∃ g, g ∈ fs := List.exists_mem_of_ne_nil fs (by rintro rfl; exact hj)
      obtain ⟨hstart, hstop⟩ := walk_of_isJoined hj hg
      exact (hstart.trans (crosses_of_mem ih hg)).trans hstop
    case comes =>
      intro hbody
      have hwalk (g : Fragment) (hg : g ∈ fs) : ReflTransGen (Inner ways) f.start g.start :=
        (walk_of_isJoined hj hg).1
      exact comesToWildcard_of_parts ih hwalk (Body.hasWildcard_block.1 hbody)
  case optional =>
    exact fun ih => ⟨ih.crosses, fun h =>
      ih.comes (Body.hasWildcard_orNothing.2 (Body.hasWildcard_optional.1 h))⟩
  case star =>
    intro alternatives greediness f body back ih hentry hstop hback
    constructor
    case crosses => exact .single (inner_of_epsilon hentry (by simp))
    case comes =>
      intro hbody
      have hbegin : Inner ways f.start body.start := inner_of_epsilon hentry List.mem_cons_self
      exact (ih.comes (Body.hasWildcard_block.2 (Body.hasWildcard_star.1 hbody))).of_walk
        (.single hbegin)
  case plus =>
    intro alternatives greediness f body back ih hstart hstop hback
    constructor
    case crosses =>
      have hturn : Inner ways body.stop back := inner_of_epsilon hstop List.mem_cons_self
      have hleave : Inner ways back f.stop := inner_of_epsilon hback (by simp)
      rw [hstart]
      exact (ih.crosses.tail hturn).tail hleave
    case comes =>
      intro hbody
      rw [hstart]
      exact ih.comes (Body.hasWildcard_block.2 (Body.hasWildcard_plus.1 hbody))

end Inside

/-! ## What the search finds -/

namespace Builder

open Fragment

variable {b : Builder σ} {body : Body σ} {f : Fragment}

theorem Calls.exists_label {t : Transition} {name : String} {follow : StateId}
    (h : b.Calls t name follow) : ∃ callee, t.label = .call callee follow := by
  obtain ⟨n, _, hl, _⟩ := h
  exact ⟨n, hl⟩

/-- A walk that stays in its rule does not come through the end of a fragment that nothing leads
    on from. -/
theorem inside_of_walk (hopen : b.ways f.stop = some []) {id : StateId}
    (h : ReflTransGen (Inner b.ways) f.start id) : Inside b.ways f id := by
  refine ReflTransGen.mono (fun a c hs => ⟨?_, hs⟩) _ _ h
  rintro rfl
  obtain ⟨t, ht, _⟩ := inner_of_ways hopen hs
  simp at ht

/-- The search finds the states inside a fragment, if all of them have their ways on. -/
theorem mem_reachable_iff_inside (hways : ∀ id, Inside b.ways f id → ∃ ts, b.ways id = some ts)
    {id : StateId} : id ∈ reachable b.states (fun a =>
        (if a = f.stop then [] else transitionsOf b.states a).map innerStep) f.start ↔
      Inside b.ways f id := by
  let next (a : StateId) := (if a = f.stop then [] else transitionsOf b.states a).map innerStep
  have hnext {x y : StateId} (hx : Inside b.ways f x) :
      y ∈ next x ↔ x ≠ f.stop ∧ Inner b.ways x y := by
    obtain ⟨ts, hts⟩ := hways x hx
    by_cases hstop : x = f.stop
    · simp [next, hstop]
    · simp only [next, if_neg hstop, transitionsOf_of_ways hts, List.mem_map]
      refine ⟨?_, fun hs => inner_of_ways hts hs.2⟩
      rintro ⟨t, ht, rfl⟩
      exact ⟨hstop, ts, hts, t, ht, rfl⟩
  have hinside {x : StateId} (hx : ReflTransGen (fun a b => b ∈ next a) f.start x) :
      Inside b.ways f x := by
    induction hx with
    | refl => exact .refl
    | tail _ hs ih => exact ReflTransGen.tail ih ((hnext ih).1 hs)
  constructor
  · exact fun h => hinside (walk_of_mem_reachable h)
  · intro h
    refine (mem_reachable_iff fun a ha t ht => ?_).2 ?_
    · obtain ⟨ts, hts⟩ := hways t (hinside (ha.tail ht))
      obtain ⟨n, _, hn, hs, _⟩ := waysFrom_eq_some_iff.1 hts
      exact ⟨n, hn, (Array.getElem?_eq_some_iff.1 hs).1⟩
    · induction h with
      | refl => exact .refl
      | tail hin hs ih => exact ih.tail ((hnext hin).2 hs)

/-- A wildcard is found in a fragment exactly if the body that lies there has one. -/
theorem Lies.hasWildcard_iff (h : b.Lies body f) (hopen : b.ways f.stop = some []) :
    f.hasWildcard b.states = true ↔ body.HasWildcard := by
  have hcalls (t : Transition) (name : String) (follow : StateId) :
      b.Calls t name follow → ∃ callee, t.label = .call callee follow := Calls.exists_label
  have hshows := Body.Lies.showsOnly hcalls h
  have hways (id : StateId) (hid : Inside b.ways f id) : ∃ ts, b.ways id = some ts := by
    by_cases hstop : id = f.stop
    · exact ⟨[], hstop ▸ hopen⟩
    · exact (hshows id hid hstop).imp fun _ hts => hts.1
  simp only [Fragment.hasWildcard, List.any_eq_true]
  constructor
  · rintro ⟨id, hid, t, ht, hl⟩
    rw [mem_reachable_iff_inside hways] at hid
    by_cases hstop : id = f.stop
    · simp [hstop] at ht
    · obtain ⟨ts, hts, hallows⟩ := hshows id hid hstop
      rw [if_neg hstop, transitionsOf_of_ways hts] at ht
      exact hallows ⟨t, ht, by simpa using hl⟩
  · intro hbody
    obtain ⟨id, ts, hwalk, hts, t, ht, hl⟩ := (Body.Lies.shows hcalls h).comes hbody
    -- The search does not look at the end of the fragment, where there is nothing yet.
    have hstop : id ≠ f.stop := by
      rintro rfl
      rw [hopen] at hts
      cases hts
      simp at ht
    have hid := (mem_reachable_iff_inside hways).2 (inside_of_walk hopen hwalk)
    refine ⟨id, hid, t, ?_, by simp [hl]⟩
    rwa [if_neg hstop, transitionsOf_of_ways hts]

end Builder

end AdaptiveLL
