import AdaptiveLL.Proofs.Grammar.Fragments

/-!
# Putting bodies together

Between the beginning and the end of a rule, its body is put together: each step makes
a body out of others that have been made since the rule began, none of which is used
twice (`Builder.Assembles`). It does not matter in which order they are made. A builder
that has defined some rules in this way (`Builder.Defines`) gives a grammar that is laid
out for them (`Builder.Defines.isLaidOut_grammar`).

The grammar of some rules that are given by their bodies is one of these
(`Grammar.exists_defines_of_ofRules`).
-/

namespace AdaptiveLL

variable {σ : Type}

/-! ## Bodies that are put together -/

/-- A step makes a body out of fragments that bodies lie in. -/
inductive Build.Makes : List (Fragment × Body σ) → Build σ Fragment → Body σ → Prop
  | token (type : Int) : Makes [] (Build.token type) (.token type)
  | range (low high : Int) : Makes [] (Build.range low high) (.range low high)
  | oneOf (types : List Int) : Makes [] (Build.oneOf types) (.oneOf types)
  | noneOf (types : List Int) : Makes [] (Build.noneOf types) (.noneOf types)
  | wildcard : Makes [] Build.wildcard .wildcard
  | epsilon : Makes [] Build.epsilon .epsilon
  | call (name : String) : Makes [] (Build.call name) (.call name)
  | predicate (p : Predicate σ) : Makes [] (Build.predicate p) (.predicate p)
  | action (a : Action σ) : Makes [] (Build.action a) (.action a)
  | sequence (parts : List (Fragment × Body σ)) :
    Makes parts (Build.sequence (parts.map Prod.fst)) (.sequence (parts.map Prod.snd))
  | block (parts : List (Fragment × Body σ)) :
    Makes parts (Build.block (parts.map Prod.fst)) (.block (parts.map Prod.snd))
  | optional (parts : List (Fragment × Body σ)) :
    Makes parts (Build.optional (parts.map Prod.fst)) (.optional (parts.map Prod.snd))
  | star (parts : List (Fragment × Body σ)) (greediness : Greediness) :
    Makes parts (Build.star (parts.map Prod.fst) greediness)
      (.star (parts.map Prod.snd) greediness)
  | plus (parts : List (Fragment × Body σ)) (greediness : Greediness) :
    Makes parts (Build.plus (parts.map Prod.fst) greediness)
      (.plus (parts.map Prod.snd) greediness)

namespace Builder

/-- From one builder to another, bodies are put together, each of which is used once at
    most: what is left are those that have not been used. -/
inductive Assembles (b : Builder σ) : Builder σ → List (Fragment × Body σ) → Prop
  | nothing : Assembles b b []
  | step {b₁ b₂ : Builder σ} {pool used rest : List (Fragment × Body σ)} {f : Fragment}
    {op : Build σ Fragment} {body : Body σ} : Assembles b b₁ pool → Build.Makes used op body →
    (used ++ rest).Perm pool → op b₁ = (.ok f, b₂) → Assembles b b₂ ((f, body) :: rest)

/-- A builder has defined some rules, each by a body that was put together in it. -/
inductive Defines : Builder σ → List (RuleDefinition σ) → Prop
  | nothing : Defines {} []
  | rule {b b₁ b₂ b₃ : Builder σ} {rules : List (RuleDefinition σ)} {name : String}
    {signature : Signature σ} {id : RuleId} {pool : List (Fragment × Body σ)} {f : Fragment}
    {body : Body σ} : Defines b rules → Build.openRule name signature b = (.ok id, b₁) →
    Assembles b₁ b₂ pool → (f, body) ∈ pool → Build.closeRule id f b₂ = (.ok ⟨⟩, b₃) →
    Defines b₃ (rules ++ [⟨name, signature, body⟩])

/-- A builder has defined some rules, each by the one body that was put together in it. -/
inductive DefinesExactly : Builder σ → List (RuleDefinition σ) → Prop
  | nothing : DefinesExactly {} []
  | rule {b b₁ b₂ b₃ : Builder σ} {rules : List (RuleDefinition σ)} {r : RuleDefinition σ}
    {id : RuleId} {f : Fragment} : DefinesExactly b rules →
    Build.openRule r.name r.signature b = (.ok id, b₁) → Assembles b₁ b₂ [(f, r.body)] →
    Build.closeRule id f b₂ = (.ok ⟨⟩, b₃) → DefinesExactly b₃ (rules ++ [r])

theorem DefinesExactly.defines {b : Builder σ} {rules : List (RuleDefinition σ)}
    (h : b.DefinesExactly rules) : b.Defines rules := by
  induction h with
  | nothing => exact .nothing
  | rule _ hopen hassembles hclose ih =>
    exact .rule ih hopen hassembles List.mem_cons_self hclose

/-- A transition calls the rule of a name and returns to a state. -/
def Calls (b : Builder σ) (t : Transition) (name : String) (follow : StateId) : Prop :=
  ∃ (n : Nat) (r : RuleDraft σ), t.label = .call n follow ∧ b.rules[n]? = some r ∧ r.name = name

/-- A body lies in a fragment. -/
abbrev Lies (b : Builder σ) (body : Body σ) (f : Fragment) : Prop :=
  Body.Lies b.ways b.Calls body f

variable {b b' : Builder σ} {used : List StateId} {body : Body σ} {f g : Fragment}

theorem Calls.mono (h : b.Retains b') {t : Transition} {name : String} {follow : StateId}
    (hcall : b.Calls t name follow) : b'.Calls t name follow := by
  obtain ⟨n, r, hl, hr, hname⟩ := hcall
  obtain ⟨r', hr', hname', _⟩ := h.rule n r hr
  exact ⟨n, r', hl, hr', hname'.trans hname⟩

/-- A body lies where it did if no state has lost its ways on. -/
theorem lies_of_retains {ways ways' : StateId → Option (List Transition)}
    (hretains : b.Retains b') (hways : ∀ id ts, ts ≠ [] → ways id = some ts → ways' id = some ts)
    (h : Body.Lies ways b.Calls body f) : Body.Lies ways' b'.Calls body f := by
  refine Body.Lies.map id (fun _ _ => rfl) (fun i ts hne hw => ?_)
    (fun _ _ _ hcall => hcall.mono hretains) h
  rw [List.map_id]
  exact hways i ts hne hw

theorem Lies.mono (hretains : b.Retains b')
    (hways : ∀ id ts, ts ≠ [] → b.ways id = some ts → b'.ways id = some ts)
    (h : b.Lies body f) : b'.Lies body f :=
  lies_of_retains hretains hways h

/-- A step that uses up ends only leaves the bodies where they are. -/
theorem Yields.lies (h : b.Yields b' used f) (hused : ∀ id ∈ used, b.ways id = some [])
    (hg : b.Lies body g) : b'.Lies body g := by
  refine hg.mono h.toRetains fun id ts hne hw => h.ways id ts (fun hid => ?_) hw
  rw [hused id hid] at hw
  exact hne (Option.some.inj hw).symm

/-- A step that uses up the ends of some fragments leaves the bodies in them where they are. -/
theorem Yields.lies_used {used : List (Fragment × Body σ)}
    (h : b.Yields b' ((used.map Prod.fst).map Fragment.stop) f)
    (ho : Build.AreOpen b (used.map Prod.fst)) (hused : ∀ p ∈ used, b.Lies p.2 p.1) :
    List.Forall₂ b'.Lies (used.map Prod.snd) (used.map Prod.fst) := by
  rw [List.forall₂_map_left_iff, List.forall₂_map_right_iff, List.forall₂_same]
  refine fun p hp => h.lies (fun id hid => ?_) (hused p hp)
  obtain ⟨g, hg, rfl⟩ := List.mem_map.1 hid
  exact ho.ways g hg

end Builder

namespace Build

open Builder

variable {b b' : Builder σ} {used : List (Fragment × Body σ)} {op : Build σ Fragment}
  {body : Body σ} {f : Fragment}

theorem yields_element {l : Label} (hl : body.label? = some l) (h : element l b = (.ok f, b')) :
    b.Yields b' [] f ∧ b'.Lies body f := by
  obtain ⟨hyields, hstart⟩ := element_yields h
  exact ⟨hyields, .element hl hstart⟩

/-- The body that is made lies in the fragment that is made. -/
theorem Makes.yields (h : Makes used op body) (hop : op b = (.ok f, b'))
    (ho : AreOpen b (used.map Prod.fst)) (hused : ∀ p ∈ used, b.Lies p.2 p.1) :
    b.Yields b' ((used.map Prod.fst).map Fragment.stop) f ∧ b'.Lies body f := by
  cases h with
  | token type => exact yields_element rfl hop
  | range low high => exact yields_element rfl (element_of_range hop)
  | oneOf types => exact yields_element rfl (element_of_oneOf hop)
  | noneOf types => exact yields_element rfl hop
  | wildcard => exact yields_element rfl hop
  | epsilon =>
    obtain ⟨hyields, hsame⟩ := epsilon_yields hop
    obtain ⟨start, stop⟩ := f
    obtain rfl : start = stop := hsame
    exact ⟨hyields, .epsilon⟩
  | call name =>
    obtain ⟨hyields, n, r, hr, hname, hstart⟩ := call_yields hop
    exact ⟨hyields, .call hstart ⟨n, r, rfl, hr, hname⟩⟩
  | predicate p =>
    obtain ⟨hyields, hstart⟩ := element_yields
      (b := { b with predicates := b.predicates.push p }) (l := .predicate b.predicates.size) hop
    exact ⟨hyields.of_grows (.of_eq rfl rfl fun _ h => h) rfl, .predicate hstart⟩
  | action a =>
    obtain ⟨hyields, hstart⟩ := element_yields
      (b := { b with actions := b.actions.push a }) (l := .action b.actions.size) hop
    exact ⟨hyields.of_grows (.of_eq rfl rfl fun _ h => h) rfl, .action hstart⟩
  | sequence =>
    obtain ⟨hyields, ⟨hnil, hsame⟩ | ⟨first, last, hfirst, hlast, rfl, hchained⟩⟩ :=
      sequence_yields hop ho
    · have hlies := hyields.lies_used ho hused
      rw [List.map_eq_nil_iff.1 hnil] at hlies ⊢
      obtain ⟨start, stop⟩ := f
      obtain rfl : start = stop := hsame
      exact ⟨List.map_eq_nil_iff.1 hnil ▸ hyields, .nothing⟩
    · exact ⟨hyields, .sequence (hyields.lies_used ho hused) hchained hfirst hlast⟩
  | block =>
    obtain ⟨hyields, hjoined⟩ := block_yields hop ho
    exact ⟨hyields, .block (hyields.lies_used ho hused) hjoined⟩
  | optional =>
    obtain ⟨hyields, id, hjoined⟩ := optional_yields hop ho
    exact ⟨hyields, .optional (.block
      (List.rel_append (hyields.lies_used ho hused) (.cons .epsilon .nil)) hjoined)⟩
  | star =>
    obtain ⟨hyields, body, back, hrecords, hentry, hstop, hback, _⟩ := star_yields hop ho
    exact ⟨hyields, .star (.block (hyields.lies_used ho hused) hrecords.isJoined) hentry hstop
      hback⟩
  | plus =>
    obtain ⟨hyields, body, back, hrecords, hstart, hstop, hback, _⟩ := plus_yields hop ho
    exact ⟨hyields, .plus (.block (hyields.lies_used ho hused) hrecords.isJoined) hstart hstop
      hback⟩

/-- Some of the fragments that have not been used have not been used either. -/
theorem AreOpen.of_perm {pool rest : List (Fragment × Body σ)}
    (h : AreOpen b (pool.map Prod.fst)) (hperm : (used ++ rest).Perm pool) :
    AreOpen b (used.map Prod.fst) := by
  constructor
  case ways =>
    intro g hg
    obtain ⟨p, hp, rfl⟩ := List.mem_map.1 hg
    exact h.ways _ (List.mem_map_of_mem (hperm.mem_iff.1 (List.mem_append_left rest hp)))
  case nodup =>
    have hnodup : (((used ++ rest).map Prod.fst).map Fragment.stop).Nodup :=
      ((hperm.map _).map _).nodup_iff.2 h.nodup
    rw [List.map_append, List.map_append, List.nodup_append'] at hnodup
    exact hnodup.1

end Build

namespace Builder

variable {b b₁ b₂ b' : Builder σ} {pool : List (Fragment × Body σ)} {name : String}
  {signature : Signature σ} {id : RuleId} {f : Fragment}

/-- What is left of the bodies that have been put together since a builder lies in fragments
    that are open, and what the builder had before is as it was. -/
structure Holds (b b' : Builder σ) (pool : List (Fragment × Body σ)) : Prop where
  grows : b.Grows b'
  ways : ∀ id ts, b.ways id = some ts → b'.ways id = some ts
  isOpen : Build.AreOpen b' (pool.map Prod.fst)
  fresh : ∀ p ∈ pool, b.ways p.1.stop = none
  lies : ∀ p ∈ pool, b'.Lies p.2 p.1

/-- Some of the bodies that are left lie in fragments that are open. -/
theorem Holds.of_perm {used rest : List (Fragment × Body σ)} (h : b.Holds b' pool)
    (hperm : (used ++ rest).Perm pool) :
    Build.AreOpen b' (used.map Prod.fst) ∧ ∀ p ∈ used, b'.Lies p.2 p.1 :=
  ⟨h.isOpen.of_perm hperm,
    fun p hp => h.lies p (hperm.mem_iff.1 (List.mem_append_left rest hp))⟩

theorem Assembles.holds (h : b.Assembles b' pool) : b.Holds b' pool := by
  induction h with
  | nothing => exact ⟨.refl b, fun _ _ hw => hw, ⟨nofun, List.nodup_nil⟩, nofun, nofun⟩
  | @step b₁ b₂ pool used rest f op body _ hmakes hperm hop ih =>
    have hmem (p : Fragment × Body σ) : p ∈ used ++ rest → p ∈ pool := hperm.mem_iff.1
    have hnodup : (((used ++ rest).map Prod.fst).map Fragment.stop).Nodup :=
      ((hperm.map _).map _).nodup_iff.2 ih.isOpen.nodup
    rw [List.map_append, List.map_append, List.nodup_append'] at hnodup
    obtain ⟨_, hnodup', hdisjoint⟩ := hnodup
    have hways (p : Fragment × Body σ) (hp : p ∈ pool) : b₁.ways p.1.stop = some [] :=
      ih.isOpen.ways _ (List.mem_map_of_mem hp)
    have hused (p : Fragment × Body σ) (hp : p ∈ used) : p ∈ pool :=
      hmem p (List.mem_append_left rest hp)
    have hrest (p : Fragment × Body σ) (hp : p ∈ rest) : p ∈ pool :=
      hmem p (List.mem_append_right used hp)
    have ho := ih.isOpen.of_perm hperm
    have origin {id : StateId} (hid : id ∈ (used.map Prod.fst).map Fragment.stop) :
        ∃ p ∈ pool, p.1.stop = id := by
      rw [List.map_map] at hid
      obtain ⟨p, hp, he⟩ := List.mem_map.1 hid
      exact ⟨p, hused p hp, he⟩
    obtain ⟨hyields, hlies⟩ := hmakes.yields hop ho fun p hp => ih.lies p (hused p hp)
    have hopen (p : Fragment × Body σ) (hp : p ∈ rest) : b₂.ways p.1.stop = some [] := by
      refine hyields.ways _ _ (fun hmem => hdisjoint hmem ?_) (hways p (hrest p hp))
      rw [List.map_map]
      exact List.mem_map_of_mem hp
    constructor
    case grows => exact ih.grows.trans hyields.toGrows
    case ways =>
      intro id ts hw
      refine hyields.ways id ts (fun hid => ?_) (ih.ways id ts hw)
      obtain ⟨p, hp, rfl⟩ := origin hid
      exact Build.ne_of_ways hw (ih.fresh p hp) rfl
    case isOpen =>
      constructor
      case ways =>
        intro g hg
        obtain ⟨p, hp, rfl⟩ := List.mem_map.1 hg
        rcases List.mem_cons.1 hp with rfl | hp
        · exact hyields.stop
        · exact hopen p hp
      case nodup =>
        refine List.nodup_cons.2 ⟨fun hmem => ?_, hnodup'⟩
        rcases hyields.fresh with hused | hnew
        · exact hdisjoint hused hmem
        · rw [List.map_map] at hmem
          obtain ⟨p, hp, he⟩ := List.mem_map.1 hmem
          exact Build.ne_of_ways (hways p (hrest p hp)) hnew he
    case fresh =>
      intro p hp
      rcases List.mem_cons.1 hp with rfl | hp
      · rcases hyields.fresh with hused | hnew
        · obtain ⟨q, hq, he⟩ := origin hused
          exact he ▸ ih.fresh q hq
        · exact ih.grows.eq_none hnew
      · exact ih.fresh p (hrest p hp)
    case lies =>
      intro p hp
      rcases List.mem_cons.1 hp with rfl | hp
      · exact hlies
      · refine hyields.lies (fun id hid => ?_) (ih.lies p (hrest p hp))
        obtain ⟨q, hq, rfl⟩ := origin hid
        exact hways q hq

/-- Opening a rule loses nothing, and defines no rule but the one that is opened. -/
theorem openRule_spec (h : Build.openRule name signature b = (.ok id, b')) :
    b.Retains b' ∧ (∀ id ts, b.ways id = some ts → b'.ways id = some ts) ∧
      ∃ (n : Nat) (r : RuleDraft σ) (bounds : Fragment), id = n ∧ b'.rules[n]? = some r ∧
        r.name = name ∧ r.bounds = some bounds ∧ b'.ways bounds.start = some [] ∧
        b'.IsEnd bounds.stop ∧ ∀ (m : Nat) (r' : RuleDraft σ), b'.rules[m]? = some r' →
          m = n ∨ b.rules[m]? = some r' ∨ r'.bounds = none := by
  obtain ⟨e, he⟩ | ⟨_, _, hundefined, hopen⟩ := Build.openRule_cases name signature b
  · rw [he] at h
    cases h
  rw [hopen] at h
  cases h
  obtain ⟨r, hr, hname⟩ := b.numbering_name name
  have hgrows := b.grows_numbering name
  have hways : (b.numbering name).2.ways = b.ways := by
    rw [Builder.ways, b.states_numbering name]
    rfl
  let n := (b.numbering name).1
  let c := (b.numbering name).2
  let bounds : Fragment := { start := c.states.size, stop := c.states.size + 1 }
  let opening (r : RuleDraft σ) : RuleDraft σ := { r with signature, bounds := some bounds }
  have hrules : (b.opened name signature).rules = c.rules.modify n opening := rfl
  have hways' : (b.opened name signature).ways = Function.update c.ways bounds.start (some []) :=
    (waysFrom_push_stop rfl).trans (waysFrom_push (by simp) rfl)
  have hopened : (b.opened name signature).rules[n]? = some (opening r) := by
    rw [hrules, Array.getElem?_modify, if_pos rfl, hr, Option.map_some]
  have hother (m : Nat) (hm : m ≠ n) : (b.opened name signature).rules[m]? = c.rules[m]? := by
    rw [hrules, Array.getElem?_modify, if_neg (Ne.symm hm)]
  -- First there are the states of the rule, and then it is defined by them.
  have hstates : c.Grows { b.opened name signature with rules := c.rules } :=
    (grows_push _).trans ((grows_push _).trans (.of_eq rfl rfl fun _ h => h))
  have hretains : c.Retains (b.opened name signature) :=
    hstates.toRetains.trans (retains_modifyRule n (fun _ => rfl) hundefined)
  refine ⟨hgrows.toRetains.trans hretains, fun id ts hw => ?_, n, opening r, bounds, rfl, hopened,
    hname, rfl, ?_, ?_, fun m r' hr' => ?_⟩
  · rw [← hways] at hw
    rw [hways', Function.update_of_ne (Build.ne_of_ways hw waysFrom_size), hw]
  · rw [hways', Function.update_self]
  · let start : State := { rule := n, kind := .ruleStart }
    let stop : State := { rule := n, kind := .ruleStop }
    have hlast : ((c.states.push start).push stop)[c.states.size + 1]? = some stop := by
      rw [← Array.size_push start, Array.getElem?_push_size]
    exact ⟨c.states.size + 1, stop, rfl, hlast, rfl⟩
  · by_cases hm : m = n
    · exact .inl hm
    · exact .inr (hgrows.undefined m r' ((hother m hm).symm.trans hr'))

/-- Closing a rule leads into its body and out of it. -/
theorem closeRule_spec {n : Nat} {r : RuleDraft σ} {bounds : Fragment}
    (h : Build.closeRule n f b = (.ok ⟨⟩, b')) (hr : b.rules[n]? = some r)
    (hb : r.bounds = some bounds) (hstart : b.ways bounds.start = some [])
    (hstop : b.ways f.stop = some []) (hne : f.stop ≠ bounds.start) :
    b.Grows b' ∧ b'.ways bounds.start = some [⟨f.start, .epsilon⟩] ∧
      b'.ways f.stop = some [⟨bounds.stop, .epsilon⟩] ∧
      ∀ id ts, ts ≠ [] → b.ways id = some ts → b'.ways id = some ts := by
  rw [Build.closeRule_eq (bounds_eq hr hb)] at h
  obtain ⟨b₁, h, hgrows₁, hways₁⟩ := Build.exists_of_connect_bind _ hstart h
  obtain ⟨b₂, h, hgrows₂, hways₂⟩ := Build.exists_of_connect_bind []
    (by rw [hways₁, Function.update_of_ne hne, hstop]) h
  cases h
  have hgrows₃ : b₂.Grows { b₂ with current := none } := .of_eq rfl rfl fun _ h => h
  have hways : Builder.ways { b₂ with current := none } = b₂.ways := rfl
  rw [hways, hways₂, hways₁]
  refine ⟨(hgrows₁.trans hgrows₂).trans hgrows₃, ?_, ?_, fun id ts hts hw => ?_⟩
  · simp [hne.symm]
  · simp
  · have hs : id ≠ bounds.start := by
      rintro rfl
      exact hts (Option.some.inj (hw.symm.trans hstart))
    have hf : id ≠ f.stop := by
      rintro rfl
      exact hts (Option.some.inj (hw.symm.trans hstop))
    rw [Function.update_of_ne hf, Function.update_of_ne hs, hw]

/-- From a builder to another one a rule of a name is defined, with a body that is there in the
    builder before it is closed. -/
structure DefinesRule (b b₂ b₃ : Builder σ) (name : String) (f : Fragment) (n : Nat)
    (draft : RuleDraft σ) (bounds : Fragment) : Prop where
  retains : b.Retains b₃
  ways : ∀ id ts, ts ≠ [] → b.ways id = some ts → b₃.ways id = some ts
  grows : b₂.Grows b₃
  keeps : ∀ id ts, ts ≠ [] → b₂.ways id = some ts → b₃.ways id = some ts
  rule : b₃.rules[n]? = some draft
  name : draft.name = name
  hasBounds : draft.bounds = some bounds
  isEnd : b₃.IsEnd bounds.stop
  start : b₃.ways bounds.start = some [⟨f.start, .epsilon⟩]
  stop : b₃.ways f.stop = some [⟨bounds.stop, .epsilon⟩]
  known : ∀ (m : Nat) (draft' : RuleDraft σ), b₃.rules[m]? = some draft' →
    m = n ∨ b.rules[m]? = some draft' ∨ draft'.bounds = none

theorem exists_definesRule {b₁ b₂ b₃ : Builder σ} {name : String} {signature : Signature σ}
    {id : RuleId} {pool : List (Fragment × Body σ)} {body : Body σ}
    (hopen : Build.openRule name signature b = (.ok id, b₁)) (hassembles : Assembles b₁ b₂ pool)
    (hmem : (f, body) ∈ pool) (hclose : Build.closeRule id f b₂ = (.ok ⟨⟩, b₃)) :
    ∃ n draft bounds, DefinesRule b b₂ b₃ name f n draft bounds := by
  obtain ⟨hretains, hways, n, r, bounds, rfl, hr, hname, hbounds, hstart, hend, hknown⟩ :=
    openRule_spec hopen
  have hholds := hassembles.holds
  obtain ⟨r₂, hr₂, hname₂, hbounds₂⟩ := hholds.grows.rule n r hr
  have hne : f.stop ≠ bounds.start := (Build.ne_of_ways hstart (hholds.fresh _ hmem)).symm
  obtain ⟨hgrows, hstart', hstop', hkeeps⟩ := closeRule_spec hclose hr₂ (hbounds₂ bounds hbounds)
    (hholds.ways _ _ hstart) (hholds.isOpen.ways f (List.mem_map_of_mem hmem)) hne
  obtain ⟨r₃, hr₃, hname₃, hbounds₃⟩ := hgrows.rule n r₂ hr₂
  refine ⟨n, r₃, bounds, ?_⟩
  constructor
  case retains => exact hretains.trans (hholds.grows.toRetains.trans hgrows.toRetains)
  case ways => exact fun id ts hts hw => hkeeps id ts hts (hholds.ways id ts (hways id ts hw))
  case grows => exact hgrows
  case keeps => exact hkeeps
  case rule => exact hr₃
  case name => exact (hname₃.trans hname₂).trans hname
  case hasBounds => exact hbounds₃ bounds (hbounds₂ bounds hbounds)
  case isEnd => exact hgrows.isEnd _ (hholds.grows.isEnd _ hend)
  case start => exact hstart'
  case stop => exact hstop'
  case known =>
    intro m draft' hdraft'
    rcases hgrows.undefined m draft' hdraft' with hdraft' | hnone
    · rcases hholds.grows.undefined m draft' hdraft' with hdraft' | hnone
      · exact hknown m draft' hdraft'
      · exact .inr (.inr hnone)
    · exact .inr (.inr hnone)

/-- A rule is defined, with its body between its bounds. -/
def HasRule (b : Builder σ) (r : RuleDefinition σ) : Prop :=
  ∃ (n : Nat) (draft : RuleDraft σ) (bounds f : Fragment), b.rules[n]? = some draft ∧
    draft.name = r.name ∧ draft.bounds = some bounds ∧ b.IsEnd bounds.stop ∧
    b.ways bounds.start = some [⟨f.start, .epsilon⟩] ∧ b.Lies r.body f ∧
    b.ways f.stop = some [⟨bounds.stop, .epsilon⟩]

theorem HasRule.mono {r : RuleDefinition σ} (hretains : b.Retains b')
    (hways : ∀ id ts, ts ≠ [] → b.ways id = some ts → b'.ways id = some ts) (h : b.HasRule r) :
    b'.HasRule r := by
  obtain ⟨n, draft, bounds, f, hdraft, hname, hbounds, hend, hstart, hlies, hstop⟩ := h
  obtain ⟨draft', hdraft', hname', hbounds'⟩ := hretains.rule n draft hdraft
  exact ⟨n, draft', bounds, f, hdraft', hname'.trans hname, hbounds' bounds hbounds,
    hretains.isEnd _ hend, hways _ _ (by simp) hstart, hlies.mono hretains hways,
    hways _ _ (by simp) hstop⟩

/-- The rules that are defined are some rules, with different names. -/
structure IsLaidOut (b : Builder σ) (rules : List (RuleDefinition σ)) : Prop where
  names : b.HasDistinctNames
  rule : ∀ r ∈ rules, b.HasRule r
  known : ∀ (n : Nat) (draft : RuleDraft σ), b.rules[n]? = some draft →
    draft.bounds = none ∨ ∃ r ∈ rules, r.name = draft.name

theorem Defines.isLaidOut {rules : List (RuleDefinition σ)} (h : b.Defines rules) :
    b.IsLaidOut rules := by
  induction h with
  | nothing => exact ⟨nofun, nofun, nofun⟩
  | @rule b b₁ b₂ b₃ rules name signature id pool f body _ hopen hassembles hmem hclose ih =>
    obtain ⟨n, draft, bounds, hrule⟩ := exists_definesRule hopen hassembles hmem hclose
    constructor
    case names => exact hrule.retains.names ih.names
    case rule =>
      intro r₀ hr₀
      rcases List.mem_append.1 hr₀ with hr₀ | hr₀
      · exact (ih.rule r₀ hr₀).mono hrule.retains hrule.ways
      · obtain rfl := List.mem_singleton.1 hr₀
        have hlies := (hassembles.holds.lies _ hmem).mono hrule.grows.toRetains hrule.keeps
        exact ⟨n, draft, bounds, f, hrule.rule, hrule.name, hrule.hasBounds, hrule.isEnd,
          hrule.start, hlies, hrule.stop⟩
    case known =>
      intro m draft' hdraft'
      rcases hrule.known m draft' hdraft' with rfl | hdraft' | hnone
      · cases hrule.rule.symm.trans hdraft'
        exact .inr ⟨_, List.mem_append_right _ (List.mem_singleton.2 rfl), hrule.name.symm⟩
      · exact (ih.known m draft' hdraft').imp_right fun ⟨r₀, hr₀, he⟩ =>
          ⟨r₀, List.mem_append_left _ hr₀, he⟩
      · exact .inl hnone

end Builder

/-! ## The grammar that is given -/

namespace Builder

variable {b : Builder σ}

theorem grows_numberDecisions (b : Builder σ) :
    b.Grows b.numberDecisions ∧ b.numberDecisions.ways = b.ways := by
  refine numberDecisions_keeps (P := fun c => b.Grows c ∧ c.ways = b.ways) ⟨.refl b, rfl⟩ ?_
  rintro c n ⟨hgrows, hways⟩
  let number (s : State) : State := { s with decision := some c.decisions.size }
  have hmodify : c.Grows { c with states := c.states.modify n number } :=
    grows_modify n fun _ => rfl
  have hsame : waysFrom (c.states.modify n number) = c.ways :=
    waysFrom_modify (fun _ => rfl) fun _ => rfl
  exact ⟨hgrows.trans (hmodify.trans (.of_eq rfl rfl fun _ h => h)), hsame.trans hways⟩

theorem link_eq_self {t : Transition} (h : ∀ callee follow, t.label ≠ .call callee follow) :
    b.link t = t := by
  rw [link]
  split
  · next callee follow hl => exact absurd hl (h callee follow)
  · rfl

theorem ways_grammar (b : Builder σ) (id : StateId) :
    b.grammar.ways id = (b.ways id).map (List.map b.link) := by
  obtain hlt | hge := lt_or_ge id 0
  · rw [Network.ways, ways, waysFrom_of_neg hlt, waysFrom_of_neg hlt, Option.map_none]
  · obtain ⟨n, rfl⟩ := Int.eq_ofNat_of_zero_le hge
    rw [Network.ways, ways, waysFrom_natCast, waysFrom_natCast, grammar]
    simp only [List.getElem?_toArray, List.getElem?_map, Array.getElem?_toList]
    cases b.states[n]? with
    | none => rfl
    | some s =>
      simp only [Option.map_some, Option.bind_some]
      split <;> rfl

theorem rule_grammar_of_bounds {n : Nat} {draft : RuleDraft σ} {bounds : Fragment}
    (hdraft : b.rules[n]? = some draft) (hbounds : draft.bounds = some bounds) :
    b.grammar.rule n = .ok { name := draft.name, start := bounds.start, stop := bounds.stop } := by
  obtain ⟨hn, hget⟩ := Array.getElem?_eq_some_iff.1 hdraft
  rw [b.rule_grammar hn, bounds_eq hdraft hbounds, hget]

/-- What is called in a builder that has passed the check is called in its grammar. -/
theorem Calls.grammar {t : Transition} {name : String} {follow : StateId}
    (h : b.Calls t name follow) (he : b.error? = none) :
    b.grammar.toNetwork.Calls (b.link t) name follow := by
  obtain ⟨m, callee, hl, hcallee, rfl⟩ := h
  obtain ⟨bounds, hbounds⟩ :=
    Option.isSome_iff_exists.1 ((of_error?_eq_none he).1 m callee hcallee)
  refine ⟨m, _, (b.link_label t).trans hl, rule_grammar_of_bounds hcallee hbounds, rfl, ?_⟩
  rw [link, hl]
  exact congrArg Fragment.start (bounds_eq hcallee hbounds)

theorem ways_grammar_of_some {id : StateId} {ts : List Transition} (h : b.ways id = some ts) :
    b.grammar.ways id = some (ts.map b.link) := by
  rw [ways_grammar, h, Option.map_some]

/-- In the grammar of a builder that has passed the check, bodies lie where they did. -/
theorem Lies.grammar {body : Body σ} {f : Fragment} (h : b.Lies body f) (he : b.error? = none) :
    b.grammar.toNetwork.Lies body f :=
  Body.Lies.map b.link (fun _ => link_eq_self) (fun _ _ _ => ways_grammar_of_some)
    (fun _ _ _ hcall => hcall.grammar he) h

/-- The grammar of a builder that has passed the check is laid out as the builder is. -/
theorem IsLaidOut.grammar {rules : List (RuleDefinition σ)} (h : b.IsLaidOut rules)
    (he : b.error? = none) : b.grammar.toNetwork.IsLaidOut rules := by
  obtain ⟨hdefined, _⟩ := of_error?_eq_none he
  -- Every rule of the grammar comes from one that is defined.
  have origin {id : RuleId} {rule : Rule} (hrule : b.grammar.rule id = .ok rule) :
      ∃ (n : Nat) (draft : RuleDraft σ), id = n ∧ b.rules[n]? = some draft ∧
        rule.name = draft.name := by
    obtain ⟨n, hn, rfl, rfl⟩ := rule_grammar_eq_ok hrule
    exact ⟨n, _, rfl, Array.getElem?_eq_getElem hn, rfl⟩
  constructor
  case find =>
    intro id rule hrule
    obtain ⟨n, draft, rfl, hdraft, hname⟩ := origin hrule
    refine Network.findRule?_of_distinct (fun k m r s hr hs he => ?_) hrule
    obtain ⟨k', draft, hk, hdraft, hname⟩ := origin hr
    obtain ⟨m', draft', hm, hdraft', hname'⟩ := origin hs
    rw [Int.natCast_inj.1 hk, Int.natCast_inj.1 hm]
    exact h.names k' m' draft draft' hdraft hdraft' (hname.symm.trans (he.trans hname'))
  case known =>
    intro id rule hrule
    obtain ⟨n, draft, rfl, hdraft, hname⟩ := origin hrule
    rcases h.known n draft hdraft with hnone | ⟨r, hr, he⟩
    · have hsome := hdefined n draft hdraft
      rw [hnone] at hsome
      cases hsome
    · exact ⟨r, hr, he.trans hname.symm⟩
  case rule =>
    intro r hr
    obtain ⟨n, draft, bounds, f, hdraft, hname, hbounds, ⟨k, s, hk, hs, hkind⟩, hstart, hlies,
      hstop⟩ := h.rule r hr
    exact ⟨n, _, rule_grammar_of_bounds hdraft hbounds, hname, f,
      ⟨_, state_grammar.2 ⟨k, s, hk, hs, rfl⟩, hkind⟩, ways_grammar_of_some hstart,
      hlies.grammar he, ways_grammar_of_some hstop⟩

end Builder

theorem Builder.IsLaidOut.numberDecisions {b : Builder σ} {rules : List (RuleDefinition σ)}
    (h : b.IsLaidOut rules) : b.numberDecisions.IsLaidOut rules := by
  obtain ⟨hgrows, hways⟩ := b.grows_numberDecisions
  exact ⟨hgrows.names h.names,
    fun r hr => (h.rule r hr).mono hgrows.toRetains fun id ts _ hw => hways ▸ hw,
    fun n draft hdraft => (hgrows.undefined n draft hdraft).elim (h.known n draft) .inl⟩

/-- The grammar of some rules that have been defined is laid out for them. -/
theorem Builder.Defines.isLaidOut_grammar {b : Builder σ} {rules : List (RuleDefinition σ)}
    {g : Grammar σ} (h : b.Defines rules) (hg : (Build.finish b).1 = .ok g) :
    g.toNetwork.IsLaidOut rules := by
  obtain ⟨he, rfl⟩ := finish_eq_ok hg
  exact h.isLaidOut.numberDecisions.grammar he

/-! ## Rules that are given by their bodies -/

section Rules

variable {b : Builder σ}

mutual

/-- To build a body is to put it together. -/
theorem Body.assembles_build (body : Body σ) {b₁ b₂ : Builder σ}
    {pool : List (Fragment × Body σ)} (h : b.Assembles b₁ pool) {f : Fragment}
    (hbuild : body.build b₁ = (.ok f, b₂)) : b.Assembles b₂ ((f, body) :: pool) := by
  have alone {made : Body σ} {op : Build σ Fragment} (hmakes : Build.Makes [] op made)
      (hop : op b₁ = (.ok f, b₂)) : b.Assembles b₂ ((f, made) :: pool) :=
    h.step hmakes (.refl _) hop
  have combine {made : Body σ} {bodies : List (Body σ)} (op : List Fragment → Build σ Fragment)
      (hall : ∀ {fs b'}, Body.buildAll bodies b₁ = (.ok fs, b') → ∃ parts pool',
        parts.map Prod.fst = fs ∧ parts.map Prod.snd = bodies ∧ b.Assembles b' pool' ∧
          (parts ++ pool).Perm pool')
      (hmakes : ∀ parts : List (Fragment × Body σ), parts.map Prod.snd = bodies →
        Build.Makes parts (op (parts.map Prod.fst)) made)
      (hop : (do op (← Body.buildAll bodies)) b₁ = (.ok f, b₂)) :
      b.Assembles b₂ ((f, made) :: pool) := by
    obtain ⟨fs, b', hfs, hop⟩ := exists_of_bind_apply hop
    obtain ⟨parts, pool', rfl, hbodies, hassembles, hperm⟩ := hall hfs
    exact hassembles.step (hmakes parts hbodies) hperm hop
  match body with
  | .token type => exact alone (.token type) hbuild
  | .range low high => exact alone (.range low high) hbuild
  | .oneOf types => exact alone (.oneOf types) hbuild
  | .noneOf types => exact alone (.noneOf types) hbuild
  | .wildcard => exact alone .wildcard hbuild
  | .epsilon => exact alone .epsilon hbuild
  | .call name => exact alone (.call name) hbuild
  | .predicate p => exact alone (.predicate p) hbuild
  | .action a => exact alone (.action a) hbuild
  | .sequence parts =>
    exact combine Build.sequence (Body.assembles_buildAll parts h) (fun _ he => he ▸ .sequence _)
      hbuild
  | .block parts =>
    exact combine Build.block (Body.assembles_buildAll parts h) (fun _ he => he ▸ .block _) hbuild
  | .optional parts =>
    exact combine Build.optional (Body.assembles_buildAll parts h) (fun _ he => he ▸ .optional _)
      hbuild
  | .star parts greediness =>
    exact combine (fun fs => Build.star fs greediness) (Body.assembles_buildAll parts h)
      (fun _ he => he ▸ .star _ greediness) hbuild
  | .plus parts greediness =>
    exact combine (fun fs => Build.plus fs greediness) (Body.assembles_buildAll parts h)
      (fun _ he => he ▸ .plus _ greediness) hbuild

theorem Body.assembles_buildAll (bodies : List (Body σ)) {b₁ b₂ : Builder σ}
    {pool : List (Fragment × Body σ)} (h : b.Assembles b₁ pool) {fs : List Fragment}
    (hbuild : Body.buildAll bodies b₁ = (.ok fs, b₂)) :
    ∃ parts pool', parts.map Prod.fst = fs ∧ parts.map Prod.snd = bodies ∧
      b.Assembles b₂ pool' ∧ (parts ++ pool).Perm pool' := by
  match bodies with
  | [] =>
    cases hbuild
    exact ⟨[], pool, rfl, rfl, h, .refl _⟩
  | body :: rest =>
    obtain ⟨f, b', hbody, hbuild⟩ := exists_of_bind_apply hbuild
    obtain ⟨gs, b'', hrest, hbuild⟩ := exists_of_bind_apply hbuild
    cases hbuild
    obtain ⟨parts, pool', rfl, rfl, hassembles, hperm⟩ :=
      Body.assembles_buildAll rest (Body.assembles_build body h hbody) hrest
    exact ⟨(f, body) :: parts, pool', rfl, rfl, hassembles, List.perm_middle.symm.trans hperm⟩

end

namespace Grammar

/-- To define rules by their bodies is to put these together. -/
theorem definesExactly_define (rules : List (RuleDefinition σ)) {done : List (RuleDefinition σ)}
    {b' : Builder σ} (h : b.DefinesExactly done) (hdefine : define rules b = (.ok ⟨⟩, b')) :
    b'.DefinesExactly (done ++ rules) := by
  induction rules generalizing b done with
  | nil =>
    cases hdefine
    rwa [List.append_nil]
  | cons r rest ih =>
    obtain ⟨_, b₁, hrule, hrest⟩ := exists_of_bind_apply hdefine
    obtain ⟨id, c₁, hopen, hrule⟩ := exists_of_bind_apply hrule
    obtain ⟨f, c₂, hbody, hrule⟩ := exists_of_bind_apply hrule
    obtain ⟨_, c₃, hclose, hrule⟩ := exists_of_bind_apply hrule
    cases hrule
    have hdefined := h.rule hopen (r.body.assembles_build .nothing hbody) hclose
    rw [← List.singleton_append, ← List.append_assoc]
    exact ih hdefined hrest

/-- The grammar of some rules is given by a builder that has defined them. -/
theorem exists_defines_of_ofRules {rules : List (RuleDefinition σ)} {g : Grammar σ}
    (h : ofRules rules = .ok g) :
    ∃ b : Builder σ, b.Defines rules ∧ (Build.finish b).1 = .ok g := by
  obtain ⟨b, hdefine, hfinish⟩ := exists_of_ofRules h
  exact ⟨b, (definesExactly_define rules .nothing hdefine).defines, hfinish⟩

end Grammar

end Rules

end AdaptiveLL
