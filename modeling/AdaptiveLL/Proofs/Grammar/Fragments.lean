import AdaptiveLL.Proofs.Grammar.Marks

/-!
# What the steps do to fragments

What the steps that succeed do to the ways on from the states of a builder. Each makes
a fragment with an end that nothing leads on from, and uses up the ends of the
fragments it is given; apart from these, every state keeps its ways on
(`Builder.Yields`). A loop is recorded with its body (`Build.Records`), and marks the state
that decides it by what this body was when it was made (`Build.MarksLoop`).
-/

namespace AdaptiveLL

variable {σ α : Type}

namespace Builder

variable (b : Builder σ)

/-- The ways on from a state that is not the stop of a rule. -/
def ways : StateId → Option (List Transition) :=
  waysFrom b.states

/-- A state is the stop of a rule. -/
def IsEnd (id : StateId) : Prop :=
  ∃ (n : Nat) (s : State), id = n ∧ b.states[n]? = some s ∧ s.kind = .ruleStop

/-- No two rules have the same name. -/
def HasDistinctNames : Prop :=
  ∀ (m n : Nat) (r s : RuleDraft σ), b.rules[m]? = some r → b.rules[n]? = some s →
    r.name = s.name → m = n

/-- No state is lost, no loop, and no rule, nor its name nor its bounds. -/
structure Retains (b b' : Builder σ) : Prop where
  rule : ∀ (n : Nat) (r : RuleDraft σ), b.rules[n]? = some r → ∃ r', b'.rules[n]? = some r' ∧
    r'.name = r.name ∧ ∀ bounds, r.bounds = some bounds → r'.bounds = some bounds
  names : b.HasDistinctNames → b'.HasDistinctNames
  isEnd : ∀ id, b.IsEnd id → b'.IsEnd id
  isState : ∀ id ts, b.ways id = some ts → ∃ ts', b'.ways id = some ts'
  loops : ∀ f ∈ b.loops, f ∈ b'.loops

/-- In addition, no rule has been defined. -/
structure Grows (b b' : Builder σ) : Prop extends b.Retains b' where
  undefined : ∀ (n : Nat) (r : RuleDraft σ), b'.rules[n]? = some r →
    b.rules[n]? = some r ∨ r.bounds = none

variable {b} {b₁ b₂ b' : Builder σ} {ts : List Transition}

theorem transitionsOf_of_ways {id : StateId} {ts : List Transition} (h : b.ways id = some ts) :
    transitionsOf b.states id = ts := by
  obtain ⟨n, s, rfl, hs, _, rfl⟩ := waysFrom_eq_some_iff.1 h
  rw [transitionsOf, numbered?_natCast, hs]
  rfl

theorem Retains.trans (h : b.Retains b₁) (h' : b₁.Retains b₂) : b.Retains b₂ where
  rule n r hr := by
    obtain ⟨r₁, hr₁, hname₁, hbounds₁⟩ := h.rule n r hr
    obtain ⟨r₂, hr₂, hname₂, hbounds₂⟩ := h'.rule n r₁ hr₁
    exact ⟨r₂, hr₂, hname₂.trans hname₁, fun bounds hb => hbounds₂ bounds (hbounds₁ bounds hb)⟩
  names hnames := h'.names (h.names hnames)
  isEnd id hid := h'.isEnd id (h.isEnd id hid)
  isState id ts hid := (h.isState id ts hid).elim fun ts' => h'.isState id ts'
  loops f hf := h'.loops f (h.loops f hf)

theorem Retains.eq_none (h : b.Retains b') {id : StateId} (hid : b'.ways id = none) :
    b.ways id = none := by
  by_contra hne
  obtain ⟨ts, hts⟩ := Option.ne_none_iff_exists'.1 hne
  obtain ⟨ts', hts'⟩ := h.isState id ts hts
  rw [hid] at hts'
  cases hts'

theorem Grows.of_rules (h : b'.rules = b.rules) (hend : ∀ id, b.IsEnd id → b'.IsEnd id)
    (hstate : ∀ id ts, b.ways id = some ts → ∃ ts', b'.ways id = some ts')
    (hloops : ∀ f ∈ b.loops, f ∈ b'.loops) : b.Grows b' where
  rule n r hr := ⟨r, h ▸ hr, rfl, fun _ hb => hb⟩
  names hnames := by
    rw [HasDistinctNames, h]
    exact hnames
  isEnd := hend
  isState := hstate
  loops := hloops
  undefined n r hr := .inl (h ▸ hr)

theorem Grows.of_eq (h : b'.rules = b.rules) (hs : b'.states = b.states)
    (hloops : ∀ f ∈ b.loops, f ∈ b'.loops) : b.Grows b' := by
  refine .of_rules h (fun id hid => ?_) (fun id ts hid => ⟨ts, ?_⟩) hloops
  · rwa [IsEnd, hs]
  · rwa [ways, hs]

theorem Grows.refl (b : Builder σ) : b.Grows b :=
  .of_eq rfl rfl fun _ h => h

theorem Grows.trans (h : b.Grows b₁) (h' : b₁.Grows b₂) : b.Grows b₂ where
  toRetains := h.toRetains.trans h'.toRetains
  undefined n r hr := (h'.undefined n r hr).elim (h.undefined n r) .inr

theorem grows_push (s : State) : b.Grows { b with states := b.states.push s } := by
  refine .of_rules rfl
    (fun id ⟨n, s', hid, hs, hk⟩ => ⟨n, s', hid, getElem?_push_of_some hs, hk⟩)
    (fun id ts hid => ?_) fun _ h => h
  obtain ⟨n, s', hn, hs, hk⟩ := waysFrom_eq_some_iff.1 hid
  exact ⟨ts, waysFrom_eq_some_iff.2 ⟨n, s', hn, getElem?_push_of_some hs, hk⟩⟩

theorem grows_modify (n : Nat) {f : State → State} (hf : ∀ s, (f s).kind = s.kind) :
    b.Grows { b with states := b.states.modify n f } := by
  have hold {m : Nat} {s : State} (hs : b.states[m]? = some s) :
      ∃ s', (b.states.modify n f)[m]? = some s' ∧ s'.kind = s.kind := by
    rw [Array.getElem?_modify, hs]
    split
    · exact ⟨f s, rfl, hf s⟩
    · exact ⟨s, rfl, rfl⟩
  refine .of_rules rfl (fun id ⟨m, s, hid, hs, hk⟩ => ?_) (fun id ts hid => ?_) fun _ h => h
  · obtain ⟨s', hs', hk'⟩ := hold hs
    exact ⟨m, s', hid, hs', hk'.trans hk⟩
  · obtain ⟨m, s, hm, hs, hk, _⟩ := waysFrom_eq_some_iff.1 hid
    obtain ⟨s', hs', hk'⟩ := hold hs
    exact ⟨s'.transitions, waysFrom_eq_some_iff.2 ⟨m, s', hm, hs', hk' ▸ hk, rfl⟩⟩

theorem findRule?_eq_some {name : String} {n : Nat} (h : b.findRule? name = some n) :
    ∃ r, b.rules[n]? = some r ∧ r.name = name := by
  obtain ⟨hlt, hname, _⟩ := List.findIdx?_eq_some_iff_getElem.1 h
  have hlt' : n < b.rules.size := by simpa using hlt
  refine ⟨b.rules[n], Array.getElem?_eq_getElem hlt', ?_⟩
  simpa using hname

theorem findRule?_eq_none {name : String} (h : b.findRule? name = none) {n : Nat}
    {r : RuleDraft σ} (hr : b.rules[n]? = some r) : r.name ≠ name := by
  have hnot := List.findIdx?_eq_none_iff.1 h r (Array.mem_toList_iff.2 (Array.mem_of_getElem? hr))
  simpa using hnot

/-- A rule that is numbered keeps the name that it is numbered by. -/
theorem numbering_name (b : Builder σ) (name : String) :
    ∃ r, (b.numbering name).2.rules[(b.numbering name).1]? = some r ∧ r.name = name := by
  rw [numbering]
  cases hfind : b.findRule? name with
  | some n => exact findRule?_eq_some hfind
  | none => exact ⟨{ name }, Array.getElem?_push_size, rfl⟩

theorem grows_numbering (b : Builder σ) (name : String) :
    b.Grows (b.numbering name).2 := by
  rw [numbering]
  cases hfind : b.findRule? name with
  | some n => exact .refl b
  | none =>
    refine { rule := ?rule, names := ?names, isEnd := fun _ h => h,
             isState := fun _ ts h => ⟨ts, h⟩, loops := fun _ h => h, undefined := ?undefined }
    case rule =>
      intro n r hr
      exact ⟨r, getElem?_push_of_some hr, rfl, fun _ hb => hb⟩
    case names =>
      -- The new rule has a name that no other one has.
      intro hnames m n r s hr hs hrs
      rcases getElem?_push_eq_some.1 hr with hr | ⟨hm, rfl⟩ <;>
        rcases getElem?_push_eq_some.1 hs with hs | ⟨hn, rfl⟩
      · exact hnames m n r s hr hs hrs
      · exact absurd hrs (findRule?_eq_none hfind hr)
      · exact absurd hrs.symm (findRule?_eq_none hfind hs)
      · rw [hm, hn]
    case undefined =>
      intro n r hr
      rcases getElem?_push_eq_some.1 hr with hr | ⟨_, rfl⟩
      · exact .inl hr
      · exact .inr rfl

/-- To define a rule that is not defined loses nothing. -/
theorem retains_modifyRule (n : Nat) {f : RuleDraft σ → RuleDraft σ}
    (hname : ∀ r, (f r).name = r.name) (hnone : ∀ r, b.rules[n]? = some r → r.bounds = none) :
    b.Retains { b with rules := b.rules.modify n f } := by
  have origin {m : Nat} {r' : RuleDraft σ} (hr' : (b.rules.modify n f)[m]? = some r') :
      ∃ r, b.rules[m]? = some r ∧ r.name = r'.name := by
    rw [Array.getElem?_modify] at hr'
    split at hr'
    · obtain ⟨r, hr, rfl⟩ := Option.map_eq_some_iff.1 hr'
      exact ⟨r, hr, (hname r).symm⟩
    · exact ⟨r', hr', rfl⟩
  refine { rule := ?rule, names := ?names, isEnd := fun _ h => h,
           isState := fun _ ts h => ⟨ts, h⟩, loops := fun _ h => h }
  case rule =>
    intro m r hr
    by_cases hm : n = m
    · subst hm
      refine ⟨f r, ?_, hname r, fun bounds hb => ?_⟩
      · rw [Array.getElem?_modify, if_pos rfl, hr, Option.map_some]
      · rw [hnone r hr] at hb
        cases hb
    · refine ⟨r, ?_, rfl, fun _ hb => hb⟩
      rw [Array.getElem?_modify, if_neg hm, hr]
  case names =>
    intro hnames k m r s hr hs hrs
    obtain ⟨r₀, hr₀, hrname⟩ := origin hr
    obtain ⟨s₀, hs₀, hsname⟩ := origin hs
    exact hnames k m r₀ s₀ hr₀ hs₀ (hrname.trans (hrs.trans hsname.symm))

/-- A state is added that nothing leads on from and that decides no loop. -/
structure AddsState (b : Builder σ) (id : StateId) (b' : Builder σ) : Prop where
  grows : b.Grows b'
  fresh : b.ways id = none
  ways : b'.ways = Function.update b.ways id (some [])
  unmarked : b.marks id = none
  marks : b'.marks = Function.update b.marks id (some .plain)

/-- A state is given its ways on. -/
structure AddsWay (b : Builder σ) (id : StateId) (ts : List Transition) (b' : Builder σ) :
    Prop where
  grows : b.Grows b'
  ways : b'.ways = Function.update b.ways id (some ts)
  marks : b'.marks = b.marks

end Builder

namespace Build

open Builder

variable {b b' : Builder σ} {a : α} {ts : List Transition}

theorem newState_adds {kind : StateKind} (hk : kind ≠ .ruleStop) {id : StateId}
    (h : newState kind b = (.ok id, b')) : b.AddsState id b' := by
  rw [newState, bind_apply, get_apply] at h
  dsimp only at h
  split at h
  · cases h
  · cases hc : b.current with
    | none =>
      rw [hc] at h
      cases h
    | some rule =>
      rw [hc] at h
      cases h
      have hpush := grows_push (b := b) { rule, kind }
      rw [hc] at hpush
      exact ⟨hpush, waysFrom_size, waysFrom_push hk rfl, marksFrom_size, marksFrom_push _⟩

theorem exists_of_newState_bind {kind : StateKind} (hk : kind ≠ .ruleStop)
    {f : StateId → Build σ α} (h : (newState kind >>= f) b = (.ok a, b')) :
    ∃ id b₁, f id b₁ = (.ok a, b') ∧ b.AddsState id b₁ := by
  obtain ⟨id, b₁, hnew, h⟩ := exists_of_bind_apply h
  exact ⟨id, b₁, h, newState_adds hk hnew⟩

theorem connect_adds {source target : StateId} {l : Label}
    (hs : b.ways source = some ts) (h : connect source target l b = (.ok ⟨⟩, b')) :
    b.AddsWay source (ts ++ [⟨target, l⟩]) b' := by
  obtain ⟨n, s, rfl, hn, _, _⟩ := waysFrom_eq_some_iff.1 hs
  rw [connect_eq (Array.getElem?_eq_some_iff.1 hn).1] at h
  cases h
  exact ⟨grows_modify n fun _ => rfl, waysFrom_connect _ hs, marksFrom_modify_same fun _ => rfl⟩

theorem exists_of_connect_bind (ts : List Transition) {source target : StateId} {l : Label}
    {f : Unit → Build σ α} (hs : b.ways source = some ts)
    (h : (connect source target l >>= f) b = (.ok a, b')) :
    ∃ b₁, f ⟨⟩ b₁ = (.ok a, b') ∧ b.AddsWay source (ts ++ [⟨target, l⟩]) b₁ := by
  obtain ⟨_, b₁, hconnect, h⟩ := exists_of_bind_apply h
  exact ⟨b₁, h, connect_adds hs hconnect⟩

end Build

/-- A step makes a fragment out of others, of which it uses up the ends. -/
structure Builder.Yields (b b' : Builder σ) (used : List StateId) (f : Fragment) : Prop
    extends b.Grows b' where
  ways : ∀ id ts, id ∉ used → b.ways id = some ts → b'.ways id = some ts
  stop : b'.ways f.stop = some []
  fresh : f.stop ∈ used ∨ b.ways f.stop = none

/-- A step before that keeps all states does not matter. -/
theorem Builder.Yields.of_grows {b b₁ b' : Builder σ} {used : List StateId} {f : Fragment}
    (h : b₁.Yields b' used f) (hgrows : b.Grows b₁) (hways : b₁.ways = b.ways) :
    b.Yields b' used f where
  toGrows := hgrows.trans h.toGrows
  ways := hways ▸ h.ways
  stop := h.stop
  fresh := hways ▸ h.fresh

namespace Build

open Builder Body

variable {b b' : Builder σ} {f : Fragment} {fs : List Fragment} {ts : List Transition}

theorem of_update_eq_none {w : StateId → Option (List Transition)} {i j : StateId}
    {v : List Transition} (h : Function.update w i (some v) j = none) : j ≠ i ∧ w j = none := by
  rw [Function.update_apply] at h
  split at h
  · cases h
  · next hne => exact ⟨hne, h⟩

theorem ne_of_ways {w : StateId → Option (List Transition)} {i j : StateId}
    (hi : w i = some ts) (hj : w j = none) : i ≠ j := by
  rintro rfl
  rw [hi] at hj
  cases hj

theorem epsilon_yields (h : epsilon b = (.ok f, b')) : b.Yields b' [] f ∧ f.start = f.stop := by
  obtain ⟨id, b₁, h, hgrows, hid, hways⟩ := exists_of_newState_bind (by simp) h
  cases h
  refine ⟨⟨hgrows, fun j ts _ hj => ?_, ?_, .inr hid⟩, rfl⟩
  · rw [hways, Function.update_of_ne (ne_of_ways hj hid), hj]
  · rw [hways, Function.update_self]

/-- Two new states may be joined by a transition. -/
theorem transition_yields (t : StateId → Transition)
    (h : (do
      let start ← newState .basic
      let stop ← newState .basic
      connect start (t stop).target (t stop).label
      return { start, stop } : Build σ Fragment) b = (.ok f, b')) :
    b.Yields b' [] f ∧ b'.ways f.start = some [t f.stop] := by
  obtain ⟨start, b₁, h, hgrows₁, hstart, hways₁⟩ := exists_of_newState_bind (by simp) h
  obtain ⟨stop, b₂, h, hgrows₂, hstop, hways₂⟩ := exists_of_newState_bind (by simp) h
  rw [hways₁] at hstop hways₂
  obtain ⟨hne, hstop⟩ := of_update_eq_none hstop
  obtain ⟨b₃, h, hgrows₃, hways₃⟩ := exists_of_connect_bind []
    (by rw [hways₂, Function.update_of_ne hne.symm, Function.update_self]) h
  cases h
  rw [hways₂] at hways₃
  refine ⟨⟨(hgrows₁.trans hgrows₂).trans hgrows₃, fun id ts _ hid => ?_, ?_, .inr hstop⟩, ?_⟩
  · rw [hways₃, Function.update_of_ne (ne_of_ways hid hstart),
      Function.update_of_ne (ne_of_ways hid hstop), Function.update_of_ne (ne_of_ways hid hstart),
      hid]
  · rw [hways₃, Function.update_of_ne hne, Function.update_self]
  · rw [hways₃, Function.update_self]
    rfl

theorem element_yields {l : Label} (h : element l b = (.ok f, b')) :
    b.Yields b' [] f ∧ b'.ways f.start = some [⟨f.stop, l⟩] :=
  transition_yields (fun stop => ⟨stop, l⟩) h

/-- A range that is not refused is made like any other element. -/
theorem element_of_range {low high : Int} (h : range low high b = (.ok f, b')) :
    element (.range low high) b = (.ok f, b') := by
  rw [Build.range] at h
  split at h
  · cases h
  · exact h

theorem element_of_oneOf {types : List Int} (h : oneOf types b = (.ok f, b')) :
    element (.set (Ascending.ofList types) false) b = (.ok f, b') := by
  rw [Build.oneOf] at h
  split at h
  · cases h
  · exact h

theorem call_yields {name : String} (h : call name b = (.ok f, b')) :
    b.Yields b' [] f ∧ ∃ (n : Nat) (r : RuleDraft σ), b'.rules[n]? = some r ∧ r.name = name ∧
      b'.ways f.start = some [⟨-1, .call n f.stop⟩] := by
  rw [call, bind_apply, ruleNumber_eq] at h
  obtain ⟨hyields, hstart⟩ := transition_yields
    (fun stop => ⟨-1, .call (b.numbering name).1 stop⟩) h
  obtain ⟨r, hr, hname⟩ := b.numbering_name name
  obtain ⟨r', hr', hname', _⟩ := hyields.rule _ r hr
  have hways : (b.numbering name).2.ways = b.ways := by
    rw [Builder.ways, b.states_numbering name]
    rfl
  exact ⟨hyields.of_grows (b.grows_numbering name) hways, _, r', hr', hname'.trans hname, hstart⟩

/-- Fragments that have not been used end in different states that nothing leads on from. -/
structure AreOpen (b : Builder σ) (fs : List Fragment) : Prop where
  ways : ∀ f ∈ fs, b.ways f.stop = some []
  nodup : (fs.map Fragment.stop).Nodup

variable {f g : Fragment}

theorem AreOpen.of_ways (h : AreOpen b fs) (hways : ∀ f ∈ fs, b'.ways f.stop = b.ways f.stop) :
    AreOpen b' fs where
  ways f hf := (hways f hf).trans (h.ways f hf)
  nodup := h.nodup

theorem AreOpen.tail (h : AreOpen b (f :: fs)) : AreOpen b fs where
  ways f hf := h.ways f (List.mem_cons_of_mem _ hf)
  nodup := h.nodup.of_cons

theorem AreOpen.ne (h : AreOpen b (f :: fs)) (hg : g ∈ fs) : g.stop ≠ f.stop := by
  intro he
  exact (List.nodup_cons.1 h.nodup).1 (he ▸ List.mem_map_of_mem hg)

theorem chain_spec (h : chain fs b = (.ok ⟨⟩, b')) (ho : AreOpen b fs) :
    b.Grows b' ∧ Chained b'.ways fs ∧
      ∀ id, id ∉ fs.dropLast.map Fragment.stop → b'.ways id = b.ways id := by
  induction fs generalizing b with
  | nil =>
    cases h
    exact ⟨.refl _, trivial, fun _ _ => rfl⟩
  | cons f fs ih =>
    cases fs with
    | nil =>
      cases h
      exact ⟨.refl _, trivial, fun _ _ => rfl⟩
    | cons g rest =>
      obtain ⟨b₁, h, hgrows, hways⟩ := exists_of_connect_bind _ (ho.ways f List.mem_cons_self) h
      have ho₁ : AreOpen b₁ (g :: rest) := ho.tail.of_ways fun g' hg' => by
        rw [hways, Function.update_of_ne (ho.ne hg')]
      obtain ⟨hgrows', hchained, hsame⟩ := ih h ho₁
      refine ⟨hgrows.trans hgrows', ⟨?_, hchained⟩, fun id hid => ?_⟩
      · have hnot : f.stop ∉ (g :: rest).dropLast.map Fragment.stop := fun hmem =>
          (List.nodup_cons.1 ho.nodup).1 (List.map_subset _ (List.dropLast_subset _) hmem)
        rw [hsame _ hnot, hways, Function.update_self]
        rfl
      · rw [List.dropLast_cons_cons, List.map_cons, List.mem_cons, not_or] at hid
        rw [hsame id hid.2, hways, Function.update_of_ne hid.1]

theorem branch_spec {start stop : StateId} (h : branch start stop fs b = (.ok ⟨⟩, b'))
    (ho : AreOpen b fs) (hstart : b.ways start = some ts)
    (hne : start ∉ fs.map Fragment.stop) :
    b.Grows b' ∧ b'.ways start = some (ts ++ fs.map fun f => ⟨f.start, .epsilon⟩) ∧
      (∀ f ∈ fs, b'.ways f.stop = some [⟨stop, .epsilon⟩]) ∧
      ∀ id, id ≠ start → id ∉ fs.map Fragment.stop → b'.ways id = b.ways id := by
  induction fs generalizing b ts with
  | nil =>
    cases h
    exact ⟨.refl _, by simpa using hstart, nofun, fun _ _ _ => rfl⟩
  | cons f rest ih =>
    rw [List.map_cons, List.mem_cons, not_or] at hne
    obtain ⟨b₁, h, hgrows₁, hways₁⟩ := exists_of_connect_bind _ hstart h
    have hstop : b₁.ways f.stop = some [] := by
      rw [hways₁, Function.update_of_ne (Ne.symm hne.1), ho.ways f List.mem_cons_self]
    obtain ⟨b₂, h, hgrows₂, hways₂⟩ := exists_of_connect_bind _ hstop h
    have hsame (id : StateId) (hs : id ≠ start) (hf : id ≠ f.stop) : b₂.ways id = b.ways id := by
      rw [hways₂, Function.update_of_ne hf, hways₁, Function.update_of_ne hs]
    have hrest (g : Fragment) (hg : g ∈ rest) : g.stop ≠ start := by
      rintro he
      exact hne.2 (he ▸ List.mem_map_of_mem hg)
    have ho₂ : AreOpen b₂ rest := ho.tail.of_ways fun g hg => hsame _ (hrest g hg) (ho.ne hg)
    have hstart₂ : b₂.ways start = some (ts ++ [⟨f.start, .epsilon⟩]) := by
      rw [hways₂, Function.update_of_ne hne.1, hways₁, Function.update_self]
    obtain ⟨hgrows, hways, hstops, hothers⟩ := ih h ho₂ hstart₂ hne.2
    refine ⟨(hgrows₁.trans hgrows₂).trans hgrows, ?_, fun g hg => ?_, fun id hs hid => ?_⟩
    · rw [hways, List.append_assoc]
      rfl
    · rcases List.mem_cons.1 hg with rfl | hg
      · have hnot := (List.nodup_cons.1 ho.nodup).1
        rw [hothers _ (Ne.symm hne.1) hnot, hways₂, Function.update_self]
        rfl
      · exact hstops g hg
    · rw [List.map_cons, List.mem_cons, not_or] at hid
      rw [hothers id hs hid.2, hsame id hs hid.1]

theorem sequence_yields (h : sequence fs b = (.ok f, b')) (ho : AreOpen b fs) :
    b.Yields b' (fs.map Fragment.stop) f ∧ (fs = [] ∧ f.start = f.stop ∨
      ∃ first last, fs.head? = some first ∧ fs.getLast? = some last ∧
        f = ⟨first.start, last.stop⟩ ∧ Chained b'.ways fs) := by
  cases fs with
  | nil =>
    obtain ⟨hyields, hsame⟩ := epsilon_yields h
    exact ⟨hyields, .inl ⟨rfl, hsame⟩⟩
  | cons first rest =>
    obtain ⟨last, hlast⟩ : ∃ last, (first :: rest).getLast? = some last :=
      ⟨_, List.getLast?_eq_some_getLast (List.cons_ne_nil _ _)⟩
    rw [sequence, hlast, List.head?_cons] at h
    obtain ⟨_, b₁, hchain, h⟩ := exists_of_bind_apply h
    cases h
    obtain ⟨hgrows, hchained, hsame⟩ := chain_spec hchain ho
    have hmem : last ∈ first :: rest := List.mem_of_getLast? hlast
    have hopen : b'.ways last.stop = some [] := by
      rw [hsame _ ?_, ho.ways last hmem]
      -- The last fragment ends elsewhere than the others.
      have hnodup := ho.nodup
      obtain ⟨init, hinit⟩ := List.getLast?_eq_some_iff.1 hlast
      rw [hinit, List.map_append, List.nodup_append'] at hnodup
      rw [hinit, List.dropLast_concat]
      exact fun hmem => hnodup.2.2 hmem (by simp)
    refine ⟨⟨hgrows, fun id ts hid hw => ?_, hopen, .inl (List.mem_map.2 ⟨last, hmem, rfl⟩)⟩,
      .inr ⟨first, last, rfl, hlast, rfl, hchained⟩⟩
    rw [hsame id fun hmem => hid (List.map_subset _ (List.dropLast_subset _) hmem), hw]

theorem block_yields (h : block fs b = (.ok f, b')) (ho : AreOpen b fs) :
    b.Yields b' (fs.map Fragment.stop) f ∧ IsJoined b'.ways f fs := by
  match fs with
  | [] => cases h
  | [g] =>
    cases h
    exact ⟨⟨.refl b, fun _ _ _ hw => hw, ho.ways _ List.mem_cons_self,
      .inl (by simp)⟩, rfl⟩
  | g₁ :: g₂ :: rest =>
    obtain ⟨start, b₁, h, hgrows₁, hstart, hways₁⟩ := exists_of_newState_bind (by simp) h
    obtain ⟨stop, b₂, h, hgrows₂, hstop, hways₂⟩ := exists_of_newState_bind (by simp) h
    rw [hways₁] at hstop hways₂
    obtain ⟨hne, hstop⟩ := of_update_eq_none hstop
    have hold (id : StateId) (ts : List Transition) (hid : b.ways id = some ts) :
        b₂.ways id = some ts := by
      rw [hways₂, Function.update_of_ne (ne_of_ways hid hstop),
        Function.update_of_ne (ne_of_ways hid hstart), hid]
    have hends {id : StateId} (hid : b.ways id = none) :
        id ∉ (g₁ :: g₂ :: rest).map Fragment.stop := by
      intro hmem
      obtain ⟨g, hg, rfl⟩ := List.mem_map.1 hmem
      exact ne_of_ways (ho.ways g hg) hid rfl
    obtain ⟨_, b₃, hbranch, h⟩ := exists_of_bind_apply h
    have ho₂ : AreOpen b₂ (g₁ :: g₂ :: rest) :=
      ho.of_ways fun g hg => (hold _ _ (ho.ways g hg)).trans (ho.ways g hg).symm
    have hstart₂ : b₂.ways start = some [] := by
      rw [hways₂, Function.update_of_ne hne.symm, Function.update_self]
    obtain ⟨hgrows₃, hways, hstops, hothers⟩ := branch_spec hbranch ho₂ hstart₂ (hends hstart)
    cases h
    refine ⟨⟨(hgrows₁.trans hgrows₂).trans hgrows₃, fun id ts hid hw => ?_, ?_, .inr hstop⟩,
      hways, hstops⟩
    · rw [hothers id (ne_of_ways hw hstart) hid, hold id ts hw]
    · rw [hothers stop hne (hends hstop), hways₂, Function.update_self]

theorem optional_yields (h : optional fs b = (.ok f, b')) (ho : AreOpen b fs) :
    b.Yields b' (fs.map Fragment.stop) f ∧ ∃ id, IsJoined b'.ways f (fs ++ [⟨id, id⟩]) := by
  obtain ⟨e, b₁, hempty, h⟩ := exists_of_bind_apply h
  obtain ⟨hyields₁, hsame⟩ := epsilon_yields hempty
  have hfresh : b.ways e.stop = none := hyields₁.fresh.resolve_left List.not_mem_nil
  have hold (id : StateId) (ts : List Transition) (hid : b.ways id = some ts) :
      b₁.ways id = some ts := hyields₁.ways id ts List.not_mem_nil hid
  have ho₁ : AreOpen b₁ (fs ++ [e]) := by
    constructor
    case ways =>
      intro g hg
      rcases List.mem_append.1 hg with hg | hg
      · exact hold _ _ (ho.ways g hg)
      · rw [List.mem_singleton.1 hg]
        exact hyields₁.stop
    case nodup =>
      rw [List.map_append, List.nodup_append']
      refine ⟨ho.nodup, List.nodup_singleton _, fun id hid he => ?_⟩
      obtain ⟨g, hg, rfl⟩ := List.mem_map.1 hid
      exact ne_of_ways (ho.ways g hg) hfresh (List.mem_singleton.1 he)
  obtain ⟨hyields₂, hjoined⟩ := block_yields h ho₁
  obtain ⟨start, stop⟩ := e
  obtain rfl : start = stop := hsame
  refine ⟨⟨hyields₁.toGrows.trans hyields₂.toGrows, fun id ts hid hw => ?_,
    hyields₂.stop, ?_⟩, start, hjoined⟩
  · refine hyields₂.ways id ts (fun hmem => ?_) (hold id ts hw)
    rw [List.map_append, List.mem_append] at hmem
    exact hmem.elim hid fun he => ne_of_ways hw hfresh (List.mem_singleton.1 he)
  · rcases hyields₂.fresh with hmem | hnew
    · rw [List.map_append, List.mem_append] at hmem
      exact hmem.imp_right fun he => (congrArg b.ways (List.mem_singleton.1 he)).trans hfresh
    · exact .inr (hyields₁.eq_none hnew)

theorem exists_block_of_loopBody {greediness : Greediness} {body : Fragment} {nonGreedy : Bool}
    (h : loopBody fs greediness b = (.ok (body, nonGreedy), b')) :
    ∃ c, block fs b = (.ok body, c) ∧ nonGreedy = isNonGreedy c.states body greediness ∧
      b' = { c with loops := c.loops ++ [body] } := by
  obtain ⟨f, c, hblock, h⟩ := exists_of_bind_apply h
  rw [bind_apply, get_apply] at h
  dsimp only at h
  cases herror : c.loopError? [] f with
  | some error =>
    rw [herror] at h
    cases h
  | none =>
    rw [herror] at h
    cases h
    exact ⟨c, hblock, rfl, rfl⟩

theorem loopBody_yields {greediness : Greediness} {body : Fragment} {nonGreedy : Bool}
    (h : loopBody fs greediness b = (.ok (body, nonGreedy), b')) (ho : AreOpen b fs) :
    b.Yields b' (fs.map Fragment.stop) body ∧ IsJoined b'.ways body fs ∧
      b'.loops = b.loops ++ [body] := by
  obtain ⟨c, hblock, _, rfl⟩ := exists_block_of_loopBody h
  obtain ⟨hyields, hjoined⟩ := block_yields hblock ho
  have hloops := ((block_obeys ignoresLoops_isFrame fs).of_ok hblock).1
  have hgrows : c.Grows { c with loops := c.loops ++ [body] } :=
    .of_eq rfl rfl fun _ h => List.mem_append_left _ h
  exact ⟨⟨hyields.toGrows.trans hgrows, hyields.ways, hyields.stop, hyields.fresh⟩, hjoined,
    congrArg (· ++ [body]) hloops⟩

/-- A loop is recorded with a body that is one of some alternatives, whatever leads on from
    the end of the body. -/
structure Records (b b' : Builder σ) (fs : List Fragment) (body : Fragment) : Prop where
  loops : b'.loops = b.loops ++ [body]
  joined : IsJoined (Function.update b'.ways body.stop (some [])) body fs
  bare : ∀ ts, b.ways body.stop = some ts → ts = []

theorem of_update_nil {w : StateId → Option (List Transition)} {i j : StateId} (hne : ts ≠ [])
    (h : Function.update w i (some []) j = some ts) : w j = some ts := by
  rw [Function.update_apply] at h
  split at h
  · exact absurd (Option.some.inj h).symm hne
  · exact h

theorem Records.isJoined {body : Fragment} (h : Records b b' fs body) :
    IsJoined b'.ways body fs :=
  h.joined.map fun _ _ hne _ => of_update_nil hne

theorem Records.mem {body : Fragment} (h : Records b b' fs body) : body ∈ b'.loops :=
  h.loops ▸ List.mem_append_right _ List.mem_cons_self

/-- A loop is made out of a body that is made first, as what was made then says whether the loop
    is left as early as possible. A new state decides it; no other one is marked. -/
def MarksLoop (b b' : Builder σ) (fs : List Fragment) (greediness : Greediness)
    (body : Fragment) (decision : StateId) : Prop :=
  ∃ c, block fs b = (.ok body, c) ∧ c.KeepsMarks b' ∧
    b'.marks decision = some (.loop (isNonGreedy c.states body greediness))

/-- A state that is new when the body of a loop is made may be marked to decide the loop. -/
theorem exists_of_markLoop_bind {b₁ : Builder σ} {greediness : Greediness} {body : Fragment}
    {nonGreedy : Bool} {state : StateId} {m : Mark} {k : Unit → Build σ α} {a : α}
    (hbody : loopBody fs greediness b = (.ok (body, nonGreedy), b₁)) (hkeeps : b₁.KeepsMarks b₂)
    (hnew : b₁.marks state = none) (hstate : b₂.marks state = some m)
    (h : (markLoop state nonGreedy >>= k) b₂ = (.ok a, b')) :
    ∃ b₃, k ⟨⟩ b₃ = (.ok a, b') ∧ b₂.Grows b₃ ∧ b₃.ways = b₂.ways ∧
      MarksLoop b b₃ fs greediness body state := by
  obtain ⟨c, hblock, rfl, rfl⟩ := exists_block_of_loopBody hbody
  refine ⟨_, h, grows_modify state.toNat fun _ => rfl,
    waysFrom_modify (fun _ => rfl) fun _ => rfl, c, hblock,
    hkeeps.update hnew (marksFrom_loop _ hstate), ?_⟩
  exact (congrFun (marksFrom_loop _ hstate) state).trans (Function.update_self ..)

/-- A step that makes a loop of a body leaves everything but the end of the body as it was. -/
theorem loop_yields {b₁ : Builder σ} {greediness : Greediness} {op : Build σ Fragment}
    {body : Fragment} {nonGreedy : Bool} (hloop : IsLoop fs greediness op)
    (h : op b = (.ok f, b')) (ho : AreOpen b fs)
    (hbody : loopBody fs greediness b = (.ok (body, nonGreedy), b₁)) (hgrows : b₁.Grows b')
    (hsame : ∀ id ts, id ≠ body.stop → b₁.ways id = some ts → b'.ways id = some ts)
    (hexit : b₁.ways f.stop = none) (hopen : b'.ways f.stop = some []) :
    b.Yields b' (fs.map Fragment.stop) f ∧ Records b b' fs body := by
  obtain ⟨hyields, hjoined, hloops⟩ := loopBody_yields hbody ho
  constructor
  · refine ⟨hyields.toGrows.trans hgrows, fun id ts hid hw => ?_, hopen,
      .inr (hyields.eq_none hexit)⟩
    refine hsame id ts ?_ (hyields.ways id ts hid hw)
    rintro rfl
    exact hyields.fresh.elim hid fun hnone => ne_of_ways hw hnone rfl
  constructor
  case loops =>
    obtain ⟨rest, rfl, hrest⟩ := hloop.exists_rest ignoresLoops_isFrame ignoresLoops_isMarkFrame
    rw [bind_apply, hbody] at h
    rw [((hrest _).of_ok h).1, hloops]
  case joined =>
    refine hjoined.map fun id ts hne _ hw => ?_
    have hid : id ≠ body.stop := by
      rintro rfl
      rw [hyields.stop] at hw
      exact hne (Option.some.inj hw).symm
    rw [Function.update_of_ne hid, hsame id ts hid hw]
  case bare =>
    intro ts hts
    obtain hused | hnone := hyields.fresh
    · obtain ⟨g, hg, he⟩ := List.mem_map.1 hused
      rw [← he, ho.ways g hg] at hts
      exact (Option.some.inj hts).symm
    · rw [hnone] at hts
      cases hts

/-- A loop leads from its entry to the body or out of it, and from the end of the body back to
    the entry. -/
theorem star_yields {greediness : Greediness} (h : star fs greediness b = (.ok f, b'))
    (ho : AreOpen b fs) : b.Yields b' (fs.map Fragment.stop) f ∧ ∃ body back,
      Records b b' fs body ∧
      b'.ways f.start = some [⟨body.start, .epsilon⟩, ⟨f.stop, .epsilon⟩] ∧
      b'.ways body.stop = some [⟨back, .epsilon⟩] ∧
      b'.ways back = some [⟨f.start, .epsilon⟩] ∧ MarksLoop b b' fs greediness body f.start := by
  have hstar := h
  obtain ⟨⟨body, nonGreedy⟩, b₁, hbody, h⟩ := exists_of_bind_apply h
  have hstop := (loopBody_yields hbody ho).1.stop
  obtain ⟨entry, b₂, h, hgrows₂, hentry, hways₂, hnew₂, hmarks₂⟩ :=
    exists_of_newState_bind (by simp) h
  obtain ⟨back, b₃, h, hgrows₃, hback, hways₃, hnew₃, hmarks₃⟩ :=
    exists_of_newState_bind (by simp) h
  obtain ⟨exit, b₄, h, hgrows₄, hexit, hways₄, hnew₄, hmarks₄⟩ :=
    exists_of_newState_bind (by simp) h
  rw [hways₂] at hback hways₃
  rw [hways₃] at hexit hways₄
  -- The new states differ from each other and from the end of the body.
  obtain ⟨hbe, hback⟩ := of_update_eq_none hback
  obtain ⟨hxb, hexit⟩ := of_update_eq_none hexit
  obtain ⟨hxe, hexit⟩ := of_update_eq_none hexit
  have hse := ne_of_ways hstop hentry
  have hsb := ne_of_ways hstop hback
  have hsx := ne_of_ways hstop hexit
  obtain ⟨b₅, h, hgrows₅, hways₅, hmarks₅⟩ := exists_of_connect_bind []
    (by simp [hways₄, hbe.symm, hxe.symm]) h
  obtain ⟨b₆, h, hgrows₆, hways₆, hmarks₆⟩ := exists_of_connect_bind _
    (by rw [hways₅, Function.update_self]) h
  obtain ⟨b₇, h, hgrows₇, hways₇, hmarks₇⟩ := exists_of_connect_bind []
    (by simp [hways₆, hways₅, hways₄, hse, hsb, hsx, hstop]) h
  obtain ⟨b₈, h, hgrows₈, hways₈, hmarks₈⟩ := exists_of_connect_bind []
    (by simp [hways₇, hways₆, hways₅, hways₄, hbe, hxb.symm, hsb.symm]) h
  have hkeeps₃ : b₂.KeepsMarks b₃ := (KeepsMarks.of_eq rfl).update hnew₃ hmarks₃
  have hkeeps₄ : b₂.KeepsMarks b₄ := hkeeps₃.trans <| (KeepsMarks.of_eq rfl).update hnew₄ hmarks₄
  have hkeeps₈ : b₂.KeepsMarks b₈ :=
    hkeeps₄.trans (.of_eq (by rw [hmarks₈, hmarks₇, hmarks₆, hmarks₅]))
  obtain ⟨b₉, h, hgrows₉, hways₉, hmarksLoop⟩ := exists_of_markLoop_bind hbody
    (((KeepsMarks.of_eq rfl).update hnew₂ hmarks₂).trans hkeeps₈) hnew₂
    (hkeeps₈ entry .plain (by rw [hmarks₂, Function.update_self])) h
  cases h
  have hgrows := (hgrows₂.trans hgrows₃).trans <| hgrows₄.trans <| hgrows₅.trans <|
    hgrows₆.trans <| hgrows₇.trans <| hgrows₈.trans hgrows₉
  have hways := hways₉.trans hways₈
  rw [hways₇, hways₆, hways₅, hways₄] at hways
  obtain ⟨hyields, hrecords⟩ := loop_yields .star hstar ho hbody hgrows (fun id ts hne hw => by
      simp [hways, hne, ne_of_ways hw hentry, ne_of_ways hw hback, ne_of_ways hw hexit, hw]) hexit
    (by simp [hways, hxb, hxe, hsx.symm])
  refine ⟨hyields, body, back, hrecords, ?_, ?_, ?_, hmarksLoop⟩
  · simp [hways, hbe.symm, hse.symm]
  · simp [hways, hsb]
  · simp [hways]

theorem plus_yields {greediness : Greediness} (h : plus fs greediness b = (.ok f, b'))
    (ho : AreOpen b fs) : b.Yields b' (fs.map Fragment.stop) f ∧ ∃ body back,
      Records b b' fs body ∧ f.start = body.start ∧
      b'.ways body.stop = some [⟨back, .epsilon⟩] ∧
      b'.ways back = some [⟨body.start, .epsilon⟩, ⟨f.stop, .epsilon⟩] ∧
      MarksLoop b b' fs greediness body back := by
  have hplus := h
  obtain ⟨⟨body, nonGreedy⟩, b₁, hbody, h⟩ := exists_of_bind_apply h
  have hstop := (loopBody_yields hbody ho).1.stop
  obtain ⟨back, b₂, h, hgrows₂, hback, hways₂, hnew₂, hmarks₂⟩ :=
    exists_of_newState_bind (by simp) h
  obtain ⟨exit, b₃, h, hgrows₃, hexit, hways₃, hnew₃, hmarks₃⟩ :=
    exists_of_newState_bind (by simp) h
  rw [hways₂] at hexit hways₃
  obtain ⟨hxb, hexit⟩ := of_update_eq_none hexit
  have hsb := ne_of_ways hstop hback
  have hsx := ne_of_ways hstop hexit
  obtain ⟨b₄, h, hgrows₄, hways₄, hmarks₄⟩ := exists_of_connect_bind []
    (by simp [hways₃, hsb, hsx, hstop]) h
  obtain ⟨b₅, h, hgrows₅, hways₅, hmarks₅⟩ := exists_of_connect_bind []
    (by simp [hways₄, hways₃, hxb.symm, hsb.symm]) h
  obtain ⟨b₆, h, hgrows₆, hways₆, hmarks₆⟩ := exists_of_connect_bind _
    (by rw [hways₅, Function.update_self]) h
  have hkeeps₃ : b₂.KeepsMarks b₃ := (KeepsMarks.of_eq rfl).update hnew₃ hmarks₃
  have hkeeps₆ : b₂.KeepsMarks b₆ := hkeeps₃.trans (.of_eq (by rw [hmarks₆, hmarks₅, hmarks₄]))
  obtain ⟨b₇, h, hgrows₇, hways₇, hmarksLoop⟩ := exists_of_markLoop_bind hbody
    (((KeepsMarks.of_eq rfl).update hnew₂ hmarks₂).trans hkeeps₆) hnew₂
    (hkeeps₆ back .plain (by rw [hmarks₂, Function.update_self])) h
  cases h
  have hgrows := (hgrows₂.trans hgrows₃).trans <| hgrows₄.trans <| hgrows₅.trans <|
    hgrows₆.trans hgrows₇
  have hways := hways₇.trans hways₆
  rw [hways₅, hways₄, hways₃] at hways
  obtain ⟨hyields, hrecords⟩ := loop_yields .plus hplus ho hbody hgrows (fun id ts hne hw => by
      simp [hways, hne, ne_of_ways hw hback, ne_of_ways hw hexit, hw]) hexit
    (by simp [hways, hxb, hsx.symm])
  refine ⟨hyields, body, back, hrecords, rfl, ?_, ?_, hmarksLoop⟩
  · simp [hways, hsb]
  · simp [hways]

end Build

end AdaptiveLL
