import AdaptiveLL.Proofs.Grammar.Assembly
import AdaptiveLL.Proofs.Grammar.Composition

/-!
# Grammars whose rules are complete

Whoever builds a grammar uses fragments that calls on the builder have returned, as often
and in whatever rules (`Session`). Any call may fail, and others may follow; a rule whose
body fails stays open, and no grammar is given from then on.

So a grammar that is given is *whole* (`Grammar.IsWhole`): its transitions lead to states
that exist, its calls to the rules that they name, and each rule is one whose definition
has returned (`Session.isWhole_of_finish`). While the grammar is built, every state that a
transition or a fragment refers to exists (`Builder.IsClosed`).
-/

namespace AdaptiveLL

variable {σ : Type}

/-- What the calls on a builder have come to. -/
structure Session (σ : Type) where
  builder : Builder σ := {}
  /-- The fragments that have been returned. -/
  fragments : List Fragment := []
  /-- The rules whose definitions have returned, by name and number. -/
  defined : List (String × RuleId) := []
  /-- The names of the rules whose bodies have failed. -/
  broken : List String := []

namespace Session

/-- The session after a step, whose fragment is at hand from then on if it succeeds. -/
def after (s : Session σ) (op : Build σ Fragment) : Session σ :=
  { s with
    builder := (op s.builder).2
    fragments := (op s.builder).1.toOption.toList ++ s.fragments }

/-- The session at the end of the definition of a rule, whose body has been looked at. -/
def ended (s : Session σ) (name : String) (result : Except BuildError RuleId × Builder σ) :
    Session σ :=
  match result.1 with
  | .ok id => { s with builder := result.2, defined := (name, id) :: s.defined }
  | .error _ => { s with builder := result.2, broken := name :: s.broken }

/-- The session after a grammar has been asked for. -/
def asked (s : Session σ) : Session σ :=
  { s with builder := (Build.finish s.builder).2 }

/-- The sessions that calls lead to from a session, whether they succeed or fail. The body of
    a rule makes calls itself, and returns a fragment at hand or fails; it is not looked at
    where the rule cannot be opened. -/
inductive LeadsTo : Session σ → Session σ → Prop
  | refl (s : Session σ) : LeadsTo s s
  | step {s t : Session σ} {op : Build σ Fragment} : LeadsTo s t →
    Build.IsStepOn t.fragments op → LeadsTo s (t.after op)
  | refused {s t : Session σ} {name : String} {signature : Signature σ} {body : Build σ Fragment}
    {e : BuildError} {b : Builder σ} : LeadsTo s t →
    Build.openRule name signature t.builder = (.error e, b) →
    LeadsTo s { t with builder := (Build.rule name signature body t.builder).2 }
  | rule {s t u : Session σ} {name : String} {signature : Signature σ} {body : Build σ Fragment}
    {id : RuleId} {b : Builder σ} : LeadsTo s t →
    Build.openRule name signature t.builder = (.ok id, b) →
    LeadsTo { t with builder := b } u → (body b).2 = u.builder →
    (∀ f, (body b).1 = .ok f → f ∈ u.fragments) →
    LeadsTo s (u.ended name (Build.rule name signature body t.builder))
  | finish {s t : Session σ} : LeadsTo s t →
    LeadsTo s t.asked

/-- The session after the definition of a rule whose body is a single step. -/
def withRule (s : Session σ) (name : String) (op : Build σ Fragment) : Session σ :=
  ({ s with builder := (Build.openRule name {} s.builder).2 }.after op).ended name
    (Build.rule name {} op s.builder)

theorem LeadsTo.withRule {s t : Session σ} (h : s.LeadsTo t) {name : String}
    {op : Build σ Fragment} {id : RuleId}
    (ho : (Build.openRule name {} t.builder).1.toOption = some id)
    (hop : Build.IsStepOn t.fragments op) : s.LeadsTo (t.withRule name op) := by
  rw [Session.withRule]
  rcases hopen : Build.openRule name {} t.builder with ⟨e | id, b⟩ <;> rw [hopen] at ho <;> cases ho
  refine h.rule hopen (.step (.refl _) hop) rfl fun f hf => ?_
  rw [after]
  dsimp only
  rw [hf]
  exact List.mem_cons_self

end Session

/-! ## What is kept while a grammar is built -/

namespace Builder

/-- A state exists. -/
def HasState (b : Builder σ) (id : StateId) : Prop :=
  ∃ (n : Nat) (s : State), id = n ∧ b.states[n]? = some s

/-- A state belongs to a rule and is of some kind. -/
def IsBound (b : Builder σ) (rule : RuleId) (kind : StateKind) (id : StateId) : Prop :=
  ∃ (n : Nat) (s : State), id = n ∧ b.states[n]? = some s ∧ s.rule = rule ∧ s.kind = kind

/-- The states at hand exist, and so do those that transitions lead to within their rules.
    A rule that is defined has a start and a stop of its own. -/
structure IsClosed (own : List StateId) (b : Builder σ) : Prop where
  own : ∀ id ∈ own, b.HasState id
  inner : ∀ (n : Nat) (s : State), b.states[n]? = some s → ∀ t ∈ s.transitions,
    b.HasState (Fragment.innerStep t)
  exitAlt : ∀ (n : Nat) (s : State), b.states[n]? = some s → 0 ≤ s.exitAlt
  bounds : ∀ (n : Nat) (r : RuleDraft σ) (f : Fragment), b.rules[n]? = some r →
    r.bounds = some f → b.IsBound n .ruleStart f.start ∧ b.IsBound n .ruleStop f.stop

/-- The states of one builder are there in another one, in their rules and of their kinds. -/
def Preserves (b b' : Builder σ) : Prop :=
  ∀ (n : Nat) (s : State), b.states[n]? = some s →
    ∃ s', b'.states[n]? = some s' ∧ s'.rule = s.rule ∧ s'.kind = s.kind

variable {b b' : Builder σ} {own : List StateId}

theorem HasState.mono {id : StateId} (hid : b.HasState id) (h : b.Preserves b') :
    b'.HasState id := by
  obtain ⟨n, s, rfl, hs⟩ := hid
  obtain ⟨s', hs', _⟩ := h n s hs
  exact ⟨n, s', rfl, hs'⟩

theorem IsBound.mono {rule : RuleId} {kind : StateKind} {id : StateId}
    (hid : b.IsBound rule kind id) (h : b.Preserves b') : b'.IsBound rule kind id := by
  obtain ⟨n, s, rfl, hs, rfl, rfl⟩ := hid
  obtain ⟨s', hs', hrule, hkind⟩ := h n s hs
  exact ⟨n, s', rfl, hs', hrule, hkind⟩

theorem IsBound.hasState {rule : RuleId} {kind : StateKind} {id : StateId}
    (h : b.IsBound rule kind id) : b.HasState id := by
  obtain ⟨n, s, hid, hs, _⟩ := h
  exact ⟨n, s, hid, hs⟩

theorem preserves_push (s : State) : b.Preserves { b with states := b.states.push s } := by
  intro n s' hs
  exact ⟨s', getElem?_push_of_some hs, rfl, rfl⟩

namespace IsClosed

/-- Where the states stay, or new ones have no ways on, and no rule is defined, what refers to
    a state still does. -/
theorem of_preserves (h : b.IsClosed own) (hb : b.Preserves b')
    (horigin : ∀ (n : Nat) (s : State), b'.states[n]? = some s → 0 ≤ s.exitAlt ∧
      ∀ t ∈ s.transitions, b'.HasState (Fragment.innerStep t))
    (hrules : ∀ (n : Nat) (r : RuleDraft σ), b'.rules[n]? = some r →
      b.rules[n]? = some r ∨ r.bounds = none) : b'.IsClosed own where
  own id hid := (h.own id hid).mono hb
  inner n s hs := (horigin n s hs).2
  exitAlt n s hs := (horigin n s hs).1
  bounds n r f hr hf := by
    rcases hrules n r hr with hr | hr
    · exact (h.bounds n r f hr hf).imp (·.mono hb) (·.mono hb)
    · rw [hr] at hf
      cases hf

/-- Where the states stay, nothing changes. -/
theorem of_states (h : b.IsClosed own) (hs : b'.states = b.states)
    (hrules : ∀ (n : Nat) (r : RuleDraft σ), b'.rules[n]? = some r →
      b.rules[n]? = some r ∨ r.bounds = none) : b'.IsClosed own := by
  have hb : b.Preserves b' := fun n s hn => ⟨s, hs ▸ hn, rfl, rfl⟩
  refine h.of_preserves hb (fun n s hn => ?_) hrules
  rw [hs] at hn
  exact ⟨h.exitAlt n s hn, fun t ht => (h.inner n s hn t ht).mono hb⟩

/-- A new state without ways on is at hand then. -/
theorem push (h : b.IsClosed own) (rule : RuleId) (kind : StateKind) :
    { b with states := b.states.push { rule, kind } }.IsClosed
      ((b.states.size : Int) :: own) := by
  have hb := preserves_push (b := b) { rule, kind }
  have hpush : { b with states := b.states.push { rule, kind } }.IsClosed own := by
    refine h.of_preserves hb (fun n s hs => ?_) fun _ _ hr => .inl hr
    rcases getElem?_push_eq_some.1 hs with hs | ⟨_, rfl⟩
    · exact ⟨h.exitAlt n s hs, fun t ht => (h.inner n s hs t ht).mono hb⟩
    · exact ⟨le_rfl, nofun⟩
  refine ⟨fun id hid => ?_, hpush.inner, hpush.exitAlt, hpush.bounds⟩
  rcases List.mem_cons.1 hid with rfl | hid
  · exact ⟨_, _, rfl, Array.getElem?_push_size⟩
  · exact hpush.own id hid

/-- A change of one state that keeps its rule and its kind, and adds transitions only that
    lead to states that exist. -/
theorem modify (h : b.IsClosed own) (id : Nat) {f : State → State} (decisions : Array StateId)
    (hrule : ∀ s, (f s).rule = s.rule) (hkind : ∀ s, (f s).kind = s.kind)
    (hexit : ∀ s, 0 ≤ s.exitAlt → 0 ≤ (f s).exitAlt)
    (hinner : ∀ s, ∀ t ∈ (f s).transitions, t ∈ s.transitions ∨
      b.HasState (Fragment.innerStep t)) :
    { b with states := b.states.modify id f, decisions }.IsClosed own := by
  have hb : b.Preserves { b with states := b.states.modify id f, decisions } := by
    intro n s hs
    rw [Array.getElem?_modify, hs]
    split
    · exact ⟨f s, rfl, hrule s, hkind s⟩
    · exact ⟨s, rfl, rfl, rfl⟩
  refine h.of_preserves hb (fun n s hs => ?_) fun _ _ hr => .inl hr
  rw [Array.getElem?_modify] at hs
  split at hs
  · obtain ⟨s₀, hs₀, rfl⟩ := Option.map_eq_some_iff.1 hs
    refine ⟨hexit s₀ (h.exitAlt n s₀ hs₀), fun t ht => ?_⟩
    exact ((hinner s₀ t ht).elim (h.inner n s₀ hs₀ t) fun ht => ht).mono hb
  · exact ⟨h.exitAlt n s hs, fun t ht => (h.inner n s hs t ht).mono hb⟩

/-- Every change keeps a builder closed that is made where fragments are put together. -/
theorem law : Law (IsClosed (σ := σ)) where
  weaken h hsub := ⟨fun id hid => h.own id (hsub hid), h.inner, h.exitAlt, h.bounds⟩
  state h _ _ := h.push _ _
  connect {own b n t} h _ htarget := by
    refine h.modify n b.decisions (fun _ => rfl) (fun _ => rfl) (fun _ he => he) fun s t' ht' => ?_
    rcases List.mem_append.1 ht' with ht' | ht'
    · exact .inl ht'
    · rw [List.mem_singleton.1 ht']
      exact .inr (h.own _ htarget)
  mark {own b n nonGreedy} h :=
    h.modify n b.decisions (fun _ => rfl) (fun _ => rfl) (fun _ _ => Int.natCast_nonneg 2)
      fun _ _ ht => .inl ht
  number {own b} name h := h.of_states (b.states_numbering name) (b.grows_numbering name).undefined
  loop h := h.of_states rfl fun _ _ hr => .inl hr
  predicate h := h.of_states rfl fun _ _ hr => .inl hr
  action h := h.of_states rfl fun _ _ hr => .inl hr

theorem numberDecisions (h : b.IsClosed own) : b.numberDecisions.IsClosed own :=
  numberDecisions_keeps h fun _ n hc =>
    hc.modify n _ (fun _ => rfl) (fun _ => rfl) (fun _ he => he) fun _ _ ht => .inl ht

/-- A rule that is opened has a start and a stop of its own. -/
theorem opened (h : b.IsClosed own) (name : String) (signature : Signature σ) :
    (b.opened name signature).IsClosed own := by
  have hlt := b.numbering_lt name
  replace h := law.number name h
  rw [Builder.opened]
  generalize b.numbering name = numbered at hlt h ⊢
  obtain ⟨k, b⟩ := numbered
  dsimp only at hlt h ⊢
  let start : State := { rule := k, kind := .ruleStart }
  let stop : State := { rule := k, kind := .ruleStop }
  let b₁ : Builder σ := { b with states := b.states.push start }
  let b₂ : Builder σ := { b₁ with states := b₁.states.push stop }
  have h₂ : b₂.IsClosed own :=
    law.weaken ((h.push k .ruleStart).push k .ruleStop)
      (List.subset_cons_of_subset _ (List.subset_cons_self _ _))
  have hstart : b₂.IsBound k .ruleStart b.states.size :=
    IsBound.mono (b := b₁) ⟨_, start, rfl, Array.getElem?_push_size, rfl, rfl⟩ (preserves_push stop)
  have hstop : b₂.IsBound k .ruleStop (b.states.size + 1 : Nat) :=
    ⟨_, stop, rfl, Array.size_push start ▸ Array.getElem?_push_size, rfl, rfl⟩
  refine ⟨h₂.own, h₂.inner, h₂.exitAlt, fun n r f hr hf => ?_⟩
  rw [Array.getElem?_modify] at hr
  split at hr
  · next hk =>
    subst hk
    obtain ⟨_, _, rfl⟩ := Option.map_eq_some_iff.1 hr
    cases hf
    exact ⟨hstart, hstop⟩
  · exact h₂.bounds n r f hr hf

/-- A state may be joined to a state that exists. -/
theorem join {source target : StateId} (h : b.IsClosed own) (hs : b.HasState source)
    (ht : b.HasState target) : ∃ b', Build.join source target b = (.ok ⟨⟩, b') ∧
      b'.IsClosed own ∧ b'.rules = b.rules ∧ b.Preserves b' := by
  obtain ⟨n, s, rfl, hn⟩ := hs
  have hjoin := Build.connect_eq (Array.getElem?_eq_some_iff.1 hn).1 target .epsilon
  refine ⟨_, hjoin, ?_, rfl, fun m s' hm => ?_⟩
  · refine h.modify n b.decisions (fun _ => rfl) (fun _ => rfl) (fun _ he => he) fun s t' ht' => ?_
    rcases List.mem_append.1 ht' with ht' | ht'
    · exact .inl ht'
    · rw [List.mem_singleton.1 ht']
      exact .inr ht
  · rw [Array.getElem?_modify, hm]
    split
    · exact ⟨_, rfl, rfl, rfl⟩
    · exact ⟨s', rfl, rfl, rfl⟩

/-- Ending a rule that has been opened, with a body at hand, succeeds. -/
theorem closeRule (h : b.IsClosed own) {n : Nat} {r : RuleDraft σ} {f body : Fragment}
    (hr : b.rules[n]? = some r) (hf : r.bounds = some f) (hbody : body.ends ⊆ own) :
    ∃ b', Build.closeRule n body b = (.ok ⟨⟩, b') ∧ b'.IsClosed own ∧ b'.rules = b.rules ∧
      b'.current = none := by
  obtain ⟨hstart, hstop⟩ := h.bounds n r f hr hf
  have hbegin := h.own body.start (hbody (by simp [Fragment.ends]))
  have hend := h.own body.stop (hbody (by simp [Fragment.ends]))
  obtain ⟨b₁, h₁, hclosed₁, hrules₁, hb₁⟩ := h.join hstart.hasState hbegin
  obtain ⟨b₂, h₂, hclosed₂, hrules₂, _⟩ := hclosed₁.join (hend.mono hb₁) (hstop.hasState.mono hb₁)
  refine ⟨{ b₂ with current := none }, ?_, hclosed₂.of_states rfl fun _ _ hr => .inl hr,
    hrules₂.trans hrules₁, rfl⟩
  rw [Build.closeRule_eq (bounds_eq hr hf), bind_apply, h₁]
  dsimp only
  rw [bind_apply, h₂]
  rfl

end IsClosed

/-- What is known of a builder, once it has grown, and the rule that is open. -/
theorem grows_law (b₀ : Builder σ) :
    Law fun _ b => b.current = b₀.current ∧ b₀.Grows b where
  weaken h _ := h
  state h _ _ := ⟨h.1, h.2.trans (grows_push _)⟩
  connect h _ _ := ⟨h.1, h.2.trans (grows_modify _ fun _ => rfl)⟩
  mark h := ⟨h.1, h.2.trans (grows_modify _ fun _ => rfl)⟩
  number {_ b} name h :=
    ⟨(b.current_numbering name).trans h.1, h.2.trans (b.grows_numbering name)⟩
  loop h := ⟨h.1, h.2.trans (.of_eq rfl rfl fun _ hf => List.mem_append_left _ hf)⟩
  predicate h := ⟨h.1, h.2.trans (.of_eq rfl rfl fun _ hf => hf)⟩
  action h := ⟨h.1, h.2.trans (.of_eq rfl rfl fun _ hf => hf)⟩

theorem current_numberDecisions (b : Builder σ) : b.numberDecisions.current = b.current := by
  obtain ⟨_, _, h⟩ := b.numberDecisions_eq
  rw [h]

/-- In the middle of a rule, no grammar is given. -/
theorem finish_of_current {b : Builder σ} {id : RuleId} (h : b.current = some id) :
    ∃ e, Build.finish b = (.error e, b) := by
  rw [Build.finish, bind_apply, get_apply]
  dsimp only
  split
  · exact ⟨_, rfl⟩
  · rw [h]
    exact ⟨_, rfl⟩

theorem current_of_finish {b : Builder σ} {g : Grammar σ} (h : (Build.finish b).1 = .ok g) :
    b.current = none := by
  by_contra hne
  obtain ⟨id, hid⟩ := Option.ne_none_iff_exists'.1 hne
  obtain ⟨e, he⟩ := finish_of_current hid
  rw [he] at h
  cases h

/-- A rule that is opened has the name that it is opened by. -/
theorem opened_name (b : Builder σ) (name : String) (signature : Signature σ) :
    ∃ r f, (b.opened name signature).rules[(b.numbering name).1]? = some r ∧ r.name = name ∧
      r.bounds = some f := by
  obtain ⟨r, hr, hname⟩ := b.numbering_name name
  let bounds : Fragment := { start := b.states.size, stop := b.states.size + 1 }
  have hsize : (b.numbering name).2.states.size = b.states.size :=
    congrArg Array.size (b.states_numbering name)
  refine ⟨{ r with signature, bounds := some bounds }, bounds, ?_, hname, rfl⟩
  rw [opened]
  dsimp only
  rw [Array.getElem?_modify, if_pos rfl, hr, hsize]
  rfl

/-- A step only adds to a builder, and leaves the rule open that is open. -/
theorem grows_step {fragments : List Fragment} {op : Build σ Fragment}
    (h : Build.IsStepOn fragments op) (b : Builder σ) :
    (op b).2.current = b.current ∧ b.Grows (op b).2 :=
  (h.composes b.grows_law b ⟨rfl, .refl b⟩).1

/-- The fragments at hand and all that refers to states are there, and the rule that is open
    has a start and a stop. -/
structure IsReady (fragments : List Fragment) (b : Builder σ) : Prop where
  closed : b.IsClosed (fragments.flatMap Fragment.ends)
  current : ∀ id, b.current = some id → ∃ (n : Nat) (r : RuleDraft σ) (f : Fragment),
    id = n ∧ b.rules[n]? = some r ∧ r.bounds = some f

namespace IsReady

variable {fragments fragments' : List Fragment}

theorem empty : ({} : Builder σ).IsReady [] where
  closed := ⟨nofun, by simp, by simp, by simp⟩
  current := nofun

/-- Where a builder only grows, the rule that is open stays. -/
theorem of_grows (h : b.IsReady fragments)
    (hclosed : b'.IsClosed (fragments'.flatMap Fragment.ends))
    (hcurrent : b'.current = b.current) (hgrows : b.Grows b') : b'.IsReady fragments' where
  closed := hclosed
  current id hid := by
    obtain ⟨n, r, f, hn, hr, hf⟩ := h.current id (hcurrent ▸ hid)
    obtain ⟨r', hr', _, hbounds⟩ := hgrows.rule n r hr
    exact ⟨n, r', f, hn, hr', hbounds f hf⟩

theorem step (h : b.IsReady fragments) {op : Build σ Fragment}
    (hop : Build.IsStepOn fragments op) :
    (op b).2.IsReady ((op b).1.toOption.toList ++ fragments) := by
  obtain ⟨hcurrent, hgrows⟩ := grows_step hop b
  refine h.of_grows ?_ hcurrent hgrows
  obtain ⟨hkeep, hmade⟩ := hop.composes IsClosed.law b h.closed
  rcases hr : op b with ⟨e | f, b'⟩
  · rw [hr] at hkeep
    exact hkeep
  · rw [hr] at hmade
    simpa [Except.toOption] using hmade f rfl

theorem numberDecisions (h : b.IsReady fragments) : b.numberDecisions.IsReady fragments :=
  h.of_grows h.closed.numberDecisions b.current_numberDecisions b.grows_numberDecisions.1

theorem finish (h : b.IsReady fragments) : (Build.finish b).2.IsReady fragments := by
  obtain ⟨e, he⟩ | ⟨e, he⟩ | ⟨_, he⟩ := finish_cases b <;> rw [he]
  · exact h
  · exact h.numberDecisions
  · exact h.numberDecisions.of_grows
      (h.numberDecisions.closed.of_states rfl fun _ _ hr => .inl hr) rfl
      (.of_eq rfl rfl fun _ hf => hf)

theorem opened (h : b.IsReady fragments) (name : String) (signature : Signature σ) :
    (b.opened name signature).IsReady fragments where
  closed := h.closed.opened name signature
  current id hid := by
    obtain ⟨r, f, hr, _, hf⟩ := b.opened_name name signature
    exact ⟨_, r, f, (Option.some.inj hid).symm, hr, hf⟩

theorem closeRule (h : b.IsReady fragments) {id : RuleId} (hid : b.current = some id)
    {body : Fragment} (hbody : body ∈ fragments) :
    ∃ b', Build.closeRule id body b = (.ok ⟨⟩, b') ∧ b'.IsReady fragments ∧ b'.rules = b.rules ∧
      b'.current = none := by
  obtain ⟨n, r, f, rfl, hr, hf⟩ := h.current id hid
  obtain ⟨b', h', hclosed, hrules, hcurrent⟩ :=
    h.closed.closeRule hr hf fun _ hi => List.mem_flatMap.2 ⟨body, hbody, hi⟩
  exact ⟨b', h', ⟨hclosed, fun _ hi => absurd (hcurrent.symm.trans hi) nofun⟩, hrules, hcurrent⟩

end IsReady

/-- What rules are put together of out of their own fragments is there. -/
theorem IsComposed.isReady (h : b.IsComposed fragments) : b.IsReady fragments := by
  induction h with
  | empty => exact .empty
  | step _ hop ih => exact ih.step hop
  | @openRule b own name signature _ ih =>
    obtain ⟨e, he⟩ | ⟨_, _, _, he⟩ := Build.openRule_cases name signature b <;> rw [he]
    · exact ih
    · exact ih.opened name signature
  | closeRule _ hid hbody ih =>
    obtain ⟨b', he, hready, _, hcurrent⟩ := ih.closeRule hid hbody
    rw [he]
    exact ⟨IsClosed.law.weaken hready.closed (List.nil_subset _), hready.current⟩
  | finish _ ih => exact ih.finish

end Builder

/-! ## Sessions -/

namespace Session

variable {s t u : Session σ}

/-- What the builder, the rules and the fragments of a session have in common. -/
structure IsSound (s : Session σ) : Prop where
  ready : s.builder.IsReady s.fragments
  defined : ∀ (n : Nat) (r : RuleDraft σ) (f : Fragment), s.builder.rules[n]? = some r →
    r.bounds = some f → s.builder.current = some (n : Int) ∨ (r.name, (n : Int)) ∈ s.defined
  broken : s.builder.current = none → s.broken = []

/-- A definition that cannot be begun changes nothing. -/
theorem rule_of_refused {name : String} {signature : Signature σ} {body : Build σ Fragment}
    {e : BuildError} {b b' : Builder σ}
    (h : Build.openRule name signature b = (.error e, b')) :
    (Build.rule name signature body b).2 = b := by
  obtain ⟨e', he⟩ | ⟨_, _, _, ho⟩ := Build.openRule_cases name signature b
  · rw [Build.rule, bind_apply, he]
  · rw [ho] at h
    cases h

/-- While a rule is open, no other one is defined, and no grammar is given. -/
theorem LeadsTo.of_current (h : s.LeadsTo t) {id : RuleId} (hid : s.builder.current = some id) :
    t.builder.current = some id ∧ s.builder.Grows t.builder ∧ t.defined = s.defined ∧
      t.broken = s.broken := by
  induction h with
  | refl => exact ⟨hid, .refl _, rfl, rfl⟩
  | @step s t op _ hop ih =>
    obtain ⟨hcurrent, hgrows, hkept⟩ := ih hid
    obtain ⟨hcurrent', hgrows'⟩ := Builder.grows_step hop t.builder
    exact ⟨hcurrent'.trans hcurrent, hgrows.trans hgrows', hkept⟩
  | refused _ ho ih =>
    rw [rule_of_refused ho]
    exact ih hid
  | @rule s t u name signature body id' b _ ho _ _ _ ih _ =>
    -- A rule can only be opened where none is open.
    obtain ⟨e, he⟩ | ⟨hnone, _⟩ := Build.openRule_cases name signature t.builder
    · rw [he] at ho
      cases ho
    · rw [(ih hid).1] at hnone
      cases hnone
  | finish _ ih =>
    obtain ⟨e, he⟩ := Builder.finish_of_current (ih hid).1
    rw [asked, he]
    exact ih hid

namespace IsSound

theorem empty : ({} : Session σ).IsSound where
  ready := .empty
  defined := by simp
  broken _ := rfl

/-- Where a builder only grows, the rules that are defined stay. -/
theorem of_grows (h : s.IsSound) {b : Builder σ} {fragments : List Fragment}
    (hready : b.IsReady fragments) (hcurrent : b.current = s.builder.current)
    (hgrows : s.builder.Grows b) : { s with builder := b, fragments }.IsSound where
  ready := hready
  defined n r f hr hf := by
    rcases hgrows.undefined n r hr with hr | hnone
    · exact (h.defined n r f hr hf).imp_left hcurrent.trans
    · rw [hnone] at hf
      cases hf
  broken hnone := h.broken (hcurrent ▸ hnone)

theorem step (h : s.IsSound) {op : Build σ Fragment} (hop : Build.IsStepOn s.fragments op) :
    (s.after op).IsSound :=
  have ⟨hcurrent, hgrows⟩ := Builder.grows_step hop s.builder
  h.of_grows (h.ready.step hop) hcurrent hgrows

theorem numberDecisions (h : s.IsSound) :
    { s with builder := s.builder.numberDecisions }.IsSound :=
  h.of_grows h.ready.numberDecisions s.builder.current_numberDecisions
    s.builder.grows_numberDecisions.1

theorem asked (h : s.IsSound) : s.asked.IsSound := by
  have hready := h.ready.finish
  rw [Session.asked]
  obtain ⟨e, he⟩ | ⟨e, he⟩ | ⟨_, he⟩ := Builder.finish_cases s.builder <;> rw [he] at hready ⊢
  · exact h
  · exact h.numberDecisions
  · exact h.numberDecisions.of_grows hready rfl (.of_eq rfl rfl fun _ hf => hf)

/-- A rule that is opened is the one that is open. -/
theorem opened (h : s.IsSound) (hnone : s.builder.current = none) (name : String)
    (signature : Signature σ) : { s with builder := s.builder.opened name signature }.IsSound where
  ready := h.ready.opened name signature
  defined n r f hr hf := by
    by_cases hn : n = (s.builder.numbering name).1
    · exact .inl (hn ▸ rfl)
    · rw [Builder.opened] at hr
      dsimp only at hr
      rw [Array.getElem?_modify, if_neg (Ne.symm hn)] at hr
      rcases (s.builder.grows_numbering name).undefined n r hr with hr | hundefined
      · refine .inr ((h.defined n r f hr hf).resolve_left ?_)
        rw [hnone]
        rintro ⟨⟩
      · rw [hundefined] at hf
        cases hf
  broken hcurrent := by cases hcurrent

/-- The definition of a rule ends with the rule defined, or open and broken. -/
theorem ended (h : s.IsSound) {id : RuleId} (hid : s.builder.current = some id)
    (hbroken : s.broken = []) {r : RuleDraft σ}
    (hr : ∀ n : Nat, id = n → s.builder.rules[n]? = some r) {name : String} (hname : r.name = name)
    {signature : Signature σ} {body : Build σ Fragment} {b b₀ : Builder σ}
    (ho : Build.openRule name signature b₀ = (.ok id, b)) (hbody : (body b).2 = s.builder)
    (hreturned : ∀ f, (body b).1 = .ok f → f ∈ s.fragments) :
    (s.ended name (Build.rule name signature body b₀)).IsSound := by
  rw [Build.rule, bind_apply, ho]
  dsimp only
  rw [bind_apply]
  rcases hresult : body b with ⟨e | g, b₁⟩ <;> rw [hresult] at hbody hreturned <;>
    obtain rfl : b₁ = s.builder := hbody
  · refine ⟨h.ready, h.defined, fun hnone => ?_⟩
    exact absurd (hid.symm.trans hnone) nofun
  · obtain ⟨b₂, h₂, hready, hrules, _⟩ := h.ready.closeRule hid (hreturned g rfl)
    dsimp only
    rw [bind_apply, h₂]
    refine ⟨hready, fun m r' f' hr' hf' => .inr ?_, fun _ => hbroken⟩
    have hkept : s.builder.rules[m]? = some r' := hrules ▸ hr'
    rcases h.defined m r' f' hkept hf' with hm | hm
    · obtain rfl := Option.some.inj (hid.symm.trans hm)
      obtain rfl := Option.some.inj ((hr m rfl).symm.trans hkept)
      rw [hname]
      exact List.mem_cons_self
    · exact List.mem_cons_of_mem _ hm

end IsSound

/-- Every call keeps a session sound. -/
theorem LeadsTo.isSound (h : s.LeadsTo t) (hs : s.IsSound) : t.IsSound := by
  induction h with
  | refl => exact hs
  | step _ hop ih => exact (ih hs).step hop
  | refused _ ho ih =>
    rw [rule_of_refused ho]
    exact ih hs
  | @rule s t u name signature body id b _ ho hu hbody hreturned iht ihu =>
    have ht := iht hs
    obtain ⟨e, he⟩ | ⟨hnone, _, _, hopened⟩ := Build.openRule_cases name signature t.builder
    · rw [he] at ho
      cases ho
    · rw [hopened] at ho
      obtain ⟨hid, rfl⟩ := Prod.mk.inj ho
      cases hid
      -- While the body is looked at, the rule stays open and keeps its name.
      obtain ⟨hcurrent, hgrows, _, hbroken⟩ := hu.of_current rfl
      obtain ⟨r, _, hr, hname, _⟩ := t.builder.opened_name name signature
      obtain ⟨r', hr', hname', _⟩ := hgrows.rule _ r hr
      refine (ihu (ht.opened hnone name signature)).ended hcurrent
        (hbroken.trans (ht.broken hnone)) (fun n hn => ?_) (hname'.trans hname) hopened hbody
        hreturned
      rwa [← Int.ofNat.inj hn]
  | finish _ ih => exact (ih hs).asked

/-- The builder of a session is reachable. -/
theorem LeadsTo.isReachable (h : s.LeadsTo t) (hs : s.builder.IsReachable) :
    t.builder.IsReachable := by
  induction h with
  | refl => exact hs
  | step _ hop ih => exact (ih hs).step hop.isStep
  | refused _ ho ih =>
    rw [rule_of_refused ho]
    exact ih hs
  | @rule s t u name signature body id b _ ho _ hbody _ iht ihu =>
    have hb := (iht hs).openRule name signature
    rw [ho] at hb
    have hrule : (Build.rule name signature body t.builder).2.IsReachable := by
      rw [Build.rule, bind_apply, ho]
      exact (show (body b).2.IsReachable from hbody ▸ ihu hb).bind fun f _ hb' =>
        (hb'.closeRule id f).bind fun _ _ hb'' => hb''
    rw [ended]
    split <;> exact hrule
  | finish _ ih => exact (ih hs).finish

end Session

/-! ## Grammars -/

/-- A state of a network belongs to a rule and is of some kind. -/
def Network.IsBound (net : Network) (rule : RuleId) (kind : StateKind) (id : StateId) : Prop :=
  ∃ s, net.state id = .ok s ∧ s.rule = rule ∧ s.kind = kind

/-- What transitions and rules refer to exists: a call leads to the start of the rule that it
    names, every rule has a start and a stop of its own and is one of those that have been
    defined, and decisions have empty transitions only, of which the exit is one. -/
structure Grammar.IsWhole (g : Grammar σ) (defined : List (String × RuleId)) : Prop where
  closed : g.toNetwork.IsClosed
  call : ∀ id s, g.state id = .ok s → ∀ t ∈ s.transitions, ∀ callee follow,
    t.label = .call callee follow → ∃ r, g.rule callee = .ok r ∧ t.target = r.start
  start : ∀ id r, g.rule id = .ok r → g.toNetwork.IsBound id .ruleStart r.start
  stop : ∀ id r, g.rule id = .ok r → g.toNetwork.IsBound id .ruleStop r.stop
  defined : ∀ id r, g.rule id = .ok r → (r.name, id) ∈ defined
  predicate : ∀ id s, g.state id = .ok s → ∀ t ∈ s.transitions, ∀ index,
    t.label = .predicate index → ∃ p, g.predicate index = .ok p
  action : ∀ id s, g.state id = .ok s → ∀ t ∈ s.transitions, ∀ index,
    t.label = .action index → ∃ a, g.action index = .ok a
  epsilon : ∀ id s, g.state id = .ok s → 2 ≤ s.transitions.length →
    ∀ t ∈ s.transitions, t.label = .epsilon
  exitAlt : ∀ id s, g.state id = .ok s → 2 ≤ s.transitions.length →
    0 ≤ s.exitAlt ∧ s.exitAlt ≤ s.transitions.length

namespace Builder

variable {b : Builder σ} {own : List StateId}

theorem IsBound.grammar {rule : RuleId} {kind : StateKind} {id : StateId}
    (h : b.IsBound rule kind id) : b.grammar.toNetwork.IsBound rule kind id := by
  obtain ⟨n, s, rfl, hs, rfl, rfl⟩ := h
  exact ⟨_, state_grammar.2 ⟨n, s, rfl, hs, rfl⟩, rfl, rfl⟩

/-- In a builder that is closed and passes the check, rules begin and end in states of their
    own. -/
theorem IsClosed.bounds_grammar (h : b.IsClosed own) (he : b.error? = none) {id : RuleId}
    {rule : Rule} (hrule : b.grammar.rule id = .ok rule) :
    ∃ (n : Nat) (r : RuleDraft σ) (f : Fragment), id = n ∧ b.rules[n]? = some r ∧
      r.bounds = some f ∧ rule = { name := r.name, start := f.start, stop := f.stop } ∧
      b.grammar.toNetwork.IsBound id .ruleStart f.start ∧
      b.grammar.toNetwork.IsBound id .ruleStop f.stop := by
  obtain ⟨n, hn, rfl, rfl⟩ := rule_grammar_eq_ok hrule
  have hr := Array.getElem?_eq_getElem hn
  obtain ⟨f, hf⟩ := Option.isSome_iff_exists.1 ((of_error?_eq_none he).1 n _ hr)
  obtain ⟨hstart, hstop⟩ := h.bounds n _ f hr hf
  refine ⟨n, _, f, rfl, hr, hf, ?_, hstart.grammar, hstop.grammar⟩
  rw [bounds_eq hr hf]

/-- A decision that passes the check has an exit among its transitions. -/
theorem exitAlt_le (he : b.error? = none) {n : Nat} {s : State} (hs : b.states[n]? = some s)
    (hd : s.decision.isSome) : s.exitAlt ≤ s.transitions.length := by
  have hnone := (of_error?_eq_none he).2 n s hs
  rw [decisionError?, if_neg (by simpa [Option.isSome_iff_ne_none] using hd)] at hnone
  split at hnone
  · cases hnone
  split at hnone
  · cases hnone
  · next hle => exact Int.not_lt.1 hle

/-- In a builder that passes the check, a call leads to the start of the rule that it names. -/
theorem call_grammar (hsound : b.grammar.IsSound) {id : StateId} {s : State} {t : Transition}
    (hs : b.grammar.state id = .ok s) (ht : t ∈ s.transitions) {rule : RuleId} {follow : StateId}
    (hl : t.label = .call rule follow) : ∃ r, b.grammar.rule rule = .ok r ∧ t.target = r.start := by
  have hallows := hsound.label id s hs t ht
  rw [hl] at hallows
  obtain ⟨r, hr⟩ := hallows
  obtain ⟨n, hn, rfl, rfl⟩ := rule_grammar_eq_ok hr
  obtain ⟨_, s₀, _, _, rfl⟩ := state_grammar.1 hs
  obtain ⟨t₀, _, rfl⟩ := List.mem_map.1 ht
  rw [link_label] at hl
  refine ⟨_, hr, ?_⟩
  rw [link, hl]

theorem IsClosed.isClosed_grammar (h : b.IsClosed own) (he : b.error? = none)
    (hsound : b.grammar.IsSound) : b.grammar.toNetwork.IsClosed := by
  rintro id s hs ⟨target, label⟩ ht
  obtain ⟨n, s₀, rfl, hs₀, rfl⟩ := state_grammar.1 hs
  obtain ⟨t₀, ht₀, heq⟩ := List.mem_map.1 ht
  -- The state that a transition leads to within its rule exists.
  have hinner : b.grammar.toNetwork.HasState (Fragment.innerStep ⟨target, label⟩) := by
    obtain ⟨m, s₁, hm, hs₁⟩ := h.inner n s₀ hs₀ t₀ ht₀
    rw [← heq, innerStep_link]
    exact ⟨_, state_grammar.2 ⟨m, s₁, hm, hs₁, rfl⟩⟩
  cases label with
  | call rule follow =>
    obtain ⟨r, hr, rfl⟩ := call_grammar hsound hs ht rfl
    obtain ⟨_, _, _, _, _, _, rfl, ⟨s', hs', _⟩, _⟩ := h.bounds_grammar he hr
    refine ⟨⟨s', hs'⟩, ?_⟩
    rintro _ _ ⟨⟩
    exact hinner
  | _ => exact ⟨hinner, by rintro _ _ ⟨⟩⟩

end Builder

/-- In a grammar whose rules are put together out of their own fragments, transitions lead to
    states that exist. -/
theorem Grammar.IsComposed.isClosed {g : Grammar σ} (h : g.IsComposed) :
    g.toNetwork.IsClosed := by
  have hsound := h.isBuilt.isSound
  obtain ⟨b, own, hb, hg⟩ := h
  obtain ⟨he, rfl⟩ := Builder.finish_eq_ok hg
  exact hb.isReady.numberDecisions.closed.isClosed_grammar he hsound

/-- A grammar that a session gives is whole, and no body of a rule has failed. -/
theorem Session.isWhole_of_finish {s : Session σ} (h : ({} : Session σ).LeadsTo s) {g : Grammar σ}
    (hg : (Build.finish s.builder).1 = .ok g) : g.IsWhole s.defined ∧ s.broken = [] := by
  have hsession := h.isSound .empty
  have hcurrent := Builder.current_of_finish hg
  have hsound := Grammar.IsBuilt.isSound ⟨_, h.isReachable .empty, hg⟩
  refine ⟨?_, hsession.broken hcurrent⟩
  obtain ⟨he, rfl⟩ := Builder.finish_eq_ok hg
  have hclosed := hsession.numberDecisions.ready.closed
  have hdefined := hsession.numberDecisions.defined
  dsimp only at hclosed hdefined
  rw [show s.builder.numberDecisions.current = none from
    s.builder.current_numberDecisions.trans hcurrent] at hdefined
  generalize s.builder.numberDecisions = b at he hsound hclosed hdefined
  constructor
  case closed => exact hclosed.isClosed_grammar he hsound
  case call => exact fun id st hst t ht rule follow hl => Builder.call_grammar hsound hst ht hl
  case start =>
    intro id r hr
    obtain ⟨_, _, _, _, _, _, rfl, hstart, _⟩ := hclosed.bounds_grammar he hr
    exact hstart
  case stop =>
    intro id r hr
    obtain ⟨_, _, _, _, _, _, rfl, _, hstop⟩ := hclosed.bounds_grammar he hr
    exact hstop
  case defined =>
    intro id r hr
    obtain ⟨n, draft, f, rfl, hdraft, hf, rfl, _⟩ := hclosed.bounds_grammar he hr
    exact (hdefined n draft f hdraft hf).resolve_left nofun
  case predicate =>
    intro id st hst t ht index hl
    have hallows := hsound.label id st hst t ht
    rwa [hl] at hallows
  case action =>
    intro id st hst t ht index hl
    have hallows := hsound.label id st hst t ht
    rwa [hl] at hallows
  case epsilon =>
    intro id st hst hlen
    exact hsound.epsilon id st hst ((hsound.isDecision id st hst).2 hlen)
  case exitAlt =>
    intro id st hst hlen
    have hd := (hsound.isDecision id st hst).2 hlen
    obtain ⟨n, s₀, rfl, hs₀, rfl⟩ := Builder.state_grammar.1 hst
    rw [List.length_map]
    exact ⟨hclosed.exitAlt n s₀ hs₀, Builder.exitAlt_le he hs₀ hd⟩

namespace Session

/-- The rule `b` is called where no rule is open, which fails. -/
def calledOutside : Session Unit :=
  ({} : Session Unit).after (Build.call "b")

/-- The rule `a` is defined, and a grammar is asked for in vain, as `b` is not. -/
def halfDefined : Session Unit :=
  (calledOutside.withRule "a" (Build.token 1)).asked

/-- The rule `b` chooses between two uses of the fragment of `a`. -/
def shared : Session Unit :=
  halfDefined.withRule "b"
    (Build.block [{ start := 2, stop := 3 }, { start := 2, stop := 3 }])

theorem shared_eq :
    (Build.openRule "a" {} calledOutside.builder).1.toOption = some 1 ∧
      (Build.openRule "b" {} halfDefined.builder).1.toOption = some 0 ∧
      halfDefined.fragments = [{ start := 2, stop := 3 }] ∧
      shared.defined = [("b", 0), ("a", 1)] ∧
      (Build.finish shared.builder).1.toOption.isSome = true := by
  decide +kernel

theorem shared_leadsTo : ({} : Session Unit).LeadsTo shared := by
  obtain ⟨ha, hb, hfragments, _⟩ := shared_eq
  have hcalled : ({} : Session Unit).LeadsTo calledOutside := .step (.refl _) (.call "b")
  have hhalf : ({} : Session Unit).LeadsTo halfDefined := (hcalled.withRule ha (.token 1)).finish
  refine hhalf.withRule hb (.block fun f hf => ?_)
  rw [hfragments]
  rcases List.mem_cons.1 hf with hf | hf
  · exact hf ▸ List.mem_cons_self
  · exact hf

/-- The grammar has the two rules, and nothing is left over of the calls that have failed. -/
theorem shared_isWhole :
    ∃ g, (Build.finish shared.builder).1 = .ok g ∧ g.IsWhole [("b", 0), ("a", 1)] := by
  obtain ⟨_, _, _, hdefined, hsome⟩ := shared_eq
  rcases hg : (Build.finish shared.builder).1 with e | g
  · rw [hg] at hsome
    cases hsome
  · exact ⟨g, rfl, hdefined ▸ (isWhole_of_finish shared_leadsTo hg).1⟩

end Session

end AdaptiveLL
