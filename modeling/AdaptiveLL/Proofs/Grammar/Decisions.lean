import AdaptiveLL.Prediction.LoopExit
import AdaptiveLL.Proofs.Grammar.Completion

/-!
# Where loops are decided

A loop is decided at a state with two ways on, to its body and out of it. No other one is
added later where a grammar is composed: fragments are led on from at their stops, and no
loop is decided there (`Builder.DecidesLoops`).

So at the decision of a non-greedy loop, the first alternative is the body and the second
one leaves the loop (`Grammar.IsComposed.exists_ways`).
-/

namespace AdaptiveLL

variable {σ α β : Type}

namespace Builder

/-- A state exists, and no loop is decided there. -/
def IsPlain (b : Builder σ) (id : StateId) : Prop :=
  ∃ (n : Nat) (s : State), id = n ∧ b.states[n]? = some s ∧ s.exitAlt = 0

/-- Loops are decided at states with two ways on, of which the second leaves the loop. The
    states at hand to be led on from are plain. While a loop is made, so is the state that is
    to decide it, with so many ways on, which is not at hand. -/
structure DecidesLoops (own : List StateId) (making : Option (StateId × Nat))
    (b : Builder σ) : Prop where
  plain : ∀ id ∈ own, b.IsPlain id
  loop : ∀ (n : Nat) (s : State), b.states[n]? = some s →
    s.exitAlt = 0 ∨ (s.exitAlt = 2 ∧ s.transitions.length = 2 ∧ s.kind ≠ .ruleStart)
  making : ∀ id k, making = some (id, k) → id ∉ own ∧ ∃ (n : Nat) (s : State), id = n ∧
    b.states[n]? = some s ∧ s.exitAlt = 0 ∧ s.transitions.length = k ∧ s.kind ≠ .ruleStart

namespace DecidesLoops

variable {b b' : Builder σ} {own new : List StateId} {making : Option (StateId × Nat)}
  {id : StateId} {k : Nat}

theorem empty : ({} : Builder σ).DecidesLoops [] none where
  plain := nofun
  loop := by simp
  making := nofun

/-- Fewer states may be at hand. -/
theorem weaken (h : b.DecidesLoops own making) (hsub : new ⊆ own) :
    b.DecidesLoops new making where
  plain id hid := h.plain id (hsub hid)
  loop := h.loop
  making id k hmaking := (h.making id k hmaking).imp_left fun hnot hid => hnot (hsub hid)

/-- A loop need not be finished. -/
theorem abandon (h : b.DecidesLoops own making) (hsub : new ⊆ own) : b.DecidesLoops new none where
  plain id hid := h.plain id (hsub hid)
  loop := h.loop
  making := nofun

theorem of_states (h : b.DecidesLoops own making) (hs : b'.states = b.states) :
    b'.DecidesLoops own making where
  plain id hid := by
    rw [IsPlain, hs]
    exact h.plain id hid
  loop := by
    rw [hs]
    exact h.loop
  making := by
    rw [hs]
    exact h.making

/-- A new state is plain. -/
theorem push (h : b.DecidesLoops own making) (rule : RuleId) (kind : StateKind) :
    { b with states := b.states.push { rule, kind } }.DecidesLoops
      ((b.states.size : Int) :: own) making := by
  refine ⟨fun id hid => ?_, fun n s hs => ?_, fun id k hmaking => ?_⟩
  · rcases List.mem_cons.1 hid with rfl | hid
    · exact ⟨_, _, rfl, Array.getElem?_push_size, rfl⟩
    · obtain ⟨n, s, hn, hs, hexit⟩ := h.plain id hid
      exact ⟨n, s, hn, getElem?_push_of_some hs, hexit⟩
  · rcases getElem?_push_eq_some.1 hs with hs | ⟨_, rfl⟩
    · exact h.loop n s hs
    · exact .inl rfl
  · obtain ⟨hnot, n, s, rfl, hs, hmade⟩ := h.making id k hmaking
    have hne : n ≠ b.states.size := (Array.getElem?_eq_some_iff.1 hs).1.ne
    exact ⟨List.not_mem_cons_of_ne_of_not_mem (mt Int.natCast_inj.1 hne) hnot, n, s, rfl,
      getElem?_push_of_some hs, hmade⟩

/-- With a new state, a loop may be begun. -/
theorem begin (h : b.DecidesLoops own none) (rule : RuleId) {kind : StateKind}
    (hkind : kind ≠ .ruleStart) :
    { b with states := b.states.push { rule, kind } }.DecidesLoops own
      (some ((b.states.size : Int), 0)) := by
  have hpush := (h.push rule kind).weaken (List.subset_cons_self _ own)
  refine ⟨hpush.plain, hpush.loop, ?_⟩
  rintro _ _ ⟨⟩
  refine ⟨fun hid => ?_, _, _, rfl, Array.getElem?_push_size, rfl, rfl, hkind⟩
  obtain ⟨n, s, hn, hs, _⟩ := h.plain _ hid
  exact (Array.getElem?_eq_some_iff.1 hs).1.ne (Int.natCast_inj.1 hn).symm

/-- A change of one state that keeps its kind and the alternative that leaves a loop there, and
    the number of its ways on unless it is at hand. -/
theorem modify (h : b.DecidesLoops own making) (n : Nat) {f : State → State}
    (decisions : Array StateId) (hkind : ∀ s, (f s).kind = s.kind)
    (hexit : ∀ s, (f s).exitAlt = s.exitAlt)
    (hlen : (n : Int) ∈ own ∨ ∀ s, (f s).transitions.length = s.transitions.length) :
    { b with states := b.states.modify n f, decisions }.DecidesLoops own making := by
  have keeps {m : Nat} {s : State} (hs : b.states[m]? = some s) :
      ∃ s', (b.states.modify n f)[m]? = some s' ∧ s'.exitAlt = s.exitAlt ∧ s'.kind = s.kind ∧
        ((m : Int) ∉ own → s'.transitions.length = s.transitions.length) := by
    rw [Array.getElem?_modify, hs]
    split
    · next hn =>
      subst hn
      exact ⟨f s, rfl, hexit s, hkind s, fun hnot => hlen.resolve_left hnot s⟩
    · exact ⟨s, rfl, rfl, rfl, fun _ => rfl⟩
  refine ⟨fun id hid => ?_, fun m s' hs' => ?_, fun id k hmaking => ?_⟩
  · obtain ⟨m, s, rfl, hs, hplain⟩ := h.plain id hid
    obtain ⟨s', hs', hexit', _⟩ := keeps hs
    exact ⟨m, s', rfl, hs', hexit'.trans hplain⟩
  · have hlt := (Array.getElem?_eq_some_iff.1 hs').1
    rw [Array.size_modify] at hlt
    have hs := Array.getElem?_eq_getElem hlt
    obtain ⟨_, hs'', hexit', hkind', hlen'⟩ := keeps hs
    obtain rfl := Option.some.inj (hs'.symm.trans hs'')
    rw [hexit', hkind']
    by_cases hm : (m : Int) ∈ own
    · -- What is at hand is plain.
      obtain ⟨_, s, he, hs, hplain⟩ := h.plain _ hm
      obtain rfl := Int.natCast_inj.1 he
      rw [Array.getElem?_eq_getElem hlt] at hs
      cases hs
      exact .inl hplain
    · rw [hlen' hm]
      exact h.loop m _ hs
  · obtain ⟨hnot, m, s, rfl, hs, hplain, rfl, hstart⟩ := h.making id k hmaking
    obtain ⟨s', hs', hexit', hkind', hlen'⟩ := keeps hs
    exact ⟨hnot, m, s', rfl, hs', hexit'.trans hplain, hlen' hnot, hkind' ▸ hstart⟩

/-- A change of the state that is to decide a loop leaves all others as they are. -/
theorem remake {n : Nat} (h : b.DecidesLoops own (some ((n : Int), k))) {f : State → State}
    {making : Option (StateId × Nat)}
    (hloop : ∀ s, s.exitAlt = 0 → s.transitions.length = k → s.kind ≠ .ruleStart →
      (f s).exitAlt = 0 ∨
        ((f s).exitAlt = 2 ∧ (f s).transitions.length = 2 ∧ (f s).kind ≠ .ruleStart))
    (hmaking : ∀ id k', making = some (id, k') → id = n ∧
      ∀ s, s.exitAlt = 0 → s.transitions.length = k → s.kind ≠ .ruleStart →
        (f s).exitAlt = 0 ∧ (f s).transitions.length = k' ∧ (f s).kind ≠ .ruleStart) :
    { b with states := b.states.modify n f }.DecidesLoops own making := by
  obtain ⟨hnot, m, s, he, hs, hplain, hlen, hkind⟩ := h.making _ k rfl
  obtain rfl := Int.natCast_inj.1 he
  have hmade : (b.states.modify n f)[n]? = some (f s) := by
    rw [Array.getElem?_modify, if_pos rfl, hs]
    rfl
  have hother {m : Nat} (hm : n ≠ m) : (b.states.modify n f)[m]? = b.states[m]? := by
    rw [Array.getElem?_modify, if_neg hm]
  refine ⟨fun id hid => ?_, fun m s' hs' => ?_, fun id k' he => ?_⟩
  · obtain ⟨m, s', rfl, hs', hplain'⟩ := h.plain id hid
    have hm : n ≠ m := by
      rintro rfl
      exact hnot hid
    exact ⟨m, s', rfl, (hother hm).trans hs', hplain'⟩
  · by_cases hm : n = m
    · subst hm
      cases hmade.symm.trans hs'
      exact hloop s hplain hlen hkind
    · exact h.loop m s' ((hother hm).symm.trans hs')
  · obtain ⟨rfl, hmaking⟩ := hmaking id k' he
    exact ⟨hnot, n, f s, rfl, hmade, hmaking s hplain hlen hkind⟩

/-- The state that is to decide a loop is given one more way on. -/
theorem extend {n : Nat} (h : b.DecidesLoops own (some ((n : Int), k))) (t : Transition) :
    { b with states := b.states.modify n fun s => s.connect t }.DecidesLoops own
      (some ((n : Int), k + 1)) := by
  refine h.remake (fun _ hplain _ _ => .inl hplain) ?_
  rintro _ _ ⟨⟩
  refine ⟨rfl, fun s hplain hlen hkind => ⟨hplain, ?_, hkind⟩⟩
  rw [State.connect, List.length_append, hlen]
  rfl

/-- With two ways on, it decides the loop. -/
theorem mark {n : Nat} (h : b.DecidesLoops own (some ((n : Int), 2))) (nonGreedy : Bool) :
    { b with states := b.states.modify n fun s => { s with exitAlt := 2, nonGreedy } }.DecidesLoops
      own none :=
  h.remake (fun _ _ hlen hkind => .inr ⟨rfl, hlen, hkind⟩) (by rintro _ _ ⟨⟩)

end DecidesLoops

end Builder

namespace Build

open Builder

/-- A step that succeeds has some more states at hand, and has come so far with a loop; one that
    fails abandons it. -/
abbrev Decides (own new : List StateId) (making : Option (StateId × Nat)) (op : Build σ α)
    (made : α → List StateId) (making' : α → Option (StateId × Nat)) : Prop :=
  Ensures (DecidesLoops own none) (DecidesLoops (new ++ own) making) op
    fun a => DecidesLoops (made a ++ new ++ own) (making' a)

variable {own new : List StateId} {making : Option (StateId × Nat)} {id source : StateId} {k : Nat}

theorem decides_pure {a : α} {made : α → List StateId} (h : made a ⊆ new ++ own) :
    Ensures (DecidesLoops (σ := σ) own none) (DecidesLoops (new ++ own) making) (pure a)
      fun a => DecidesLoops (made a) none :=
  Ensures.pure fun _ hb => ⟨hb.abandon (List.subset_append_right _ _), hb.abandon h⟩

theorem newState_decides (kind : StateKind) :
    Decides (σ := σ) own new making (newState kind) (fun id => [id]) fun _ => making :=
  newState_ensures kind (fun _ hb => hb.abandon (List.subset_append_right _ _)) fun _ rule _ hb =>
    have hpush := hb.push rule kind
    ⟨hpush.abandon (List.subset_cons_of_subset _ (List.subset_append_right _ _)), hpush⟩

/-- With a new state, a loop is begun. -/
theorem newState_begins {kind : StateKind} (hkind : kind ≠ .ruleStart) :
    Decides (σ := σ) own new none (newState kind) (fun _ => []) fun id => some (id, 0) :=
  newState_ensures kind (fun _ hb => hb.abandon (List.subset_append_right _ _)) fun _ rule _ hb =>
    have hbegin := hb.begin rule hkind
    ⟨hbegin.abandon (List.subset_append_right _ _), hbegin⟩

theorem connect_decides {target : StateId} {l : Label} (hs : source ∈ new ++ own) :
    Decides (σ := σ) own new making (connect source target l) (fun _ => []) fun _ => making := by
  refine connect_ensures (fun _ hb => hb.abandon (List.subset_append_right _ _)) ?_
  rintro b n rfl hb
  have hm := hb.modify n b.decisions (f := fun s => s.connect ⟨target, l⟩) (fun _ => rfl)
    (fun _ => rfl) (.inl hs)
  exact ⟨hm.abandon (List.subset_append_right _ _), hm⟩

/-- The state that is to decide a loop is led on from once more. -/
theorem connect_extends {target : StateId} {l : Label} :
    Decides (σ := σ) own new (some (id, k)) (connect id target l) (fun _ => [])
      fun _ => some (id, k + 1) := by
  refine connect_ensures (fun _ hb => hb.abandon (List.subset_append_right _ _)) ?_
  rintro b n rfl hb
  have hm := hb.extend ⟨target, l⟩
  exact ⟨hm.abandon (List.subset_append_right _ _), hm⟩

theorem markLoop_decides (nonGreedy : Bool) :
    Decides (σ := σ) own new (some (id, 2)) (markLoop id nonGreedy) (fun _ => [])
      fun _ => none := by
  refine Ensures.modify fun b hb => ?_
  obtain ⟨_, n, _, rfl, _⟩ := hb.making _ _ rfl
  have hm := hb.mark nonGreedy
  exact ⟨hm.abandon (List.subset_append_right _ _), hm⟩

theorem element_decides (l : Label) :
    Decides (σ := σ) own [] none (element l) (fun f => [f.stop]) fun _ => none :=
  (newState_decides _).bind fun start => (newState_decides _).bind fun stop =>
    (connect_decides (by simp)).bind fun _ => decides_pure (by simp)

theorem epsilon_decides :
    Decides (σ := σ) own new none epsilon (fun f => [f.stop]) fun _ => none :=
  (newState_decides _).bind fun _ => decides_pure (by simp)

theorem call_decides (name : String) :
    Decides (σ := σ) own [] none (call name) (fun f => [f.stop]) fun _ => none := by
  have hnumber : Ensures (DecidesLoops (σ := σ) own none) (DecidesLoops own none) (ruleNumber name)
      fun _ => DecidesLoops own none := by
    intro b hb
    rw [ruleNumber_eq]
    have hs := hb.of_states (b.states_numbering name)
    exact ⟨hs, fun _ _ => hs⟩
  have hnew : Decides (σ := σ) own [] none (newState .basic) (fun id => [id]) fun _ => none :=
    newState_decides .basic
  exact hnumber.bind fun _ => hnew.bind fun start => (newState_decides _).bind fun stop =>
    (connect_decides (by simp)).bind fun _ => decides_pure (by simp)

section

variable {parts alternatives : List Fragment}

theorem chain_decides (h : ∀ f ∈ parts, f.stop ∈ new ++ own) :
    Decides (σ := σ) own new none (chain parts) (fun _ => []) fun _ => none := by
  induction parts with
  | nil => exact decides_pure (List.Subset.refl _)
  | cons f rest ih =>
    cases rest with
    | nil => exact decides_pure (List.Subset.refl _)
    | cons g rest =>
      obtain ⟨hf, hrest⟩ := List.forall_mem_cons.1 h
      exact (connect_decides hf).bind fun _ => ih hrest

theorem branch_decides {start stop : StateId} (hstart : start ∈ new ++ own)
    (h : ∀ f ∈ alternatives, f.stop ∈ new ++ own) :
    Decides (σ := σ) own new none (branch start stop alternatives) (fun _ => []) fun _ => none := by
  induction alternatives with
  | nil => exact decides_pure (List.Subset.refl _)
  | cons f rest ih =>
    obtain ⟨hf, hrest⟩ := List.forall_mem_cons.1 h
    exact (connect_decides hstart).bind fun _ => (connect_decides hf).bind fun _ => ih hrest

theorem sequence_decides (h : ∀ f ∈ parts, f.stop ∈ new ++ own) :
    Decides (σ := σ) own new none (sequence parts) (fun f => [f.stop]) fun _ => none := by
  rw [sequence]
  split
  · next first last _ hlast =>
    have hl := h last (List.mem_of_getLast? hlast)
    exact (chain_decides h).bind fun _ => decides_pure (by simpa using hl)
  · exact epsilon_decides

theorem block_decides (h : ∀ f ∈ alternatives, f.stop ∈ new ++ own) :
    Decides (σ := σ) own new none (block alternatives) (fun f => [f.stop]) fun _ => none := by
  match alternatives with
  | [] => exact Ensures.throw fun _ hb => hb.abandon (List.subset_append_right _ _)
  | [f] => exact decides_pure (by simpa using h f List.mem_cons_self)
  | f :: g :: rest =>
    refine (newState_decides _).bind fun start => (newState_decides _).bind fun stop =>
      (branch_decides (by simp) fun f hf => ?_).bind fun _ => decides_pure (by simp)
    exact List.mem_cons_of_mem _ (List.mem_cons_of_mem _ (h f hf))

theorem loopBody_decides (greediness : Greediness) (h : ∀ f ∈ alternatives, f.stop ∈ own) :
    Decides (σ := σ) own [] none (loopBody alternatives greediness) (fun r => [r.1.stop])
      fun _ => none := by
  refine (block_decides h).bind fun body b hb => ?_
  rw [bind_apply, get_apply]
  dsimp only
  cases b.loopError? [] body with
  | some error => exact ⟨hb.abandon (List.subset_append_right _ _), by rintro _ ⟨⟩⟩
  | none =>
    have hs : DecidesLoops _ none { b with loops := b.loops ++ [body] } := hb.of_states rfl
    refine ⟨hs.abandon (List.subset_append_right _ _), fun _ hr => ?_⟩
    cases hr
    exact hs

theorem star_decides (greediness : Greediness) (h : ∀ f ∈ alternatives, f.stop ∈ own) :
    Decides (σ := σ) own [] none (star alternatives greediness) (fun f => [f.stop])
      fun _ => none :=
  (loopBody_decides greediness h).bind fun r =>
    (newState_begins (by decide)).bind fun entry =>
    (newState_decides _).bind fun back => (newState_decides _).bind fun stop =>
    connect_extends.bind fun _ => connect_extends.bind fun _ =>
    (connect_decides (by simp)).bind fun _ => (connect_decides (by simp)).bind fun _ =>
    (markLoop_decides _).bind fun _ => decides_pure fun _ hid => by simp at hid ⊢; tauto

theorem plus_decides (greediness : Greediness) (h : ∀ f ∈ alternatives, f.stop ∈ own) :
    Decides (σ := σ) own [] none (plus alternatives greediness) (fun f => [f.stop])
      fun _ => none :=
  (loopBody_decides greediness h).bind fun r =>
    (newState_begins (by decide)).bind fun back => (newState_decides _).bind fun stop =>
    (connect_decides (by simp)).bind fun _ =>
    connect_extends.bind fun _ => connect_extends.bind fun _ =>
    (markLoop_decides _).bind fun _ => decides_pure (by simp)

end

/-- Where a rule ends, its start and the stop of its body are led on from. -/
theorem closeRule_decides {id : RuleId} {body bounds : Fragment} {b : Builder σ}
    (hb : b.DecidesLoops (bounds.start :: own) none) (hbounds : b.bounds id = bounds)
    (hbody : body.stop ∈ own) : (closeRule id body b).2.DecidesLoops own none := by
  have hclose : Decides (σ := σ) own [bounds.start] none (do
      join bounds.start body.start
      join body.stop bounds.stop
      modify fun b => { b with current := none }) (fun _ => []) fun _ => none :=
    (connect_decides (by simp)).bind fun _ => (connect_decides (by simp [hbody])).bind fun _ =>
      Ensures.modify fun _ hc =>
        ⟨(hc.weaken (List.subset_append_right _ _)).of_states rfl, hc.of_states rfl⟩
  rw [closeRule_eq hbounds]
  exact (hclose b hb).1

/-- A step that puts fragments at hand together decides every loop that it makes between two
    ways on. -/
theorem IsStepOn.decides {fragments : List Fragment} {op : Build σ Fragment}
    (h : IsStepOn fragments op) :
    Decides (fragments.map Fragment.stop) [] none op (fun f => [f.stop]) fun _ => none := by
  have own {parts : List Fragment} (hparts : ∀ f ∈ parts, f ∈ fragments) :
      ∀ f ∈ parts, f.stop ∈ fragments.map Fragment.stop :=
    fun f hf => List.mem_map_of_mem (hparts f hf)
  cases h with
  | token type => exact element_decides _
  | range low high =>
    rw [Build.range]
    split
    · exact Ensures.throw fun _ hb => hb
    · exact element_decides _
  | oneOf types =>
    rw [Build.oneOf]
    split
    · exact Ensures.throw fun _ hb => hb
    · exact element_decides _
  | noneOf types => exact element_decides _
  | wildcard => exact element_decides _
  | epsilon => exact epsilon_decides
  | call name => exact call_decides name
  | predicate p =>
    refine Ensures.get fun b => Ensures.bind (Q := fun _ => DecidesLoops _ none)
      (Ensures.modify fun c hc => ?_) fun _ => element_decides _
    exact ⟨hc.2.of_states rfl, hc.2.of_states rfl⟩
  | action a =>
    refine Ensures.get fun b => Ensures.bind (Q := fun _ => DecidesLoops _ none)
      (Ensures.modify fun c hc => ?_) fun _ => element_decides _
    exact ⟨hc.2.of_states rfl, hc.2.of_states rfl⟩
  | sequence hparts => exact sequence_decides (own hparts)
  | block hparts => exact block_decides (own hparts)
  | @optional alternatives hparts =>
    refine epsilon_decides.bind fun empty => ?_
    have hempty : ∀ f ∈ alternatives ++ [empty],
        f.stop ∈ [empty.stop] ++ [] ++ fragments.map Fragment.stop := by
      intro f hf
      rcases List.mem_append.1 hf with hf | hf
      · exact List.mem_append_right _ (own hparts f hf)
      · rw [List.mem_singleton.1 hf]
        exact List.mem_cons_self
    refine (block_decides hempty).weaken fun f b hb => hb.weaken ?_
    simp
  | star greediness hparts => exact star_decides greediness (own hparts)
  | plus greediness hparts => exact plus_decides greediness (own hparts)

end Build

namespace Builder

variable {b : Builder σ} {own : List StateId} {fragments : List Fragment}

namespace DecidesLoops

theorem opened (h : b.DecidesLoops own none) (name : String) (signature : Signature σ) :
    (b.opened name signature).DecidesLoops own none := by
  let id := (b.numbering name).1
  have hpush := (h.push id .ruleStart).push id .ruleStop
  refine (hpush.weaken ?_).of_states ?_
  · exact List.subset_cons_of_subset _ (List.subset_cons_self _ _)
  · rw [Builder.opened]
    dsimp only
    rw [b.states_numbering name]

theorem numberDecisions (h : b.DecidesLoops own none) : b.numberDecisions.DecidesLoops own none :=
  numberDecisions_keeps h fun _ n hc =>
    hc.modify n _ (fun _ => rfl) (fun _ => rfl) (.inr fun _ => rfl)

/-- The start of a rule is led on from as well where the rule ends. -/
theorem closeRule (h : b.DecidesLoops own none) {n : Nat} {r : RuleDraft σ} {bounds body : Fragment}
    (hr : b.rules[n]? = some r) (hf : r.bounds = some bounds)
    (hstart : b.IsBound n .ruleStart bounds.start) (hbody : body.stop ∈ own) :
    (Build.closeRule n body b).2.DecidesLoops own none := by
  obtain ⟨m, s, hm, hs, _, hkind⟩ := hstart
  have hplain : b.IsPlain bounds.start :=
    ⟨m, s, hm, hs, (h.loop m s hs).resolve_right fun hloop => hloop.2.2 hkind⟩
  have hown : b.DecidesLoops (bounds.start :: own) none :=
    ⟨List.forall_mem_cons.2 ⟨hplain, h.plain⟩, h.loop, nofun⟩
  exact Build.closeRule_decides hown (bounds_eq hr hf) hbody

end DecidesLoops

/-- Where a grammar is composed, loops are decided between two ways on. -/
theorem IsComposed.decidesLoops (h : b.IsComposed fragments) :
    b.DecidesLoops (fragments.map Fragment.stop) none := by
  induction h with
  | empty => exact .empty
  | @step b own op _ hop ih =>
    obtain ⟨hkeep, hmade⟩ := hop.decides b ih
    rcases hr : op b with ⟨e | f, b'⟩
    · rw [hr] at hkeep
      exact hkeep
    · rw [hr] at hmade
      exact hmade f rfl
  | @openRule b own name signature _ ih =>
    obtain ⟨e, he⟩ | ⟨_, _, _, he⟩ := Build.openRule_cases name signature b <;> rw [he]
    · exact ih
    · exact ih.opened name signature
  | @closeRule b own id body hcomposed hid hbody ih =>
    have hready := hcomposed.isReady
    obtain ⟨n, r, f, rfl, hr, hf⟩ := hready.current id hid
    exact (ih.closeRule hr hf (hready.closed.bounds n r f hr hf).1
      (List.mem_map_of_mem hbody)).weaken (List.nil_subset _)
  | @finish b own _ ih =>
    obtain ⟨e, he⟩ | ⟨e, he⟩ | ⟨_, he⟩ := finish_cases b <;> rw [he]
    · exact ih
    · exact ih.numberDecisions
    · exact ih.numberDecisions.of_states rfl

end Builder

/-- In a grammar that is composed, the decision of a non-greedy loop has two alternatives, of
    which the second leaves the loop. -/
theorem Grammar.IsComposed.exists_ways {g : Grammar σ} (hg : g.IsComposed) {id : StateId}
    {s : State} {exit : LoopExit} (hs : g.state id = .ok s)
    (hx : LoopExit.ofState g.toNetwork s = .ok exit) (hactive : exit.active = true) :
    exit.alt = 2 ∧ ∃ body leave, s.transitions = [body, leave] := by
  obtain ⟨b, own, hb, hg⟩ := hg
  obtain ⟨_, rfl⟩ := Builder.finish_eq_ok hg
  obtain ⟨n, s₀, rfl, hs₀, rfl⟩ := Builder.state_grammar.1 hs
  obtain ⟨_, _, hx⟩ := Except.exists_of_bind hx
  cases hx
  have hpositive : 0 < s₀.exitAlt := by simpa using (Bool.and_eq_true_iff.1 hactive).2
  obtain hzero | ⟨hexit, hlen, _⟩ := hb.decidesLoops.numberDecisions.loop n s₀ hs₀
  · omega
  · refine ⟨hexit, List.length_eq_two.1 ?_⟩
    rw [List.length_map, hlen]

end AdaptiveLL
