import AdaptiveLL.Proofs.Grammar.Construction

/-!
# Grammars composed rule by rule

A grammar is *composed* if the body of every rule is put together out of
fragments of this body only (`Grammar.IsComposed`). Nothing enforces it: a fragment
is a pair of numbers, which may be kept and used in the body of another rule.

In a grammar that is composed, every transition stays within its rule, but for the
call it may make (`Network.KeepsToRules`). So a run that returns from all its calls
comes to an end in the rule it has begun in (`KeepsToRules.isOf_of_run`).
-/

namespace AdaptiveLL

variable {σ α β : Type}

/-- The steps that put fragments of a list together. -/
inductive Build.IsStepOn (own : List Fragment) : Build σ Fragment → Prop
  | token (type : Int) : IsStepOn own (Build.token type)
  | range (low high : Int) : IsStepOn own (Build.range low high)
  | oneOf (types : List Int) : IsStepOn own (Build.oneOf types)
  | noneOf (types : List Int) : IsStepOn own (Build.noneOf types)
  | wildcard : IsStepOn own Build.wildcard
  | epsilon : IsStepOn own Build.epsilon
  | call (name : String) : IsStepOn own (Build.call name)
  | predicate (p : Predicate σ) : IsStepOn own (Build.predicate p)
  | action (a : Action σ) : IsStepOn own (Build.action a)
  | sequence {parts : List Fragment} : (∀ f ∈ parts, f ∈ own) → IsStepOn own (Build.sequence parts)
  | block {alternatives : List Fragment} : (∀ f ∈ alternatives, f ∈ own) →
    IsStepOn own (Build.block alternatives)
  | optional {alternatives : List Fragment} : (∀ f ∈ alternatives, f ∈ own) →
    IsStepOn own (Build.optional alternatives)
  | star {alternatives : List Fragment} (greediness : Greediness) :
    (∀ f ∈ alternatives, f ∈ own) → IsStepOn own (Build.star alternatives greediness)
  | plus {alternatives : List Fragment} (greediness : Greediness) :
    (∀ f ∈ alternatives, f ∈ own) → IsStepOn own (Build.plus alternatives greediness)

/-- The builders that steps lead to, whether they succeed or fail, where the body
    of a rule is put together out of its own fragments; with the fragments of the
    body of the open rule. -/
inductive Builder.IsComposed : Builder σ → List Fragment → Prop
  | empty : IsComposed {} []
  | step {b : Builder σ} {own : List Fragment} {op : Build σ Fragment} : IsComposed b own →
    Build.IsStepOn own op → IsComposed (op b).2 ((op b).1.toOption.toList ++ own)
  | openRule {b : Builder σ} {own : List Fragment} (name : String) (signature : Signature σ) :
    IsComposed b own → IsComposed (Build.openRule name signature b).2 own
  | closeRule {b : Builder σ} {own : List Fragment} {id : RuleId} {body : Fragment} :
    IsComposed b own → b.current = some id → body ∈ own →
    IsComposed (Build.closeRule id body b).2 []
  | finish {b : Builder σ} {own : List Fragment} : IsComposed b own →
    IsComposed (Build.finish b).2 own

/-- Some steps lead to a builder that gives the grammar, where the body of every
    rule is put together out of its own fragments. -/
def Grammar.IsComposed (g : Grammar σ) : Prop :=
  ∃ (b : Builder σ) (own : List Fragment), b.IsComposed own ∧ (Build.finish b).1 = .ok g

theorem Build.IsStepOn.isStep {own : List Fragment} {op : Build σ Fragment} (h : IsStepOn own op) :
    IsStep op := by
  cases h with
  | token => exact .token _
  | range => exact .range _ _
  | oneOf => exact .oneOf _
  | noneOf => exact .noneOf _
  | wildcard => exact .wildcard
  | epsilon => exact .epsilon
  | call => exact .call _
  | predicate => exact .predicate _
  | action => exact .action _
  | sequence => exact .sequence _
  | block => exact .block _
  | optional => exact .optional _
  | star => exact .star _ _
  | plus => exact .plus _ _

theorem Builder.IsComposed.isReachable {b : Builder σ} {own : List Fragment}
    (h : b.IsComposed own) : b.IsReachable := by
  induction h with
  | empty => exact .empty
  | step _ hop ih => exact ih.step hop.isStep
  | openRule name signature _ ih => exact ih.openRule name signature
  | closeRule _ _ _ ih => exact ih.closeRule _ _
  | finish _ ih => exact ih.finish

/-- A grammar that is composed is built. -/
theorem Grammar.IsComposed.isBuilt {g : Grammar σ} (h : g.IsComposed) : g.IsBuilt := by
  obtain ⟨b, _, hb, hg⟩ := h
  exact ⟨b, hb.isReachable, hg⟩

/-! ## What is kept while a grammar is composed -/

/-- The states that a fragment is entered and left at. -/
def Fragment.ends (f : Fragment) : List StateId :=
  [f.start, f.stop]

namespace Builder

/-- A state belongs to a rule. -/
def IsOf (b : Builder σ) (rule : RuleId) (id : StateId) : Prop :=
  ∃ (n : Nat) (s : State), id = n ∧ b.states[n]? = some s ∧ s.rule = rule

/-- Transitions stay within their rules, and rules begin and end in states of their
    own. The states at hand belong to the rule that is open. -/
structure KeepsToRules (current : Option RuleId) (own : List StateId) (b : Builder σ) : Prop where
  current_eq : b.current = current
  defined : ∀ id, current = some id → ∃ (n : Nat) (r : RuleDraft σ) (f : Fragment), id = n ∧
    b.rules[n]? = some r ∧ r.bounds = some f
  own : ∀ id ∈ own, ∃ rule, current = some rule ∧ b.IsOf rule id
  inner : ∀ (n : Nat) (s : State), b.states[n]? = some s → ∀ t ∈ s.transitions,
    b.IsOf s.rule (Fragment.innerStep t)
  bounds : ∀ (n : Nat) (r : RuleDraft σ) (f : Fragment), b.rules[n]? = some r →
    r.bounds = some f → b.IsOf n f.start ∧ b.IsOf n f.stop
  stop : ∀ (n : Nat) (s : State), b.states[n]? = some s → s.kind = .ruleStop →
    ∃ (i : Nat) (r : RuleDraft σ) (f : Fragment), s.rule = i ∧ b.rules[i]? = some r ∧
      r.bounds = some f ∧ f.stop = n

variable {b b' : Builder σ} {current : Option RuleId} {own new : List StateId}

theorem IsOf.mono (h : ∀ (n : Nat) (s : State), b.states[n]? = some s →
    ∃ s', b'.states[n]? = some s' ∧ s'.rule = s.rule) {rule : RuleId} {id : StateId}
    (hid : b.IsOf rule id) : b'.IsOf rule id := by
  obtain ⟨n, s, rfl, hs, rfl⟩ := hid
  obtain ⟨s', hs', hrule⟩ := h n s hs
  exact ⟨n, s', rfl, hs', hrule⟩

namespace KeepsToRules

theorem empty : KeepsToRules none [] ({} : Builder σ) where
  current_eq := rfl
  defined := nofun
  own := nofun
  inner := by simp
  bounds := by simp
  stop := by simp

/-- Fewer states may be at hand. -/
theorem weaken (h : b.KeepsToRules current own) (hsub : new ⊆ own) :
    b.KeepsToRules current new where
  current_eq := h.current_eq
  defined := h.defined
  own id hid := h.own id (hsub hid)
  inner := h.inner
  bounds := h.bounds
  stop := h.stop

/-- A new state without transitions, which is no stop, is at hand then. -/
theorem push (h : b.KeepsToRules current own) {rule : RuleId} (hrule : b.current = some rule)
    {kind : StateKind} (hkind : kind ≠ .ruleStop) :
    { b with states := b.states.push { rule, kind } }.KeepsToRules current
      ((b.states.size : Int) :: own) := by
  have hmono {rule' : RuleId} {id : StateId} (hid : b.IsOf rule' id) :
      { b with states := b.states.push { rule, kind } }.IsOf rule' id :=
    hid.mono fun n s hs => ⟨s, getElem?_push_of_some hs, rfl⟩
  refine ⟨h.current_eq, h.defined, fun id hid => ?_, fun n s hs t ht => ?_, fun n r f hr hf => ?_,
    fun n s hs hk => ?_⟩
  · rcases List.mem_cons.1 hid with rfl | hid
    · exact ⟨rule, h.current_eq ▸ hrule, _, _, rfl, Array.getElem?_push_size, rfl⟩
    · exact (h.own id hid).imp fun _ h => ⟨h.1, hmono h.2⟩
  · rcases getElem?_push_eq_some.1 hs with hs | ⟨_, rfl⟩
    · exact hmono (h.inner n s hs t ht)
    · cases ht
  · exact (h.bounds n r f hr hf).imp hmono hmono
  · rcases getElem?_push_eq_some.1 hs with hs | ⟨_, rfl⟩
    · exact h.stop n s hs hk
    · exact absurd hk hkind

/-- A change of one state that keeps its rule and its kind, and adds transitions only
    that stay within the rule. -/
theorem modify (h : b.KeepsToRules current own) (id : Nat) {f : State → State}
    (decisions : Array StateId) (hrule : ∀ s, (f s).rule = s.rule)
    (hkind : ∀ s, (f s).kind = s.kind)
    (hinner : ∀ s, b.states[id]? = some s → ∀ t ∈ (f s).transitions,
      t ∈ s.transitions ∨ b.IsOf s.rule (Fragment.innerStep t)) :
    { b with states := b.states.modify id f, decisions }.KeepsToRules current own := by
  have hmono {rule' : RuleId} {id' : StateId} (hid : b.IsOf rule' id') :
      { b with states := b.states.modify id f, decisions }.IsOf rule' id' := by
    refine hid.mono fun n s hs => ?_
    rw [Array.getElem?_modify, hs]
    split
    · exact ⟨f s, rfl, hrule s⟩
    · exact ⟨s, rfl, rfl⟩
  have origin {n : Nat} {s' : State} (hs : (b.states.modify id f)[n]? = some s') :
      ∃ s, b.states[n]? = some s ∧ (s' = s ∨ (n = id ∧ s' = f s)) := by
    rw [Array.getElem?_modify] at hs
    split at hs
    · next he =>
      obtain ⟨s, hs₀, rfl⟩ := Option.map_eq_some_iff.1 hs
      exact ⟨s, hs₀, .inr ⟨he.symm, rfl⟩⟩
    · exact ⟨s', hs, .inl rfl⟩
  refine ⟨h.current_eq, h.defined, fun i hi => (h.own i hi).imp fun _ h => ⟨h.1, hmono h.2⟩,
    fun n s' hs t ht => ?_, fun n r fr hr hf => (h.bounds n r fr hr hf).imp hmono hmono,
    fun n s' hs hk => ?_⟩
  · obtain ⟨s, hs₀, rfl | ⟨rfl, rfl⟩⟩ := origin hs
    · exact hmono (h.inner n s' hs₀ t ht)
    · rw [hrule]
      exact hmono ((hinner s hs₀ t ht).elim (h.inner n s hs₀ t) fun ht => ht)
  · obtain ⟨s, hs₀, rfl | ⟨rfl, rfl⟩⟩ := origin hs
    · exact h.stop n s' hs₀ hk
    · rw [hrule]
      exact h.stop n s hs₀ (hkind s ▸ hk)

/-- Where states and rules stay, or rules without bounds are added, nothing changes. -/
theorem of_states (h : b.KeepsToRules current own) (hs : b'.states = b.states)
    (hc : b'.current = b.current)
    (hold : ∀ (n : Nat) (r : RuleDraft σ), b.rules[n]? = some r → b'.rules[n]? = some r)
    (hnew : ∀ (n : Nat) (r : RuleDraft σ), b'.rules[n]? = some r →
      b.rules[n]? = some r ∨ r.bounds = none) : b'.KeepsToRules current own := by
  have hmono {rule' : RuleId} {id : StateId} (hid : b.IsOf rule' id) : b'.IsOf rule' id :=
    hid.mono fun n s hn => ⟨s, hs ▸ hn, rfl⟩
  have hdefined (id : RuleId) (hid : current = some id) : ∃ (n : Nat) (r : RuleDraft σ)
      (f : Fragment), id = n ∧ b'.rules[n]? = some r ∧ r.bounds = some f := by
    obtain ⟨n, r, f, hn, hr, hf⟩ := h.defined id hid
    exact ⟨n, r, f, hn, hold n r hr, hf⟩
  refine ⟨hc.trans h.current_eq, hdefined, fun i hi => (h.own i hi).imp fun _ h => ⟨h.1, hmono h.2⟩,
    fun n s hn t ht => hmono (h.inner n s (hs ▸ hn) t ht), fun n r f hr hf => ?_,
    fun n s hn hk => ?_⟩
  · rcases hnew n r hr with hr | hr
    · exact (h.bounds n r f hr hf).imp hmono hmono
    · rw [hr] at hf
      cases hf
  · obtain ⟨i, r, f, hi, hr, hf⟩ := h.stop n s (hs ▸ hn) hk
    exact ⟨i, r, f, hi, hold i r hr, hf⟩

/-- A rule that is numbered is not defined yet. -/
theorem numbering (h : b.KeepsToRules current own) (name : String) :
    (b.numbering name).2.KeepsToRules current own := by
  rw [Builder.numbering]
  split
  · exact h
  · refine h.of_states rfl rfl (fun n r hr => ?_) fun n r hr => ?_
    · exact getElem?_push_of_some hr
    · rcases getElem?_push_eq_some.1 hr with hr | ⟨_, rfl⟩
      · exact .inl hr
      · exact .inr rfl

end KeepsToRules

end Builder

namespace Builder

/-- What every change keeps that is made where fragments are put together, whatever
    states are at hand; a transition is added only between states at hand. -/
structure Law (P : List StateId → Builder σ → Prop) : Prop where
  weaken {own new : List StateId} {b : Builder σ} : P own b → new ⊆ own → P new b
  state {own : List StateId} {b : Builder σ} {rule : RuleId} {kind : StateKind} : P own b →
    b.current = some rule → kind ≠ .ruleStop →
    P ((b.states.size : Int) :: own) { b with states := b.states.push { rule, kind } }
  connect {own : List StateId} {b : Builder σ} {n : Nat} {t : Transition} : P own b →
    (n : Int) ∈ own → Fragment.innerStep t ∈ own →
    P own { b with states := b.states.modify n fun s => s.connect t }
  mark {own : List StateId} {b : Builder σ} {n : Nat} {nonGreedy : Bool} : P own b →
    P own { b with states := b.states.modify n fun s => { s with exitAlt := 2, nonGreedy } }
  number {own : List StateId} {b : Builder σ} (name : String) : P own b → P own (b.numbering name).2
  loop {own : List StateId} {b : Builder σ} {body : Fragment} : P own b →
    P own { b with loops := b.loops ++ [body] }
  predicate {own : List StateId} {b : Builder σ} {p : Predicate σ} : P own b →
    P own { b with predicates := b.predicates.push p }
  action {own : List StateId} {b : Builder σ} {a : Action σ} : P own b →
    P own { b with actions := b.actions.push a }

/-- Transitions are kept within their rules. -/
theorem keepsToRules_law (current : Option RuleId) :
    Law (σ := σ) (KeepsToRules current) where
  weaken h hsub := h.weaken hsub
  state h hrule hkind := h.push hrule hkind
  connect {own b n t} h hsource htarget := by
    obtain ⟨rule, hrule, k, s, hk, hs, rfl⟩ := h.own _ hsource
    obtain ⟨rule', hrule', hinner⟩ := h.own _ htarget
    obtain rfl : s.rule = rule' := Option.some.inj (hrule.symm.trans hrule')
    obtain rfl := Int.ofNat.inj hk
    refine h.modify n b.decisions (fun _ => rfl) (fun _ => rfl) fun s' hs' t' ht' => ?_
    rw [hs] at hs'
    cases hs'
    rcases List.mem_append.1 ht' with ht' | ht'
    · exact .inl ht'
    · rw [List.mem_singleton.1 ht']
      exact .inr hinner
  mark {own b n nonGreedy} h :=
    h.modify n b.decisions (fun _ => rfl) (fun _ => rfl) fun _ _ _ ht => .inl ht
  number name h := h.numbering name
  loop h := h.of_states rfl rfl (fun _ _ hr => hr) fun _ _ hr => .inl hr
  predicate h := h.of_states rfl rfl (fun _ _ hr => hr) fun _ _ hr => .inl hr
  action h := h.of_states rfl rfl (fun _ _ hr => hr) fun _ _ hr => .inl hr

end Builder

namespace Build

open Builder

/-- A step keeps a property of builders, and has some more states at hand if it
    succeeds. -/
abbrev Composes (P : List StateId → Builder σ → Prop) (own new : List StateId) (op : Build σ α)
    (made : α → List StateId) : Prop :=
  Ensures (P own) (P (new ++ own)) op fun a => P (made a ++ new ++ own)

section

variable {P : List StateId → Builder σ → Prop} (law : Law P) {own new : List StateId}

include law

theorem composes_pure {a : α} {made : α → List StateId} (h : made a ⊆ new ++ own) :
    Ensures (P own) (P (new ++ own)) (Pure.pure a) fun a => P (made a) :=
  Ensures.pure fun _ hb =>
    ⟨law.weaken hb (List.subset_append_right _ _), law.weaken hb h⟩

theorem composes_made {f : Fragment} (h : f.ends ⊆ new) :
    Ensures (P own) (P (new ++ own)) (Pure.pure f) fun f => P (f.ends ++ own) := by
  refine composes_pure law ?_
  exact List.append_subset.2
    ⟨List.subset_append_of_subset_left _ h, List.subset_append_right _ _⟩

theorem newState_composes {kind : StateKind} (hkind : kind ≠ .ruleStop) :
    Composes P own new (newState kind) fun id => [id] := by
  refine newState_ensures kind (fun _ hb => law.weaken hb (List.subset_append_right _ _))
    fun b rule hc hb => ?_
  have hpush := law.state hb hc hkind
  exact ⟨law.weaken hpush (List.subset_cons_of_subset _ (List.subset_append_right _ _)), hpush⟩

theorem connect_composes {source target : StateId} {label : Label} (hs : source ∈ new ++ own)
    (ht : Fragment.innerStep ⟨target, label⟩ ∈ new ++ own) :
    Composes P own new (connect source target label) fun _ => [] := by
  refine connect_ensures (fun _ hb => law.weaken hb (List.subset_append_right _ _)) ?_
  rintro b n rfl hb
  have hm := law.connect (t := ⟨target, label⟩) hb hs ht
  exact ⟨law.weaken hm (List.subset_append_right _ _), hm⟩

theorem join_composes {source target : StateId} (hs : source ∈ new ++ own)
    (ht : target ∈ new ++ own) : Composes P own new (join source target) fun _ => [] :=
  connect_composes law hs ht

theorem chain_composes {parts : List Fragment} (h : ∀ f ∈ parts, f.ends ⊆ new ++ own) :
    Composes P own new (chain parts) fun _ => [] := by
  induction parts with
  | nil => exact composes_pure law (List.Subset.refl _)
  | cons f rest ih =>
    cases rest with
    | nil => exact composes_pure law (List.Subset.refl _)
    | cons g rest =>
      obtain ⟨hf, hrest⟩ := List.forall_mem_cons.1 h
      have hg := (List.forall_mem_cons.1 hrest).1
      exact (join_composes law (hf (by simp [Fragment.ends])) (hg (by simp [Fragment.ends]))).bind
        fun _ => ih hrest

theorem branch_composes {start stop : StateId} {alternatives : List Fragment}
    (hstart : start ∈ new ++ own) (hstop : stop ∈ new ++ own)
    (h : ∀ f ∈ alternatives, f.ends ⊆ new ++ own) :
    Composes P own new (branch start stop alternatives) fun _ => [] := by
  induction alternatives with
  | nil => exact composes_pure law (List.Subset.refl _)
  | cons f rest ih =>
    obtain ⟨hf, hrest⟩ := List.forall_mem_cons.1 h
    exact (join_composes law hstart (hf (by simp [Fragment.ends]))).bind fun _ =>
      (join_composes law (hf (by simp [Fragment.ends])) hstop).bind fun _ => ih hrest

theorem markLoop_composes (state : StateId) (nonGreedy : Bool) :
    Composes P own new (markLoop state nonGreedy) fun _ => [] :=
  Ensures.modify fun _ hb =>
    have h := law.mark hb
    ⟨law.weaken h (List.subset_append_right _ _), h⟩

/-- Two new states may be joined under a label that does not lead out of the rule. -/
theorem element_composes {label : Label} (h : ∀ id, Fragment.innerStep ⟨id, label⟩ = id) :
    Composes P own [] (element label) Fragment.ends :=
  (newState_composes law (by decide)).bind fun start =>
    (newState_composes law (by decide)).bind fun stop =>
    (connect_composes law (by simp) (by simp [h])).bind fun _ =>
    composes_made law (by simp [Fragment.ends])

theorem epsilon_composes : Composes P own new epsilon Fragment.ends :=
  (newState_composes law (by decide)).bind fun _ => composes_pure law (by simp [Fragment.ends])

theorem sequence_composes {parts : List Fragment} (h : ∀ f ∈ parts, f.ends ⊆ new ++ own) :
    Composes P own new (sequence parts) Fragment.ends := by
  rw [sequence]
  split
  · next first last hfirst hlast =>
    have hf := h first (List.mem_of_mem_head? hfirst)
    have hl := h last (List.mem_of_getLast? hlast)
    refine (chain_composes law h).bind fun _ => composes_pure law ?_
    simp_all [Fragment.ends]
  · exact epsilon_composes law

theorem block_composes {alternatives : List Fragment}
    (h : ∀ f ∈ alternatives, f.ends ⊆ new ++ own) :
    Composes P own new (block alternatives) Fragment.ends := by
  match alternatives with
  | [] => exact Ensures.throw fun _ hb => law.weaken hb (List.subset_append_right _ _)
  | [f] =>
    have hf := h f List.mem_cons_self
    exact composes_pure law (by simp_all)
  | f :: g :: rest =>
    refine (newState_composes law (by decide)).bind fun start =>
      (newState_composes law (by decide)).bind fun stop =>
      (branch_composes law (by simp) (by simp) fun f hf id hid => ?_).bind fun _ =>
      composes_pure law (by simp [Fragment.ends])
    exact List.mem_cons_of_mem _ (List.mem_cons_of_mem _ (h f hf hid))

theorem loopBody_composes {alternatives : List Fragment} (greediness : Greediness)
    (h : ∀ f ∈ alternatives, f.ends ⊆ new ++ own) :
    Composes P own new (loopBody alternatives greediness) fun r => r.1.ends := by
  refine (block_composes law h).bind fun body b hb => ?_
  rw [bind_apply, get_apply]
  dsimp only
  cases b.loopError? [] body with
  | some error => exact ⟨law.weaken hb (List.subset_append_right _ _), by rintro _ ⟨⟩⟩
  | none =>
    have hs : P _ { b with loops := b.loops ++ [body] } := law.loop hb
    refine ⟨law.weaken hs (List.subset_append_right _ _), fun _ hr => ?_⟩
    cases hr
    exact hs

theorem star_composes {alternatives : List Fragment} (greediness : Greediness)
    (h : ∀ f ∈ alternatives, f.ends ⊆ own) :
    Composes P own [] (star alternatives greediness) Fragment.ends :=
  (loopBody_composes law greediness h).bind fun r =>
    (newState_composes law (by decide)).bind fun entry =>
    (newState_composes law (by decide)).bind fun back =>
    (newState_composes law (by decide)).bind fun stop =>
    (join_composes law (by simp) (by simp [Fragment.ends])).bind fun _ =>
    (join_composes law (by simp) (by simp)).bind fun _ =>
    (join_composes law (by simp [Fragment.ends]) (by simp)).bind fun _ =>
    (join_composes law (by simp) (by simp)).bind fun _ =>
    (markLoop_composes law _ _).bind fun _ =>
    composes_made law (by simp [Fragment.ends])

theorem plus_composes {alternatives : List Fragment} (greediness : Greediness)
    (h : ∀ f ∈ alternatives, f.ends ⊆ own) :
    Composes P own [] (plus alternatives greediness) Fragment.ends :=
  (loopBody_composes law greediness h).bind fun r =>
    (newState_composes law (by decide)).bind fun back =>
    (newState_composes law (by decide)).bind fun stop =>
    (join_composes law (by simp [Fragment.ends]) (by simp)).bind fun _ =>
    (join_composes law (by simp) (by simp [Fragment.ends])).bind fun _ =>
    (join_composes law (by simp) (by simp)).bind fun _ =>
    (markLoop_composes law _ _).bind fun _ =>
    composes_made law (by simp [Fragment.ends])

theorem call_composes (name : String) : Composes P own [] (call name) Fragment.ends := by
  have hnumber : Ensures (P own) (P own) (ruleNumber name) fun _ => P own := by
    intro b hb
    rw [ruleNumber_eq]
    exact ⟨law.number name hb, fun _ _ => law.number name hb⟩
  have hnew : Composes P own [] (newState .basic) fun id => [id] :=
    newState_composes law (by decide)
  exact hnumber.bind fun rule => hnew.bind fun start =>
    (newState_composes law (by decide)).bind fun stop =>
    (connect_composes law (by simp) (by simp [Fragment.innerStep])).bind fun _ =>
    composes_made law (by simp [Fragment.ends])

/-- A step keeps what every change keeps, if it puts fragments at hand together. -/
theorem IsStepOn.composes {fragments : List Fragment} {op : Build σ Fragment}
    (h : IsStepOn fragments op) :
    Composes P (fragments.flatMap Fragment.ends) [] op Fragment.ends := by
  have own {parts : List Fragment} (hparts : ∀ f ∈ parts, f ∈ fragments) :
      ∀ f ∈ parts, f.ends ⊆ fragments.flatMap Fragment.ends :=
    fun f hf _ hid => List.mem_flatMap.2 ⟨f, hparts f hf, hid⟩
  cases h with
  | token type => exact element_composes law fun _ => rfl
  | range low high =>
    rw [Build.range]
    split
    · exact Ensures.throw fun _ hb => hb
    · exact element_composes law fun _ => rfl
  | oneOf types =>
    rw [Build.oneOf]
    split
    · exact Ensures.throw fun _ hb => hb
    · exact element_composes law fun _ => rfl
  | noneOf types => exact element_composes law fun _ => rfl
  | wildcard => exact element_composes law fun _ => rfl
  | epsilon => exact epsilon_composes law
  | call name => exact call_composes law name
  | predicate p =>
    refine Ensures.get fun b => Ensures.bind (Q := fun _ => P _)
      (Ensures.modify fun c hc => ?_) fun _ => element_composes law fun _ => rfl
    exact ⟨law.predicate hc.2, law.predicate hc.2⟩
  | action a =>
    refine Ensures.get fun b => Ensures.bind (Q := fun _ => P _)
      (Ensures.modify fun c hc => ?_) fun _ => element_composes law fun _ => rfl
    exact ⟨law.action hc.2, law.action hc.2⟩
  | sequence hparts => exact sequence_composes law (own hparts)
  | block hparts => exact block_composes law (own hparts)
  | @optional alternatives hparts =>
    refine (epsilon_composes law).bind fun empty => ?_
    have hempty : ∀ f ∈ alternatives ++ [empty],
        f.ends ⊆ empty.ends ++ [] ++ fragments.flatMap Fragment.ends := by
      intro f hf
      rcases List.mem_append.1 hf with hf | hf
      · exact fun _ hid => List.mem_append_right _ (own hparts f hf hid)
      · rw [List.mem_singleton.1 hf, List.append_nil]
        exact List.subset_append_left _ _
    refine (block_composes law hempty).weaken fun f b hb => law.weaken hb ?_
    simp
  | star greediness hparts => exact star_composes law greediness (own hparts)
  | plus greediness hparts => exact plus_composes law greediness (own hparts)

end

end Build

/-! ## Rules -/

theorem Build.current_of_openRule {name : String} {signature : Signature σ} {b b' : Builder σ}
    {id : RuleId} (h : Build.openRule name signature b = (.ok id, b')) : b'.current = some id := by
  obtain ⟨e, he⟩ | ⟨_, _, _, ho⟩ := Build.openRule_cases name signature b
  · rw [he] at h
    cases h
  · rw [ho] at h
    cases h
    rfl

namespace Builder

variable {b : Builder σ} {current : Option RuleId} {own : List StateId}

/-- A rule that is opened has a start and a stop of its own. -/
theorem KeepsToRules.opened (h : b.KeepsToRules none own) (name : String) (signature : Signature σ)
    (hnone : ∀ r, (b.numbering name).2.rules[(b.numbering name).1]? = some r → r.bounds = none) :
    (b.opened name signature).KeepsToRules (some ((b.numbering name).1 : Int)) own := by
  have hlt := b.numbering_lt name
  replace h := h.numbering name
  rw [Builder.opened]
  generalize b.numbering name = numbered at hnone hlt h ⊢
  obtain ⟨k, b⟩ := numbered
  dsimp only at hnone hlt h ⊢
  let start : State := { rule := k, kind := .ruleStart }
  let stop : State := { rule := k, kind := .ruleStop }
  let bounds : Fragment := { start := b.states.size, stop := b.states.size + 1 }
  have hstart : ((b.states.push start).push stop)[b.states.size]? = some start :=
    getElem?_push_of_some Array.getElem?_push_size
  have hstop : ((b.states.push start).push stop)[b.states.size + 1]? = some stop := by
    rw [← Array.size_push (v := start), Array.getElem?_push_size]
  have origin {n : Nat} {s : State} (hs : ((b.states.push start).push stop)[n]? = some s) :
      b.states[n]? = some s ∨ (n = b.states.size ∧ s = start) ∨
        (n = b.states.size + 1 ∧ s = stop) := by
    rcases getElem?_push_eq_some.1 hs with hs | ⟨hn, rfl⟩
    · rcases getElem?_push_eq_some.1 hs with hs | ⟨hn, rfl⟩
      · exact .inl hs
      · exact .inr (.inl ⟨hn, rfl⟩)
    · exact .inr (.inr ⟨hn.trans (Array.size_push start), rfl⟩)
  have hmono {b' : Builder σ} (hb' : b'.states = (b.states.push start).push stop) {rule : RuleId}
      {id : StateId} (hid : b.IsOf rule id) : b'.IsOf rule id :=
    hid.mono fun n s hs => ⟨s, hb' ▸ getElem?_push_of_some (getElem?_push_of_some hs), rfl⟩
  have hrule : (b.rules.modify k fun r => { r with signature, bounds := some bounds })[k]? =
      some { b.rules[k] with signature, bounds := some bounds } := by
    rw [Array.getElem?_modify, if_pos rfl, Array.getElem?_eq_getElem hlt]
    rfl
  refine ⟨rfl, fun id hid => ⟨k, _, bounds, (Option.some.inj hid).symm, hrule, rfl⟩,
    fun id hid => ?_, fun n s hs t ht => ?_, fun n r f hr hf => ?_, fun n s hs hk => ?_⟩
  · obtain ⟨_, hcurrent, _⟩ := h.own id hid
    cases hcurrent
  · rcases origin hs with hs | ⟨_, rfl⟩ | ⟨_, rfl⟩
    · exact hmono rfl (h.inner n s hs t ht)
    · cases ht
    · cases ht
  · rw [Array.getElem?_modify] at hr
    split at hr
    · next hk =>
      subst hk
      obtain ⟨_, _, rfl⟩ := Option.map_eq_some_iff.1 hr
      cases hf
      exact ⟨⟨_, start, rfl, hstart, rfl⟩, ⟨_, stop, rfl, hstop, rfl⟩⟩
    · exact (h.bounds n r f hr hf).imp (hmono rfl) (hmono rfl)
  · rcases origin hs with hs | ⟨_, rfl⟩ | ⟨rfl, rfl⟩
    · -- The rule of a stop that was there has been defined before, so it is another one.
      obtain ⟨i, r, f, hi, hr, hf, hn⟩ := h.stop n s hs hk
      have hik : k ≠ i := by
        rintro rfl
        rw [hnone r hr] at hf
        cases hf
      exact ⟨i, r, f, hi, by rw [Array.getElem?_modify, if_neg hik, hr], hf, hn⟩
    · cases hk
    · exact ⟨k, _, bounds, rfl, hrule, rfl, rfl⟩

/-- Ending a rule joins its start and its stop to its body. -/
theorem KeepsToRules.closeRule {id : RuleId} {body : Fragment}
    (h : b.KeepsToRules (some id) own) (hbody : body.ends ⊆ own) :
    (Build.closeRule id body b).2.KeepsToRules none [] := by
  obtain ⟨n, r, f, rfl, hr, hf⟩ := h.defined id rfl
  -- The start and the stop of the rule are at hand as well.
  have hown : b.KeepsToRules (some (n : Int)) (f.ends ++ own) := by
    refine ⟨h.current_eq, h.defined, fun i hi => ?_, h.inner, h.bounds, h.stop⟩
    obtain ⟨hstart, hstop⟩ := h.bounds n r f hr hf
    rcases List.mem_append.1 hi with hi | hi
    · rcases List.mem_pair.1 hi with rfl | rfl
      · exact ⟨n, rfl, hstart⟩
      · exact ⟨n, rfl, hstop⟩
    · exact h.own i hi
  have join {b : Builder σ} (hb : b.KeepsToRules (some (n : Int)) (f.ends ++ own))
      (source target : StateId) (hs : source ∈ f.ends ++ own) (ht : target ∈ f.ends ++ own) :
      ∃ b', Build.join source target b = (.ok ⟨⟩, b') ∧
        b'.KeepsToRules (some (n : Int)) (f.ends ++ own) := by
    obtain ⟨_, _, k, s, rfl, hk, _⟩ := hb.own source hs
    have hjoin := Build.connect_eq (Array.getElem?_eq_some_iff.1 hk).1 target .epsilon
    have hjoins : Build.Composes (σ := σ) (KeepsToRules (some (n : Int))) (f.ends ++ own) []
        (Build.join k target) fun _ => [] := Build.join_composes (keepsToRules_law _) hs ht
    have hkeep := (hjoins b hb).2 ⟨⟩ (congrArg Prod.fst hjoin)
    rw [Build.join, hjoin] at hkeep
    exact ⟨_, hjoin, hkeep⟩
  obtain ⟨b₁, h₁, hb₁⟩ := join hown f.start body.start
    (by simp [Fragment.ends]) (List.mem_append_right _ (hbody (by simp [Fragment.ends])))
  obtain ⟨b₂, h₂, hb₂⟩ := join hb₁ body.stop f.stop
    (List.mem_append_right _ (hbody (by simp [Fragment.ends]))) (by simp [Fragment.ends])
  rw [Build.closeRule_eq (bounds_eq hr hf), bind_apply, h₁]
  dsimp only
  rw [bind_apply, h₂]
  exact ⟨rfl, nofun, nofun, hb₂.inner, hb₂.bounds, hb₂.stop⟩

theorem KeepsToRules.numberDecisions (h : b.KeepsToRules current own) :
    b.numberDecisions.KeepsToRules current own :=
  numberDecisions_keeps h fun _ n hc =>
    hc.modify n _ (fun _ => rfl) (fun _ => rfl) fun _ _ _ ht => .inl ht

/-- Transitions stay within their rules where a grammar is composed. -/
theorem IsComposed.keepsToRules {own : List Fragment} (h : b.IsComposed own) :
    b.KeepsToRules b.current (own.flatMap Fragment.ends) := by
  induction h with
  | empty => exact .empty
  | @step b own op _ hop ih =>
    obtain ⟨hkeep, hmade⟩ := hop.composes (keepsToRules_law _) b ih
    rcases hr : op b with ⟨e | f, b'⟩
    · rw [hr] at hkeep
      exact hkeep.current_eq ▸ hkeep
    · rw [hr] at hmade
      have hmade := hmade f rfl
      exact hmade.current_eq ▸ hmade
  | @openRule b own name signature _ ih =>
    obtain ⟨e, he⟩ | ⟨hcurrent, _, hnone, ho⟩ := Build.openRule_cases name signature b
    · rwa [he]
    · rw [ho]
      exact (hcurrent ▸ ih).opened name signature hnone
  | @closeRule b own id body _ hcurrent hbody ih =>
    have hown : body.ends ⊆ own.flatMap Fragment.ends :=
      fun _ hid => List.mem_flatMap.2 ⟨body, hbody, hid⟩
    have h := (hcurrent ▸ ih).closeRule hown
    exact h.current_eq ▸ h
  | @finish b own _ ih =>
    obtain ⟨e, he⟩ | ⟨e, he⟩ | ⟨_, he⟩ := finish_cases b <;> rw [he]
    · exact ih
    · exact ih.numberDecisions.current_eq ▸ ih.numberDecisions
    · have h := ih.numberDecisions
      exact (h.current_eq ▸ h).of_states rfl rfl (fun _ _ hr => hr) fun _ _ hr => .inl hr

end Builder

/-! ## Grammars that are composed -/

/-- Where a run comes to if it returns from all its calls. -/
def Point.outermost (p : Point) : StateId :=
  p.context.getLastD p.state

namespace Network

variable (net : Network)

/-- A state belongs to a rule. -/
def IsOf (rule : RuleId) (id : StateId) : Prop :=
  ∃ s, net.state id = .ok s ∧ s.rule = rule

/-- Transitions stay within their rules, but for the calls they make. A rule begins in
    a state of its own, and a stop is that of its rule. -/
structure KeepsToRules : Prop where
  inner : ∀ (id : StateId) (s : State), net.state id = .ok s → ∀ t ∈ s.transitions,
    net.IsOf s.rule (Fragment.innerStep t)
  start : ∀ (id : RuleId) (r : Rule), net.rule id = .ok r → net.IsOf id r.start
  stop : ∀ (id : StateId) (s : State), net.state id = .ok s → s.kind = .ruleStop →
    ∃ r, net.rule s.rule = .ok r ∧ r.stop = id

variable {net} {p q : Point} {w : List Int} {rule : RuleId}

namespace KeepsToRules

theorem innerStep (h : net.KeepsToRules) {id : StateId} {t : Transition}
    (ht : net.HasTransition id t) (hid : net.IsOf rule id) :
    net.IsOf rule (Fragment.innerStep t) := by
  obtain ⟨s, hs, _, hmem⟩ := ht
  obtain ⟨s', hs', rfl⟩ := hid
  obtain rfl := Except.ok.inj (hs.symm.trans hs')
  exact h.inner id s hs t hmem

/-- There is one stop in a rule. -/
theorem eq_stop (h : net.KeepsToRules) {id : StateId} (hstop : net.IsStop id)
    (hid : net.IsOf rule id) {r : Rule} (hr : net.rule rule = .ok r) : id = r.stop := by
  obtain ⟨s, hs, hk⟩ := hstop
  obtain ⟨s', hs', rfl⟩ := hid
  obtain rfl := Except.ok.inj (hs.symm.trans hs')
  obtain ⟨r', hr', rfl⟩ := h.stop id s hs hk
  rw [Except.ok.inj (hr.symm.trans hr')]

/-- Within the outermost invocation, a transition stays in its rule. -/
theorem isOf_outermost (h : net.KeepsToRules) {id : StateId} {t : Transition}
    {context : List StateId} (ht : net.HasTransition id t)
    (hp : net.IsOf rule (Point.mk id context).outermost) :
    net.IsOf rule (Point.mk (Fragment.innerStep t) context).outermost := by
  cases context with
  | nil => exact h.innerStep ht hp
  | cons follow context => exact hp

/-- A run that returns from all its calls ends in the rule it has begun in. -/
theorem isOf_of_run (h : net.KeepsToRules) (hrun : net.Run p w q)
    (hp : net.IsOf rule p.outermost) : net.IsOf rule q.outermost := by
  induction hrun with
  | refl => exact hp
  | @free p q r w hs _ ih =>
    refine ih ?_
    cases hs with
    | epsilon ht => exact h.isOf_outermost ht hp
    | predicate ht => exact h.isOf_outermost ht hp
    | action ht => exact h.isOf_outermost ht hp
    | call ht =>
      have hfollow := h.isOf_outermost ht hp
      rwa [Point.outermost, List.getLastD_cons]
    | exit =>
      rwa [Point.outermost, List.getLastD_cons] at hp
  | @token id t context type w r ht ha _ ih =>
    have htarget := h.isOf_outermost ht hp
    obtain ⟨target, label⟩ := t
    cases label with
    | call => cases ha
    | _ => exact ih htarget

end KeepsToRules

end Network

namespace Builder

theorem innerStep_link (b : Builder σ) (t : Transition) :
    Fragment.innerStep (b.link t) = Fragment.innerStep t := by
  obtain ⟨target, label⟩ := t
  cases label <;> rfl

end Builder

/-- In a grammar that is composed, transitions stay within their rules. -/
theorem Grammar.IsComposed.keepsToRules {g : Grammar σ} (h : g.IsComposed) :
    g.toNetwork.KeepsToRules := by
  obtain ⟨b, own, hb, hg⟩ := h
  obtain ⟨he, rfl⟩ := Builder.finish_eq_ok hg
  have hrules := (Builder.of_error?_eq_none he).1
  have hkeep := hb.keepsToRules.numberDecisions
  generalize b.numberDecisions = b at he hrules hkeep
  have isOf {rule : RuleId} {id : StateId} (hid : b.IsOf rule id) :
      b.grammar.toNetwork.IsOf rule id := by
    obtain ⟨n, s, rfl, hs, rfl⟩ := hid
    exact ⟨_, Builder.state_grammar.2 ⟨n, s, rfl, hs, rfl⟩, rfl⟩
  constructor
  case inner =>
    intro id s hs t ht
    obtain ⟨n, s₀, rfl, hs₀, rfl⟩ := Builder.state_grammar.1 hs
    obtain ⟨t₀, ht₀, rfl⟩ := List.mem_map.1 ht
    rw [Builder.innerStep_link]
    exact isOf (hkeep.inner n s₀ hs₀ t₀ ht₀)
  case start =>
    intro id r hr
    obtain ⟨n, hlt, rfl, rfl⟩ := Builder.rule_grammar_eq_ok hr
    have hn := Array.getElem?_eq_getElem hlt
    obtain ⟨f, hf⟩ := Option.isSome_iff_exists.1 (hrules n _ hn)
    have hbounds : b.bounds n = f := Builder.bounds_eq hn hf
    exact isOf (hbounds ▸ (hkeep.bounds n _ f hn hf).1)
  case stop =>
    intro id s hs hk
    obtain ⟨n, s₀, rfl, hs₀, rfl⟩ := Builder.state_grammar.1 hs
    obtain ⟨i, r, f, hi, hr, hf, hn⟩ := hkeep.stop n s₀ hs₀ hk
    refine ⟨_, hi ▸ b.rule_grammar (Array.getElem?_eq_some_iff.1 hr).1, ?_⟩
    show (b.bounds s₀.rule).stop = n
    rw [hi, Builder.bounds_eq hr hf, hn]

/-! ## Grammars of rule bodies -/

namespace Builder

/-- A step leads from builders that are composed to such builders; the rule that is
    open and its fragments stay, and what is made is one of them. -/
def Adds (own : List Fragment) (op : Build σ α) (made : α → List Fragment) : Prop :=
  ∀ b : Builder σ, b.IsComposed own → ∃ own', (op b).2.IsComposed own' ∧
    (op b).2.current = b.current ∧ own ⊆ own' ∧ ∀ a, (op b).1 = .ok a → made a ⊆ own'

theorem adds_of_isStepOn {own : List Fragment} {op : Build σ Fragment}
    (h : Build.IsStepOn own op) : Adds own op fun f => [f] := by
  intro b hb
  have hkeeps := (h.composes (keepsToRules_law _) b hb.keepsToRules).1
  refine ⟨_, hb.step h, hkeeps.current_eq, List.subset_append_right _ _, fun f hf => ?_⟩
  rw [hf]
  simp [Except.toOption]

theorem Adds.bind {own : List Fragment} {op : Build σ α} {f : α → Build σ β}
    {made : α → List Fragment} {made' : β → List Fragment} (h : Adds own op made)
    (hf : ∀ a own', own ⊆ own' → made a ⊆ own' → Adds own' (f a) made') :
    Adds own (op >>= f) made' := by
  intro b hb
  obtain ⟨own', hb', hcurrent, hown, hmade⟩ := h b hb
  rw [bind_apply]
  rcases hr : op b with ⟨e | a, b'⟩
  · rw [hr] at hb' hcurrent
    exact ⟨own', hb', hcurrent, hown, nofun⟩
  · rw [hr] at hb' hcurrent hmade
    obtain ⟨own'', hb'', hcurrent', hown', hmade'⟩ := hf a own' hown (hmade a rfl) b' hb'
    exact ⟨own'', hb'', hcurrent'.trans hcurrent, List.Subset.trans hown hown', hmade'⟩

theorem adds_pure {own : List Fragment} {a : α} {made : α → List Fragment} (h : made a ⊆ own) :
    Adds own (pure a : Build σ α) made := by
  refine fun b hb => ⟨own, hb, rfl, List.Subset.refl _, fun _ ha => ?_⟩
  cases ha
  exact h

end Builder

mutual

theorem Body.adds_build (body : Body σ) {own : List Fragment} :
    Builder.Adds own body.build fun f => [f] := by
  have combine (parts : List (Body σ)) {op : List Fragment → Build σ Fragment}
      (hparts : Builder.Adds own (Body.buildAll parts) fun fragments => fragments)
      (hop : ∀ own' fragments, (∀ f ∈ fragments, f ∈ own') → Build.IsStepOn own' (op fragments)) :
      Builder.Adds own (do op (← Body.buildAll parts)) fun f => [f] :=
    hparts.bind fun fragments own' _ hmade =>
      Builder.adds_of_isStepOn (hop own' fragments fun _ hf => hmade hf)
  match body with
  | .token type => exact Builder.adds_of_isStepOn (.token type)
  | .range low high => exact Builder.adds_of_isStepOn (.range low high)
  | .oneOf types => exact Builder.adds_of_isStepOn (.oneOf types)
  | .noneOf types => exact Builder.adds_of_isStepOn (.noneOf types)
  | .wildcard => exact Builder.adds_of_isStepOn .wildcard
  | .epsilon => exact Builder.adds_of_isStepOn .epsilon
  | .call rule => exact Builder.adds_of_isStepOn (.call rule)
  | .predicate p => exact Builder.adds_of_isStepOn (.predicate p)
  | .action a => exact Builder.adds_of_isStepOn (.action a)
  | .sequence parts => exact combine parts (Body.adds_buildAll parts) fun _ _ => .sequence
  | .block parts => exact combine parts (Body.adds_buildAll parts) fun _ _ => .block
  | .optional parts => exact combine parts (Body.adds_buildAll parts) fun _ _ => .optional
  | .star parts greediness =>
    exact combine parts (Body.adds_buildAll parts) fun _ _ => .star greediness
  | .plus parts greediness =>
    exact combine parts (Body.adds_buildAll parts) fun _ _ => .plus greediness

theorem Body.adds_buildAll (bodies : List (Body σ)) {own : List Fragment} :
    Builder.Adds own (Body.buildAll bodies) fun fragments => fragments := by
  match bodies with
  | [] => exact Builder.adds_pure (List.nil_subset _)
  | body :: rest =>
    refine (Body.adds_build body).bind fun f own' _ hf =>
      (Body.adds_buildAll rest).bind fun fragments own'' hown hmade => Builder.adds_pure ?_
    exact List.cons_subset.2 ⟨hown (hf List.mem_cons_self), hmade⟩

end

namespace Grammar

/-- A rule that is defined by an expression is composed of its own fragments. -/
theorem isComposed_rule (r : RuleDefinition σ) {b : Builder σ} {own : List Fragment}
    (h : b.IsComposed own) :
    ∃ own', (Build.rule r.name r.signature r.body.build b).2.IsComposed own' := by
  let P (b : Builder σ) : Prop := ∃ own, b.IsComposed own
  have hopen := h.openRule r.name r.signature
  refine of_bind (P := P) ⟨own, hopen⟩ fun id b₁ hid _ => ?_
  have hcurrent := Build.current_of_openRule hid
  rw [hid] at hopen
  obtain ⟨own₂, hbody, hcurrent', _, hmade⟩ := r.body.adds_build b₁ hopen
  refine of_bind (P := P) ⟨own₂, hbody⟩ fun f b₂ hf _ => ?_
  rw [hf] at hbody hcurrent' hmade
  have hclose := hbody.closeRule (hcurrent'.trans hcurrent) (hmade f rfl List.mem_cons_self)
  exact of_bind (P := P) ⟨[], hclose⟩ fun _ _ _ hb => hb

theorem isComposed_define (rules : List (RuleDefinition σ)) {b : Builder σ} {own : List Fragment}
    (h : b.IsComposed own) : ∃ own', (define rules b).2.IsComposed own' := by
  induction rules generalizing b own with
  | nil => exact ⟨own, h⟩
  | cons r rest ih =>
    let P (b : Builder σ) : Prop := ∃ own, b.IsComposed own
    refine of_bind (P := P) (isComposed_rule r h) fun _ b' _ hb => ?_
    obtain ⟨own', hb⟩ := hb
    exact ih hb

/-- The grammar of some rules is composed. -/
theorem isComposed_ofRules {rules : List (RuleDefinition σ)} {g : Grammar σ}
    (h : ofRules rules = .ok g) : g.IsComposed := by
  obtain ⟨b, hdefine, hfinish⟩ := exists_of_ofRules h
  obtain ⟨own, hb⟩ := isComposed_define rules Builder.IsComposed.empty
  rw [hdefine] at hb
  exact ⟨b, own, hb, hfinish⟩

/-- Rules that a grammar can be made of make a grammar that is composed. -/
theorem isComposed_getD {rules : List (RuleDefinition σ)}
    (h : (ofRules rules).toOption.isSome = true) (g : Grammar σ) :
    ((ofRules rules).toOption.getD g).IsComposed := by
  cases hr : ofRules rules with
  | error e =>
    rw [hr] at h
    cases h
  | ok g => exact isComposed_ofRules hr

end Grammar

end AdaptiveLL
