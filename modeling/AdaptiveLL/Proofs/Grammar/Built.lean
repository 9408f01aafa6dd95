import AdaptiveLL.Grammar.Body
import AdaptiveLL.Proofs.Effect
import AdaptiveLL.Proofs.Network.Acceptance

/-!
# Grammars that can be built

A builder is *reachable* if some sequence of steps leads to it from the empty
one, where any step may fail and be followed by others, and fragments may be
any two states (`Builder.IsReachable`). A grammar is *built* if a reachable
builder gives it (`Grammar.IsBuilt`).

What every step keeps (`Builder.IsSound`) is that labels and states refer to
what there is, that a rule ends in a stop, and that a decision is known by its
number. A grammar that is built has more (`Grammar.IsSound`): the decisions are
exactly the states with several ways on, which are all empty.
-/

namespace AdaptiveLL

variable {σ α β : Type}

/-- The steps that put fragments together. -/
inductive Build.IsStep : {α : Type} → Build σ α → Prop
  | token (type : Int) : IsStep (Build.token type)
  | range (low high : Int) : IsStep (Build.range low high)
  | oneOf (types : List Int) : IsStep (Build.oneOf types)
  | noneOf (types : List Int) : IsStep (Build.noneOf types)
  | wildcard : IsStep Build.wildcard
  | epsilon : IsStep Build.epsilon
  | call (name : String) : IsStep (Build.call name)
  | predicate (p : Predicate σ) : IsStep (Build.predicate p)
  | action (a : Action σ) : IsStep (Build.action a)
  | sequence (parts : List Fragment) : IsStep (Build.sequence parts)
  | block (alternatives : List Fragment) : IsStep (Build.block alternatives)
  | optional (alternatives : List Fragment) : IsStep (Build.optional alternatives)
  | star (alternatives : List Fragment) (greediness : Greediness) :
    IsStep (Build.star alternatives greediness)
  | plus (alternatives : List Fragment) (greediness : Greediness) :
    IsStep (Build.plus alternatives greediness)

/-- The builders that steps lead to, whether they succeed or fail. -/
inductive Builder.IsReachable : Builder σ → Prop
  | empty : IsReachable {}
  | step {b : Builder σ} {α : Type} {op : Build σ α} : IsReachable b → Build.IsStep op →
    IsReachable (op b).2
  | openRule {b : Builder σ} (name : String) (signature : Signature σ) : IsReachable b →
    IsReachable (Build.openRule name signature b).2
  | closeRule {b : Builder σ} (id : RuleId) (body : Fragment) : IsReachable b →
    IsReachable (Build.closeRule id body b).2
  | finish {b : Builder σ} : IsReachable b → IsReachable (Build.finish b).2

/-- Some steps lead to a builder that gives the grammar. -/
def Grammar.IsBuilt (g : Grammar σ) : Prop :=
  ∃ b : Builder σ, b.IsReachable ∧ (Build.finish b).1 = .ok g

/-! ## What is kept while a grammar is built -/

/-- An element of an array that has got one more was there before, or is the new one. -/
theorem getElem?_push_eq_some {xs : Array α} {x a : α} {n : Nat} :
    (xs.push x)[n]? = some a ↔ xs[n]? = some a ∨ (n = xs.size ∧ x = a) := by
  rw [Array.getElem?_push]
  split
  · next h => simp [h]
  · next h => simp [h]

theorem getElem?_push_of_some {xs : Array α} {x a : α} {n : Nat} (h : xs[n]? = some a) :
    (xs.push x)[n]? = some a :=
  getElem?_push_eq_some.2 (.inl h)

namespace Builder

/-- What a label refers to exists, and one that consumes a token matches some. -/
def Allows (b : Builder σ) : Label → Prop
  | .call rule _ => ∃ n : Nat, rule = n ∧ n < b.rules.size
  | .predicate index => ∃ n : Nat, index = n ∧ n < b.predicates.size
  | .action index => ∃ n : Nat, index = n ∧ n < b.actions.size
  | label => label.isFree = false → ∃ type, label.accepts type = true

/-- States and labels refer to what exists, a rule that is defined ends in a
    stop, and a decision is known by its number. -/
structure IsSound (b : Builder σ) : Prop where
  rule : ∀ (i : Nat) (s : State), b.states[i]? = some s → ∃ n : Nat, s.rule = n ∧ n < b.rules.size
  label : ∀ (i : Nat) (s : State), b.states[i]? = some s → ∀ t ∈ s.transitions, b.Allows t.label
  current : ∀ id, b.current = some id → ∃ n : Nat, id = n ∧ n < b.rules.size
  bounds : ∀ (i : Nat) (r : RuleDraft σ) (f : Fragment), b.rules[i]? = some r →
    r.bounds = some f → ∃ (n : Nat) (s : State), f.stop = n ∧ b.states[n]? = some s ∧
      s.kind = .ruleStop
  decision : ∀ (i : Nat) (s : State) (n : Nat), b.states[i]? = some s → s.decision = some n →
    b.decisions[n]? = some (i : Int) ∧ 2 ≤ s.transitions.length

/-- The builder is sound, and a label is allowed. -/
def SoundFor (l : Label) (b : Builder σ) : Prop :=
  b.IsSound ∧ b.Allows l

theorem Allows.mono {b b' : Builder σ} {l : Label} (h : b.Allows l)
    (hr : b.rules.size ≤ b'.rules.size) (hp : b.predicates.size ≤ b'.predicates.size)
    (ha : b.actions.size ≤ b'.actions.size) : b'.Allows l := by
  cases l with
  | call => exact h.imp fun n hn => ⟨hn.1, hn.2.trans_le hr⟩
  | predicate => exact h.imp fun n hn => ⟨hn.1, hn.2.trans_le hp⟩
  | action => exact h.imp fun n hn => ⟨hn.1, hn.2.trans_le ha⟩
  | _ => exact h

theorem allows_epsilon (b : Builder σ) : b.Allows .epsilon := by
  intro h
  cases h

theorem isSound_empty : ({} : Builder σ).IsSound where
  rule := by simp
  label := by simp
  current := by simp
  bounds := by simp
  decision := by simp

/-- A new state of a rule that exists changes nothing else. -/
theorem IsSound.push {b : Builder σ} (h : b.IsSound) {s : State} {n : Nat} (hs : s.rule = n)
    (hn : n < b.rules.size) (ht : s.transitions = []) (hd : s.decision = none) :
    { b with states := b.states.push s }.IsSound where
  rule i s' hi := by
    rcases getElem?_push_eq_some.1 hi with hi | ⟨_, rfl⟩
    · exact h.rule i s' hi
    · exact ⟨n, hs, hn⟩
  label i s' hi := by
    rcases getElem?_push_eq_some.1 hi with hi | ⟨_, rfl⟩
    · exact h.label i s' hi
    · simp [ht]
  current := h.current
  bounds i r f hr hf := by
    obtain ⟨k, s', hk, hs', hkind⟩ := h.bounds i r f hr hf
    exact ⟨k, s', hk, getElem?_push_of_some hs', hkind⟩
  decision i s' k hi hk := by
    rcases getElem?_push_eq_some.1 hi with hi | ⟨_, rfl⟩
    · exact h.decision i s' k hi hk
    · rw [hd] at hk
      cases hk

/-- A change of one state that keeps its rule and its kind, adds transitions only that
    are allowed and makes it a decision only under its number. -/
theorem IsSound.modifyState {b : Builder σ} (h : b.IsSound) (id : Nat) {f : State → State}
    {decisions : Array StateId} (hrule : ∀ s, (f s).rule = s.rule)
    (hkind : ∀ s, (f s).kind = s.kind)
    (hlabel : ∀ s, ∀ t ∈ (f s).transitions, t ∈ s.transitions ∨ b.Allows t.label)
    (hold : ∀ (n : Nat) (i : StateId), b.decisions[n]? = some i → decisions[n]? = some i)
    (hdecision : ∀ s, b.states[id]? = some s → ∀ n, (f s).decision = some n →
      decisions[n]? = some (id : Int) ∧ 2 ≤ (f s).transitions.length) :
    { b with states := b.states.modify id f, decisions }.IsSound := by
  -- Every state comes from the state of the same number.
  have origin (i : Nat) (s' : State) (hi : (b.states.modify id f)[i]? = some s') :
      ∃ s, b.states[i]? = some s ∧ (s' = s ∨ (i = id ∧ s' = f s)) := by
    rw [Array.getElem?_modify] at hi
    split at hi
    · next he =>
      obtain ⟨s, hs, rfl⟩ := Option.map_eq_some_iff.1 hi
      exact ⟨s, hs, .inr ⟨he.symm, rfl⟩⟩
    · exact ⟨s', hi, .inl rfl⟩
  constructor
  case rule =>
    intro i s' hi
    obtain ⟨s, hs, rfl | ⟨_, rfl⟩⟩ := origin i s' hi
    · exact h.rule i s' hs
    · rw [hrule]
      exact h.rule i s hs
  case label =>
    intro i s' hi t ht
    obtain ⟨s, hs, rfl | ⟨_, rfl⟩⟩ := origin i s' hi
    · exact h.label i s' hs t ht
    · exact (hlabel s t ht).elim (h.label i s hs t) fun ht => ht
  case current => exact h.current
  case bounds =>
    intro i r fr hr hf
    obtain ⟨k, s, hk, hs, hkd⟩ := h.bounds i r fr hr hf
    by_cases he : id = k
    · refine ⟨k, f s, hk, ?_, by rw [hkind, hkd]⟩
      rw [Array.getElem?_modify, if_pos he, hs]
      rfl
    · refine ⟨k, s, hk, ?_, hkd⟩
      rw [Array.getElem?_modify, if_neg he, hs]
  case decision =>
    intro i s' n hi hn
    obtain ⟨s, hs, rfl | ⟨rfl, rfl⟩⟩ := origin i s' hi
    · obtain ⟨hd, hl⟩ := h.decision i s' n hs hn
      exact ⟨hold n _ hd, hl⟩
    · exact hdecision s hs n hn

/-- A change of one state that keeps its rule, its kind, its decision and its
    transitions, to which it may add some that are allowed. -/
theorem IsSound.modify {b : Builder σ} (h : b.IsSound) (id : Nat) {f : State → State}
    (hrule : ∀ s, (f s).rule = s.rule) (hkind : ∀ s, (f s).kind = s.kind)
    (hdecision : ∀ s, (f s).decision = s.decision)
    (hlength : ∀ s, s.transitions.length ≤ (f s).transitions.length)
    (hlabel : ∀ s, ∀ t ∈ (f s).transitions, t ∈ s.transitions ∨ b.Allows t.label) :
    { b with states := b.states.modify id f }.IsSound := by
  refine h.modifyState id hrule hkind hlabel (fun _ _ hd => hd) fun s hs n hn => ?_
  rw [hdecision] at hn
  obtain ⟨hd, hl⟩ := h.decision id s n hs hn
  exact ⟨hd, hl.trans (hlength s)⟩

/-- Where the states stay, more rules, predicates and actions do no harm. -/
theorem IsSound.of_states {b b' : Builder σ} (h : b.IsSound) (hs : b'.states = b.states)
    (hd : b'.decisions = b.decisions) (hr : b.rules.size ≤ b'.rules.size)
    (hp : b.predicates.size ≤ b'.predicates.size) (ha : b.actions.size ≤ b'.actions.size)
    (hc : ∀ id, b'.current = some id → ∃ n : Nat, id = n ∧ n < b'.rules.size)
    (hb : ∀ (i : Nat) (r : RuleDraft σ) (f : Fragment), b'.rules[i]? = some r → r.bounds = some f →
      ∃ (n : Nat) (s : State), f.stop = n ∧ b.states[n]? = some s ∧ s.kind = .ruleStop) :
    b'.IsSound where
  rule i s hi := (h.rule i s (hs ▸ hi)).imp fun _ hn => ⟨hn.1, hn.2.trans_le hr⟩
  label i s hi t ht := (h.label i s (hs ▸ hi) t ht).mono hr hp ha
  current := hc
  bounds := hs ▸ hb
  decision i s n hi hn := hd ▸ h.decision i s n (hs ▸ hi) hn

/-- A change of one rule, which may become the current one, does no harm if bounds
    that are new end in a stop. -/
theorem IsSound.modifyRule {b : Builder σ} (h : b.IsSound) (id : Nat)
    (f : RuleDraft σ → RuleDraft σ) (current : Option RuleId)
    (hbounds : ∀ r bounds, (f r).bounds = some bounds → r.bounds = some bounds ∨
      ∃ (n : Nat) (s : State), bounds.stop = n ∧ b.states[n]? = some s ∧ s.kind = .ruleStop)
    (hcurrent : ∀ id, current = some id → ∃ n : Nat, id = n ∧ n < b.rules.size) :
    { b with rules := b.rules.modify id f, current }.IsSound := by
  refine h.of_states rfl rfl (by simp) le_rfl le_rfl ?_ fun i r bounds hr hb => ?_
  · exact fun id hid => (hcurrent id hid).imp fun n hn => ⟨hn.1, by simpa using hn.2⟩
  · rw [Array.getElem?_modify] at hr
    split at hr
    · obtain ⟨r₀, hr₀, rfl⟩ := Option.map_eq_some_iff.1 hr
      exact (hbounds r₀ bounds hb).elim (h.bounds i r₀ bounds hr₀) fun hstop => hstop
    · exact h.bounds i r bounds hr hb

end Builder

namespace Build

open Builder

/-- From a builder with one property, a step leads to a builder with a second one,
    even if it fails, and to one with a third property if it succeeds. -/
def Ensures (I P : Builder σ → Prop) (op : Build σ α) (Q : α → Builder σ → Prop) : Prop :=
  ∀ b, P b → I (op b).2 ∧ ∀ a, (op b).1 = .ok a → Q a (op b).2

/-- From a builder with one property, a step leads to a sound builder, and to one
    with another property if it succeeds. -/
abbrev Leads (P : Builder σ → Prop) (op : Build σ α) (Q : α → Builder σ → Prop) : Prop :=
  Ensures IsSound P op Q

variable {I P : Builder σ → Prop} {l : Label}

theorem Ensures.bind {op : Build σ α} {f : α → Build σ β} {Q : α → Builder σ → Prop}
    {R : β → Builder σ → Prop} (h : Ensures I P op Q) (hf : ∀ a, Ensures I (Q a) (f a) R) :
    Ensures I P (op >>= f) R := by
  intro b hb
  obtain ⟨hs, hq⟩ := h b hb
  rw [bind_apply]
  rcases hop : op b with ⟨a | a, b'⟩
  · rw [hop] at hs
    exact ⟨hs, nofun⟩
  · rw [hop] at hq
    exact hf a b' (hq a rfl)

theorem Ensures.weaken {op : Build σ α} {Q R : α → Builder σ → Prop} (h : Ensures I P op Q)
    (hR : ∀ a b, Q a b → R a b) : Ensures I P op R :=
  fun b hb => (h b hb).imp_right fun hQ a ha => hR a _ (hQ a ha)

theorem Ensures.pure {Q : α → Builder σ → Prop} {a : α} (h : ∀ b, P b → I b ∧ Q a b) :
    Ensures I P (Pure.pure a) Q := by
  intro b hb
  obtain ⟨hs, hq⟩ := h b hb
  exact ⟨hs, fun _ ha => by cases ha; exact hq⟩

theorem Ensures.throw {Q : α → Builder σ → Prop} {e : BuildError} (h : ∀ b, P b → I b) :
    Ensures I P (throw e : Build σ α) Q :=
  fun b hb => ⟨h b hb, nofun⟩

theorem Ensures.get {f : Builder σ → Build σ α} {Q : α → Builder σ → Prop}
    (h : ∀ b, Ensures I (fun c => c = b ∧ P c) (f b) Q) : Ensures I P (do f (← get)) Q := by
  intro b hb
  rw [bind_apply]
  exact h b b ⟨rfl, hb⟩

theorem Ensures.modify {f : Builder σ → Builder σ} {Q : PUnit → Builder σ → Prop}
    (h : ∀ b, P b → I (f b) ∧ Q ⟨⟩ (f b)) : Ensures I P (modify f) Q :=
  fun b hb => ⟨(h b hb).1, fun _ _ => (h b hb).2⟩

/-- A step that keeps a label allowed. -/
abbrev Keeps (l : Label) (op : Build σ α) : Prop :=
  Leads (SoundFor l) op fun _ => SoundFor l

/-- A new state exists, and is of the kind it is made of. -/
theorem newState_leads (kind : StateKind) :
    Leads (σ := σ) (SoundFor l) (newState kind) fun id b => b.SoundFor l ∧
      ∃ (n : Nat) (s : State), id = n ∧ b.states[n]? = some s ∧ s.kind = kind := by
  intro b ⟨hs, hl⟩
  rw [newState, bind_apply, get_apply]
  dsimp only
  split
  · exact ⟨hs, nofun⟩
  · cases hc : b.current with
    | none => exact ⟨hs, nofun⟩
    | some rule =>
      obtain ⟨n, rfl, hn⟩ := hs.current rule hc
      have hpush := hs.push (s := { rule := n, kind }) rfl hn rfl rfl
      rw [hc] at hpush
      refine ⟨hpush, fun _ hid => ?_⟩
      cases hid
      exact ⟨⟨hpush, hl.mono le_rfl le_rfl le_rfl⟩, _, { rule := n, kind }, rfl,
        Array.getElem?_push_size, rfl⟩

theorem newState_keeps (kind : StateKind) : Keeps (σ := σ) l (newState kind) :=
  fun b hb => ⟨(newState_leads kind b hb).1, fun id hid => ((newState_leads kind b hb).2 id hid).1⟩

theorem connect_keeps (source target : StateId) (l' : Label) {b : Builder σ} (h : b.SoundFor l)
    (hl' : b.Allows l') : (connect source target l' b).2.SoundFor l := by
  rw [connect, bind_apply, get_apply]
  dsimp only
  split
  · exact h
  · have hm := h.1.modify source.toNat (f := fun s => s.connect { target, label := l' })
      (fun _ => rfl) (fun _ => rfl) (fun _ => rfl) (fun s => by simp [State.connect])
      (fun s t ht => by
        rcases List.mem_append.1 ht with ht | ht
        · exact .inl ht
        · rw [List.mem_singleton.1 ht]
          exact .inr hl')
    exact ⟨hm, h.2.mono le_rfl le_rfl le_rfl⟩

theorem connect_same_keeps (source target : StateId) : Keeps (σ := σ) l (connect source target l) :=
  fun _ hb =>
    have h := connect_keeps source target l hb hb.2
    ⟨h.1, fun _ _ => h⟩

theorem join_keeps (source target : StateId) : Keeps (σ := σ) l (join source target) :=
  fun _ hb =>
    have h := connect_keeps source target .epsilon hb (allows_epsilon _)
    ⟨h.1, fun _ _ => h⟩

theorem keeps_pure (a : α) : Keeps (σ := σ) l (Pure.pure a) :=
  Ensures.pure fun _ hb => ⟨hb.1, hb⟩

theorem keeps_throw (e : BuildError) : Keeps (σ := σ) l (throw e : Build σ α) :=
  Ensures.throw fun _ hb => hb.1

theorem epsilon_keeps : Keeps (σ := σ) l epsilon :=
  (newState_keeps _).bind fun _ => keeps_pure _

/-- Two new states may be joined under a label that is allowed. -/
theorem element_keeps : Keeps (σ := σ) l (element l) :=
  (newState_keeps _).bind fun _ => (newState_keeps _).bind fun _ =>
    (connect_same_keeps _ _).bind fun _ => keeps_pure _

theorem chain_keeps (parts : List Fragment) : Keeps (σ := σ) l (chain parts) := by
  induction parts with
  | nil => exact keeps_pure _
  | cons f rest ih =>
    cases rest with
    | nil => exact keeps_pure _
    | cons g rest => exact (join_keeps _ _).bind fun _ => ih

theorem sequence_keeps (parts : List Fragment) : Keeps (σ := σ) l (sequence parts) := by
  rw [sequence]
  split
  · exact (chain_keeps _).bind fun _ => keeps_pure _
  · exact epsilon_keeps

theorem branch_keeps (start stop : StateId) (alternatives : List Fragment) :
    Keeps (σ := σ) l (branch start stop alternatives) := by
  induction alternatives with
  | nil => exact keeps_pure _
  | cons f rest ih => exact (join_keeps _ _).bind fun _ => (join_keeps _ _).bind fun _ => ih

theorem block_keeps (alternatives : List Fragment) : Keeps (σ := σ) l (block alternatives) := by
  match alternatives with
  | [] => exact keeps_throw _
  | [_] => exact keeps_pure _
  | _ :: _ :: _ =>
    exact (newState_keeps _).bind fun _ => (newState_keeps _).bind fun _ =>
      (branch_keeps _ _ _).bind fun _ => keeps_pure _

theorem loopBody_keeps (alternatives : List Fragment) (greediness : Greediness) :
    Keeps (σ := σ) l (loopBody alternatives greediness) := by
  refine (block_keeps _).bind fun body b hb => ?_
  rw [bind_apply, get_apply]
  dsimp only
  cases b.loopError? [] body with
  | some error => exact ⟨hb.1, nofun⟩
  | none =>
    have hs : { b with loops := b.loops ++ [body] }.IsSound :=
      hb.1.of_states rfl rfl le_rfl le_rfl le_rfl hb.1.current hb.1.bounds
    exact ⟨hs, fun _ _ => ⟨hs, hb.2.mono le_rfl le_rfl le_rfl⟩⟩

theorem markLoop_keeps (state : StateId) (nonGreedy : Bool) :
    Keeps (σ := σ) l (markLoop state nonGreedy) :=
  Ensures.modify fun _ hb =>
    have h := hb.1.modify state.toNat (f := fun s => { s with exitAlt := 2, nonGreedy })
      (fun _ => rfl) (fun _ => rfl) (fun _ => rfl) (fun _ => le_rfl) (fun _ _ ht => .inl ht)
    ⟨h, h, hb.2.mono le_rfl le_rfl le_rfl⟩

theorem star_keeps (alternatives : List Fragment) (greediness : Greediness) :
    Keeps (σ := σ) l (star alternatives greediness) :=
  (loopBody_keeps _ _).bind fun ⟨_, _⟩ => (newState_keeps _).bind fun _ =>
    (newState_keeps _).bind fun _ => (newState_keeps _).bind fun _ =>
    (join_keeps _ _).bind fun _ => (join_keeps _ _).bind fun _ => (join_keeps _ _).bind fun _ =>
    (join_keeps _ _).bind fun _ => (markLoop_keeps _ _).bind fun _ => keeps_pure _

theorem plus_keeps (alternatives : List Fragment) (greediness : Greediness) :
    Keeps (σ := σ) l (plus alternatives greediness) :=
  (loopBody_keeps _ _).bind fun ⟨_, _⟩ => (newState_keeps _).bind fun _ =>
    (newState_keeps _).bind fun _ => (join_keeps _ _).bind fun _ => (join_keeps _ _).bind fun _ =>
    (join_keeps _ _).bind fun _ => (markLoop_keeps _ _).bind fun _ => keeps_pure _

/-- The number of a rule may be called. -/
theorem ruleNumber_leads (name : String) (follow : StateId) :
    Leads (σ := σ) IsSound (ruleNumber name) fun id => SoundFor (.call id follow) := by
  intro b hb
  rw [ruleNumber, bind_apply, get_apply]
  dsimp only
  cases hf : b.findRule? name with
  | some id =>
    refine ⟨hb, fun _ h => ?_⟩
    cases h
    obtain ⟨hlt, _⟩ := List.findIdx?_eq_some_iff_getElem.1 hf
    exact ⟨hb, id, rfl, by simpa using hlt⟩
  | none =>
    -- A rule that is called before it is defined has no bounds yet.
    have hs : { b with rules := b.rules.push { name } }.IsSound := by
      refine hb.of_states rfl rfl (by simp) le_rfl le_rfl ?_ ?_
      · intro id hid
        exact (hb.current id hid).imp fun n hn => ⟨hn.1, hn.2.trans_le (by simp)⟩
      · intro i r f hr hf
        rcases getElem?_push_eq_some.1 hr with hr | ⟨_, rfl⟩
        · exact hb.bounds i r f hr hf
        · cases hf
    refine ⟨hs, fun _ h => ?_⟩
    cases h
    exact ⟨hs, _, rfl, Array.size_push .. ▸ Nat.lt_succ_self _⟩

/-- Every step that puts fragments together keeps a builder sound. -/
theorem IsStep.isSound {op : Build σ α} (h : IsStep op) {b : Builder σ} (hb : b.IsSound) :
    (op b).2.IsSound := by
  have keep {α : Type} {op : Build σ α} (h : Keeps .epsilon op) : (op b).2.IsSound :=
    (h b ⟨hb, allows_epsilon b⟩).1
  have literal (l : Label) (hl : b.Allows l) : ((element l : Build σ Fragment) b).2.IsSound :=
    (element_keeps b ⟨hb, hl⟩).1
  cases h with
  | token type => exact literal _ fun _ => ⟨type, by simp [Label.accepts]⟩
  | range low high =>
    rw [Build.range]
    split
    · exact hb
    · exact literal _ fun _ => ⟨low, by simp [Label.accepts]; omega⟩
  | oneOf types =>
    rw [Build.oneOf]
    split
    · exact hb
    · next hne =>
      obtain ⟨type, rest, rfl⟩ := List.exists_cons_of_ne_nil fun h => hne (List.isEmpty_iff.2 h)
      exact literal _ fun _ => ⟨type, by simp [Label.accepts, Ascending.mem_ofList]⟩
  | noneOf types =>
    -- Finitely many types are excluded, so some type is not.
    obtain ⟨type, htype⟩ := Infinite.exists_notMem_finset (Token.endOfInput :: types).toFinset
    have hnot : type ≠ Token.endOfInput ∧ type ∉ types := by simpa using htype
    exact literal _ fun _ => ⟨type, by simpa [Label.accepts, Ascending.mem_ofList] using hnot⟩
  | wildcard => exact literal _ fun _ => ⟨0, rfl⟩
  | epsilon => exact keep epsilon_keeps
  | sequence => exact keep (sequence_keeps _)
  | block => exact keep (block_keeps _)
  | optional => exact keep (epsilon_keeps.bind fun _ => block_keeps _)
  | star => exact keep (star_keeps _ _)
  | plus => exact keep (plus_keeps _ _)
  | call name =>
    have h : Leads (σ := σ) IsSound (Build.call name) fun _ => IsSound := by
      refine (ruleNumber_leads name 0).bind fun rule => (newState_keeps _).bind fun start =>
        (newState_keeps _).bind fun stop => ?_
      have hc : Keeps (σ := σ) (.call rule 0) (connect start (-1) (.call rule stop)) := fun b hb =>
        have h := connect_keeps start (-1) (.call rule stop) hb hb.2
        ⟨h.1, fun _ _ => h⟩
      exact hc.bind fun _ => Ensures.pure fun _ hb => ⟨hb.1, hb.1⟩
    exact (h b hb).1
  | predicate p =>
    have hs : { b with predicates := b.predicates.push p }.IsSound :=
      hb.of_states rfl rfl le_rfl (by simp) le_rfl hb.current hb.bounds
    exact (element_keeps (l := .predicate b.predicates.size) _ ⟨hs, _, rfl, by simp⟩).1
  | action a =>
    have hs : { b with actions := b.actions.push a }.IsSound :=
      hb.of_states rfl rfl le_rfl le_rfl (by simp) hb.current hb.bounds
    exact (element_keeps (l := .action b.actions.size) _ ⟨hs, _, rfl, by simp⟩).1

/-- Beginning a rule keeps a builder sound. -/
theorem openRule_isSound (name : String) (signature : Signature σ) {b : Builder σ}
    (hb : b.IsSound) : (openRule name signature b).2.IsSound := by
  rw [openRule, bind_apply, get_apply]
  dsimp only
  split
  · exact hb
  split
  · exact hb
  have h : Leads (σ := σ) IsSound (do
      let id ← ruleNumber name
      if ((← get).rules[id.toNat]?.bind RuleDraft.bounds).isSome then throw (.definedTwice name)
      modify fun b => { b with
        rules := b.rules.modify id.toNat fun r => { r with signature }
        current := some id }
      let start ← newState .ruleStart
      let stop ← newState .ruleStop
      modify fun b => { b with
        rules := b.rules.modify id.toNat fun r => { r with bounds := some { start, stop } } }
      return id) fun _ => IsSound := by
    refine (ruleNumber_leads name 0).bind fun id => Ensures.get fun b => ?_
    split
    · exact Ensures.throw fun _ hc => hc.2.1
    refine (Ensures.modify (Q := fun _ => SoundFor (.call id 0)) fun c hc => ?_).bind fun _ =>
      (newState_keeps _).bind fun start => (newState_leads _).bind fun stop =>
      (Ensures.modify (Q := fun _ => IsSound) fun c hc => ?_).bind fun _ =>
      Ensures.pure fun _ hc => ⟨hc, hc⟩
    · obtain ⟨n, rfl, hn⟩ := hc.2.2
      have hs := hc.2.1.modifyRule (n : Int).toNat (fun r => { r with signature }) (some (n : Int))
        (fun _ _ hb => .inl hb) fun _ hid => ⟨n, (Option.some.inj hid).symm, hn⟩
      exact ⟨hs, hs, n, rfl, by simpa using hn⟩
    · obtain ⟨⟨hs, _⟩, n, s, rfl, hstop, hkind⟩ := hc
      let setBounds (r : RuleDraft σ) : RuleDraft σ :=
        { r with bounds := some { start, stop := n } }
      have hs' := hs.modifyRule id.toNat setBounds c.current
        (fun _ _ hb => .inr ⟨n, s, congrArg Fragment.stop (Option.some.inj hb).symm, hstop, hkind⟩)
        hs.current
      exact ⟨hs', hs'⟩
  exact (h b hb).1

/-- Ending a rule keeps a builder sound. -/
theorem closeRule_isSound (id : RuleId) (body : Fragment) {b : Builder σ} (hb : b.IsSound) :
    (closeRule id body b).2.IsSound := by
  have h : Leads (σ := σ) (SoundFor .epsilon) (closeRule id body) fun _ => IsSound := by
    refine Ensures.get fun b c hc => ?_
    refine ((join_keeps (l := .epsilon) _ _).bind fun _ => (join_keeps _ _).bind fun _ =>
      Ensures.modify fun c hc => ?_) c hc.2
    have hs : { c with current := none }.IsSound :=
      hc.1.of_states rfl rfl le_rfl le_rfl le_rfl nofun hc.1.bounds
    exact ⟨hs, hs⟩
  exact (h b ⟨hb, allows_epsilon b⟩).1

end Build

/-! ## The decisions -/

namespace Builder

/-- Numbering a state that has several ways on keeps a builder sound. -/
theorem IsSound.numberDecision {b : Builder σ} (h : b.IsSound) (id : Nat) :
    (b.numberDecision id).IsSound := by
  rw [Builder.numberDecision]
  cases hs : b.states[id]? with
  | none => exact h
  | some s =>
    dsimp only
    split
    case isFalse => exact h
    case isTrue hlen =>
      refine h.modifyState id (fun _ => rfl) (fun _ => rfl) (fun _ _ ht => .inl ht)
        (fun n i hd => ?_) fun s' hs' n hn => ?_
      · exact getElem?_push_of_some hd
      · rw [hs] at hs'
        cases hs'
        cases hn
        exact ⟨Array.getElem?_push_size, hlen⟩

/-- The states before a number that have several ways on are decisions. -/
def NumberedBefore (b : Builder σ) (k : Nat) : Prop :=
  ∀ i < k, ∀ s, b.states[i]? = some s → 2 ≤ s.transitions.length → s.decision.isSome

theorem NumberedBefore.succ {b : Builder σ} {k : Nat} (h : b.NumberedBefore k) :
    (b.numberDecision k).NumberedBefore (k + 1) := by
  intro i hi s hs hlen
  -- The states before are as they were, and the one at hand is a decision now if it has to be.
  rw [numberDecision] at hs
  cases hk : b.states[k]? with
  | none =>
    rw [hk] at hs
    refine h i (lt_of_le_of_ne (Nat.le_of_lt_succ hi) ?_) s hs hlen
    rintro rfl
    rw [hk] at hs
    cases hs
  | some s' =>
    rw [hk] at hs
    dsimp only at hs
    split at hs
    · rw [Array.getElem?_modify] at hs
      split at hs
      · obtain ⟨s, _, rfl⟩ := Option.map_eq_some_iff.1 hs
        rfl
      · next hne => exact h i (lt_of_le_of_ne (Nat.le_of_lt_succ hi) (Ne.symm hne)) s hs hlen
    · next hshort =>
      refine h i (lt_of_le_of_ne (Nat.le_of_lt_succ hi) ?_) s hs hlen
      rintro rfl
      rw [hk] at hs
      cases hs
      exact hshort hlen

theorem size_numberDecision (b : Builder σ) (id : Nat) :
    (b.numberDecision id).states.size = b.states.size := by
  rw [numberDecision]
  split
  · rfl
  · split <;> simp

/-- Numbering the decisions keeps a builder sound, and numbers all of them. -/
theorem numberDecisions_isSound {b : Builder σ} (h : b.IsSound) :
    b.numberDecisions.IsSound ∧ b.numberDecisions.NumberedBefore b.numberDecisions.states.size := by
  have fold (k : Nat) : ((List.range k).foldl Builder.numberDecision b).IsSound ∧
      ((List.range k).foldl Builder.numberDecision b).NumberedBefore k ∧
      ((List.range k).foldl Builder.numberDecision b).states.size = b.states.size := by
    induction k with
    | zero => exact ⟨h, nofun, rfl⟩
    | succ k ih =>
      rw [List.range_succ, List.foldl_append]
      exact ⟨ih.1.numberDecision k, ih.2.1.succ, (size_numberDecision _ k).trans ih.2.2⟩
  obtain ⟨hs, hn, hsize⟩ := fold b.states.size
  exact ⟨hs, by rw [numberDecisions, hsize]; exact hn⟩

/-- Giving the grammar fails at once, or after the decisions have been numbered, or
    gives it. -/
theorem finish_cases (b : Builder σ) :
    (∃ e, Build.finish b = (.error e, b)) ∨
      (∃ e, Build.finish b = (.error e, b.numberDecisions)) ∨
      (b.numberDecisions.error? = none ∧
        Build.finish b =
          (.ok b.numberDecisions.grammar, { b.numberDecisions with finished := true })) := by
  rw [Build.finish, bind_apply, get_apply]
  dsimp only
  split
  · exact .inl ⟨_, rfl⟩
  split
  · exact .inl ⟨_, rfl⟩
  cases b.undefinedCall? with
  | some name => exact .inl ⟨_, rfl⟩
  | none =>
    dsimp only
    rw [bind_apply, set_apply]
    dsimp only
    cases b.numberDecisions.error? with
    | some error => exact .inr (.inl ⟨_, rfl⟩)
    | none => exact .inr (.inr ⟨rfl, rfl⟩)

/-- Giving the grammar, or failing to, keeps a builder sound. -/
theorem finish_isSound {b : Builder σ} (h : b.IsSound) : (Build.finish b).2.IsSound := by
  have hn := (numberDecisions_isSound h).1
  obtain ⟨e, he⟩ | ⟨e, he⟩ | ⟨_, he⟩ := finish_cases b <;> rw [he]
  · exact h
  · exact hn
  · exact hn.of_states rfl rfl le_rfl le_rfl le_rfl hn.current hn.bounds

theorem IsReachable.isSound {b : Builder σ} (h : b.IsReachable) : b.IsSound := by
  induction h with
  | empty => exact isSound_empty
  | step _ hop ih => exact hop.isSound ih
  | openRule name signature _ ih => exact Build.openRule_isSound name signature ih
  | closeRule id body _ ih => exact Build.closeRule_isSound id body ih
  | finish _ ih => exact finish_isSound ih

/-- What is checked before a builder gives its grammar. -/
theorem finish_eq_ok {b : Builder σ} {g : Grammar σ} (h : (Build.finish b).1 = .ok g) :
    b.numberDecisions.error? = none ∧ g = b.numberDecisions.grammar := by
  obtain ⟨e, he⟩ | ⟨e, he⟩ | ⟨hnone, he⟩ := finish_cases b <;> rw [he] at h <;> cases h
  exact ⟨hnone, rfl⟩

end Builder

/-! ## Grammars that are built -/

namespace Grammar

/-- What a label refers to exists, and one that consumes a token matches some. -/
def Allows (g : Grammar σ) : Label → Prop
  | .call rule _ => ∃ r, g.rule rule = .ok r
  | .predicate index => ∃ p, g.predicate index = .ok p
  | .action index => ∃ a, g.action index = .ok a
  | label => label.isFree = false → ∃ type, label.accepts type = true

/-- States, labels and rules refer to what exists, and the decisions are the
    states with several ways on, which are empty. -/
structure IsSound (g : Grammar σ) : Prop where
  rule : ∀ (id : StateId) (s : State), g.state id = .ok s → ∃ r, g.rule s.rule = .ok r
  label : ∀ (id : StateId) (s : State), g.state id = .ok s → ∀ t ∈ s.transitions, g.Allows t.label
  stop : ∀ (id : RuleId) (r : Rule), g.rule id = .ok r →
    ∃ s, g.state r.stop = .ok s ∧ s.kind = .ruleStop
  decision : ∀ (id : StateId) (s : State) (n : Nat), g.state id = .ok s → s.decision = some n →
    g.decisionState n = .ok id
  isDecision : ∀ (id : StateId) (s : State), g.state id = .ok s →
    (s.decision.isSome ↔ 2 ≤ s.transitions.length)
  epsilon : ∀ (id : StateId) (s : State), g.state id = .ok s → s.decision.isSome →
    ∀ t ∈ s.transitions, t.label = .epsilon

end Grammar

namespace Builder

theorem numbered?_natCast (items : Array α) (n : Nat) : numbered? items n = items[n]? := by
  rw [numbered?, if_neg (by omega), Int.toNat_natCast]

theorem link_label (b : Builder σ) (t : Transition) : (b.link t).label = t.label := by
  rw [link]
  split <;> rfl

/-- The states of the grammar are those of the builder, with the calls linked. -/
theorem state_grammar {b : Builder σ} {id : StateId} {s : State} :
    b.grammar.state id = .ok s ↔ ∃ (n : Nat) (s₀ : State), id = n ∧ b.states[n]? = some s₀ ∧
      s = { s₀ with transitions := s₀.transitions.map b.link } := by
  rw [Network.state_eq_ok_iff]
  refine exists_congr fun n => ?_
  rw [grammar]
  simp only [List.getElem?_toArray, List.getElem?_map, Array.getElem?_toList,
    Option.map_eq_some_iff]
  exact ⟨fun ⟨hn, s₀, hs, he⟩ => ⟨s₀, hn, hs, he.symm⟩,
    fun ⟨s₀, hn, hs, he⟩ => ⟨hn, s₀, hs, he.symm⟩⟩

theorem rule_grammar (b : Builder σ) {n : Nat} (hn : n < b.rules.size) :
    b.grammar.rule n =
      .ok { name := b.rules[n].name, start := (b.bounds n).start, stop := (b.bounds n).stop } := by
  rw [Network.rule, numbered?_natCast, grammar]
  simp [hn]

theorem rule_grammar_eq_ok {b : Builder σ} {id : RuleId} {r : Rule}
    (h : b.grammar.rule id = .ok r) :
    ∃ (n : Nat) (hn : n < b.rules.size), id = n ∧
      r = { name := b.rules[n].name, start := (b.bounds n).start, stop := (b.bounds n).stop } := by
  have hpos : 0 ≤ id := by
    by_contra hneg
    rw [Network.rule, numbered?, if_pos (Int.not_le.1 hneg)] at h
    cases h
  obtain ⟨n, rfl⟩ := Int.eq_ofNat_of_zero_le hpos
  have hn : n < b.rules.size := by
    by_contra hge
    rw [Network.rule, numbered?_natCast, Array.getElem?_eq_none (by simpa [grammar] using hge)] at h
    cases h
  rw [b.rule_grammar hn] at h
  exact ⟨n, hn, rfl, (Except.ok.inj h).symm⟩

/-- A label that is allowed in the builder is allowed in the grammar. -/
theorem Allows.grammar {b : Builder σ} {l : Label} (h : b.Allows l) : b.grammar.Allows l := by
  cases l with
  | call rule follow =>
    obtain ⟨n, rfl, hn⟩ := h
    exact ⟨_, b.rule_grammar hn⟩
  | predicate index =>
    obtain ⟨n, rfl, hn⟩ := h
    refine ⟨b.predicates[n], ?_⟩
    rw [Grammar.predicate, numbered?_natCast, Builder.grammar]
    simp [hn]
  | action index =>
    obtain ⟨n, rfl, hn⟩ := h
    refine ⟨b.actions[n], ?_⟩
    rw [Grammar.action, numbered?_natCast, Builder.grammar]
    simp [hn]
  | _ => exact h

/-- What is checked of every rule and of every decision. -/
theorem of_error?_eq_none {b : Builder σ} (h : b.error? = none) :
    (∀ (n : Nat) (r : RuleDraft σ), b.rules[n]? = some r → r.bounds.isSome) ∧
      ∀ (n : Nat) (s : State), b.states[n]? = some s → decisionError? n s = none := by
  rw [error?] at h
  simp only [Option.orElse_eq_orElse, Option.orElse_eq_or, Option.or_eq_none_iff,
    List.findSome?_eq_none_iff] at h
  obtain ⟨hrules, hstates, _⟩ := h
  constructor
  · intro n r hr
    have hr := hrules r (Array.mem_toList_iff.2 (Array.mem_of_getElem? hr))
    simpa [Option.isSome_iff_ne_none] using hr
  · intro n s hs
    refine hstates (s, n) (List.mem_zipIdx_iff_getElem?.2 ?_)
    simpa using hs

/-- What is checked of every loop. -/
theorem canBeEmpty_of_error? {b : Builder σ} (h : b.error? = none) {body : Fragment}
    (hbody : body ∈ b.loops) : body.canBeEmpty b.states b.nullable = false := by
  rw [error?] at h
  simp only [Option.orElse_eq_orElse, Option.orElse_eq_or, Option.or_eq_none_iff,
    List.findSome?_eq_none_iff] at h
  have hloop := h.2.2 body hbody
  rw [loopError?] at hloop
  split at hloop
  · cases hloop
  · next hempty => exact Bool.eq_false_of_not_eq_true hempty

/-- A builder that passes the check gives a sound grammar. -/
theorem grammar_isSound {b : Builder σ} (h : b.IsSound) (hn : b.NumberedBefore b.states.size)
    (he : b.error? = none) : b.grammar.IsSound := by
  obtain ⟨hrules, hstates⟩ := of_error?_eq_none he
  constructor
  case rule =>
    intro id s hs
    obtain ⟨n, s₀, rfl, hs₀, rfl⟩ := state_grammar.1 hs
    obtain ⟨k, hk, hlt⟩ := h.rule n s₀ hs₀
    exact ⟨_, hk ▸ b.rule_grammar hlt⟩
  case label =>
    intro id s hs t ht
    obtain ⟨n, s₀, rfl, hs₀, rfl⟩ := state_grammar.1 hs
    obtain ⟨t₀, ht₀, rfl⟩ := List.mem_map.1 ht
    rw [link_label]
    exact (h.label n s₀ hs₀ t₀ ht₀).grammar
  case stop =>
    intro id r hr
    obtain ⟨n, hlt, rfl, rfl⟩ := rule_grammar_eq_ok hr
    obtain ⟨f, hf⟩ := Option.isSome_iff_exists.1 (hrules n _ (Array.getElem?_eq_getElem hlt))
    obtain ⟨k, s, hk, hs, hkind⟩ := h.bounds n _ f (Array.getElem?_eq_getElem hlt) hf
    have hstop : (b.bounds n).stop = k := by
      rw [bounds, numbered?_natCast, Array.getElem?_eq_getElem hlt, Option.bind_some, hf]
      exact hk
    exact ⟨_, state_grammar.2 ⟨k, s, hstop, hs, rfl⟩, hkind⟩
  case decision =>
    intro id s n hs hd
    obtain ⟨k, s₀, rfl, hs₀, rfl⟩ := state_grammar.1 hs
    have := (h.decision k s₀ n hs₀ hd).1
    rw [Network.decisionState, numbered?_natCast, grammar, this]
  case isDecision =>
    intro id s hs
    obtain ⟨n, s₀, rfl, hs₀, rfl⟩ := state_grammar.1 hs
    rw [List.length_map]
    constructor
    · intro hd
      obtain ⟨k, hk⟩ := Option.isSome_iff_exists.1 hd
      exact (h.decision n s₀ k hs₀ hk).2
    · exact hn n (Array.getElem?_eq_some_iff.1 hs₀).1 s₀ hs₀
  case epsilon =>
    intro id s hs hd t ht
    obtain ⟨n, s₀, rfl, hs₀, rfl⟩ := state_grammar.1 hs
    obtain ⟨t₀, ht₀, rfl⟩ := List.mem_map.1 ht
    -- A decision with a transition that is not empty does not pass the check.
    have hnone := hstates n s₀ hs₀
    rw [decisionError?, if_neg (by simpa [Option.isSome_iff_ne_none] using hd)] at hnone
    split at hnone
    · cases hnone
    · next hall =>
      rw [link_label]
      by_contra hne
      exact hall (List.any_eq_true.2 ⟨t₀, ht₀, by simpa using hne⟩)

end Builder

/-- A grammar that is built is sound. -/
theorem Grammar.IsBuilt.isSound {g : Grammar σ} (h : g.IsBuilt) : g.IsSound := by
  obtain ⟨b, hb, hg⟩ := h
  obtain ⟨he, rfl⟩ := Builder.finish_eq_ok hg
  obtain ⟨hs, hn⟩ := Builder.numberDecisions_isSound hb.isSound
  exact Builder.grammar_isSound hs hn he

/-- A state that does not decide has one way on at most. -/
theorem Grammar.IsSound.eq_singleton {g : Grammar σ} (h : g.IsSound) {id : StateId} {s : State}
    (hs : g.state id = .ok s) (hd : s.decision.isSome = false) {t : Transition}
    (ht : t ∈ s.transitions) : s.transitions = [t] := by
  have hpos := List.length_pos_of_mem ht
  have hnot : ¬2 ≤ s.transitions.length := by
    rw [← h.isDecision id s hs, hd]
    exact Bool.false_ne_true
  obtain ⟨t', ht'⟩ := List.length_eq_one_iff.1 (show s.transitions.length = 1 by omega)
  rw [ht'] at ht ⊢
  rw [List.mem_singleton.1 ht]

theorem Grammar.IsSound.isMatchable {g : Grammar σ} (h : g.IsSound) :
    g.toNetwork.IsMatchable := by
  rintro id ⟨target, label⟩ ⟨s, hs, _, ht⟩ hfree
  have hl := h.label id s hs _ ht
  cases label <;> first | exact hl hfree | cases hfree

theorem numbered?_of_isEmpty {items : Array α} (h : items.size = 0) (id : Int) :
    numbered? items id = none := by
  rw [numbered?]
  split
  · rfl
  · exact Array.getElem?_eq_none (by omega)

theorem exists_of_numbered? {items : Array α} {id : Int} {a : α}
    (h : numbered? items id = some a) : ∃ n : Nat, id = n ∧ items[n]? = some a := by
  rw [numbered?] at h
  split at h
  · cases h
  · exact ⟨id.toNat, by omega, h⟩

theorem Grammar.exists_of_predicate {g : Grammar σ} {index : Int} {p : Predicate σ}
    (h : g.predicate index = .ok p) : ∃ n : Nat, index = n ∧ g.predicates[n]? = some p := by
  cases hp : numbered? g.predicates index with
  | none => rw [predicate, hp] at h; cases h
  | some p' =>
    rw [predicate, hp] at h
    cases h
    exact exists_of_numbered? hp

theorem Grammar.mem_of_predicate {g : Grammar σ} {index : Int} {p : Predicate σ}
    (h : g.predicate index = .ok p) : p ∈ g.predicates := by
  obtain ⟨n, _, hn⟩ := exists_of_predicate h
  exact Array.mem_of_getElem? hn

theorem Grammar.predicate_ne_ok {g : Grammar σ} (h : g.predicates.size = 0) (index : Int)
    (p : Predicate σ) : g.predicate index ≠ .ok p := by
  rw [predicate, numbered?_of_isEmpty h]
  exact nofun

theorem Grammar.action_ne_ok {g : Grammar σ} (h : g.actions.size = 0) (index : Int)
    (a : Action σ) : g.action index ≠ .ok a := by
  rw [action, numbered?_of_isEmpty h]
  exact nofun

/-- What the label of a transition refers to exists. -/
theorem Grammar.IsSound.allows {g : Grammar σ} (hg : g.IsSound) {id : StateId} {t : Transition}
    (h : g.toNetwork.HasTransition id t) : g.Allows t.label := by
  obtain ⟨s, hs, _, ht⟩ := h
  exact hg.label id s hs t ht

/-- Without predicates, no transition is under one. -/
theorem Grammar.IsSound.hasNoPredicate {g : Grammar σ} (hg : g.IsSound)
    (h : g.predicates.size = 0) : g.toNetwork.HasNoPredicate := by
  rintro id ⟨target, label⟩ ht index rfl
  obtain ⟨p, hp⟩ := hg.allows ht
  exact predicate_ne_ok h index p hp

/-! ## Grammars of rule bodies -/

theorem Builder.IsReachable.bind {b : Builder σ} {op : Build σ α} {f : α → Build σ β}
    (h : (op b).2.IsReachable) (hf : ∀ a b', b'.IsReachable → (f a b').2.IsReachable) :
    ((op >>= f) b).2.IsReachable :=
  of_bind h fun a b' _ => hf a b'

mutual

theorem Body.isReachable_build (body : Body σ) {b : Builder σ} (h : b.IsReachable) :
    (body.build b).2.IsReachable := by
  have combine (parts : List (Body σ)) {op : List Fragment → Build σ Fragment}
      (hparts : (Body.buildAll parts b).2.IsReachable)
      (hop : ∀ fragments, Build.IsStep (op fragments)) :
      ((do op (← Body.buildAll parts)) b).2.IsReachable :=
    hparts.bind fun fragments _ hb' => hb'.step (hop fragments)
  match body with
  | .token type => exact h.step (.token type)
  | .range low high => exact h.step (.range low high)
  | .oneOf types => exact h.step (.oneOf types)
  | .noneOf types => exact h.step (.noneOf types)
  | .wildcard => exact h.step .wildcard
  | .epsilon => exact h.step .epsilon
  | .call rule => exact h.step (.call rule)
  | .predicate p => exact h.step (.predicate p)
  | .action a => exact h.step (.action a)
  | .sequence parts => exact combine parts (Body.isReachable_buildAll parts h) .sequence
  | .block parts => exact combine parts (Body.isReachable_buildAll parts h) .block
  | .optional parts => exact combine parts (Body.isReachable_buildAll parts h) .optional
  | .star parts greediness =>
    exact combine parts (Body.isReachable_buildAll parts h) fun _ => .star _ greediness
  | .plus parts greediness =>
    exact combine parts (Body.isReachable_buildAll parts h) fun _ => .plus _ greediness

theorem Body.isReachable_buildAll (bodies : List (Body σ)) {b : Builder σ} (h : b.IsReachable) :
    (Body.buildAll bodies b).2.IsReachable := by
  match bodies with
  | [] => exact h
  | body :: rest =>
    exact (Body.isReachable_build body h).bind fun _ _ hb' =>
      (Body.isReachable_buildAll rest hb').bind fun _ _ hb'' => hb''

end

namespace Grammar

theorem isReachable_define (rules : List (RuleDefinition σ)) {b : Builder σ} (h : b.IsReachable) :
    (define rules b).2.IsReachable := by
  induction rules generalizing b with
  | nil => exact h
  | cons r rest ih =>
    refine Builder.IsReachable.bind ?_ fun _ _ hb' => ih hb'
    exact (h.openRule r.name r.signature).bind fun id _ hb' =>
      (r.body.isReachable_build hb').bind fun f _ hb'' =>
        (hb''.closeRule id f).bind fun _ _ hb''' => hb'''

/-- The grammar of some rules is what the builder gives that has defined them. -/
theorem exists_of_ofRules {rules : List (RuleDefinition σ)} {g : Grammar σ}
    (h : ofRules rules = .ok g) :
    ∃ b, define rules {} = (.ok (), b) ∧ (Build.finish b).1 = .ok g := by
  have hrun : ((do define rules; Build.finish) ({} : Builder σ)).1 = .ok g := h
  rw [bind_apply] at hrun
  rcases hop : define rules {} with ⟨e | _, b⟩
  · rw [hop] at hrun
    cases hrun
  · rw [hop] at hrun
    exact ⟨b, rfl, hrun⟩

/-- The grammar of some rules is built. -/
theorem isBuilt_ofRules {rules : List (RuleDefinition σ)} {g : Grammar σ}
    (h : ofRules rules = .ok g) : g.IsBuilt := by
  obtain ⟨b, hdefine, hfinish⟩ := exists_of_ofRules h
  have hb := isReachable_define rules Builder.IsReachable.empty
  rw [hdefine] at hb
  exact ⟨b, hb, hfinish⟩

/-- A builder that a grammar can be finished of makes a grammar that is built. -/
theorem isBuilt_finish_getD {b : Builder σ} (h : b.IsReachable)
    (hfinish : (Build.finish b).1.toOption.isSome = true) (g : Grammar σ) :
    ((Build.finish b).1.toOption.getD g).IsBuilt := by
  cases hb : (Build.finish b).1 with
  | error e =>
    rw [hb] at hfinish
    cases hfinish
  | ok g => exact ⟨b, h, hb⟩

theorem ofRules_getD {rules : List (RuleDefinition σ)}
    (h : (ofRules rules).toOption.isSome = true) (g : Grammar σ) :
    ofRules rules = .ok ((ofRules rules).toOption.getD g) := by
  cases hr : ofRules rules with
  | error e =>
    rw [hr] at h
    cases h
  | ok g => rfl

/-- A grammar that is built, in which only the tokens decide and each token can be told
    from the end of the input. No field but the first two looks beyond the arrays. -/
structure IsSimple (g : Grammar σ) : Prop where
  built : g.IsBuilt
  noFreeCycle : ¬g.toNetwork.HasFreeCycle
  predicates : g.predicates.size = 0
  actions : g.actions.size = 0
  greedy : (g.states.toList.all fun s => !s.nonGreedy) = true
  inside : g.toNetwork.allTransitions g.toNetwork.leadsInside = true
  notEnd : g.toNetwork.allTransitions (fun t => !t.label.accepts Token.endOfInput) = true

/-- A rule that calls itself between two tokens, where only the token behind the
    first one tells whether it does. -/
def nested : Grammar Unit :=
  ((ofRules [{ name := "r", body := .block [.sequence [.token 1, .call "r", .token 2],
    .sequence [.token 1, .token 3]] }]).toOption).getD {}

theorem nested_eq :
    (∃ rules, ofRules rules = .ok nested) ∧ nested.findRule? "r" = some 0 ∧
      (nested.toNetwork.descends fun id =>
        [2, 0, 0, 4, 3, 1, 0, 2, 0, 1, 0, 2, 1, 1].getD id.toNat 0) = true ∧
      nested.predicates.size = 0 ∧ nested.actions.size = 0 ∧
      (nested.states.toList.all fun s => !s.nonGreedy) = true ∧
      nested.toNetwork.allTransitions nested.toNetwork.leadsInside = true ∧
      nested.toNetwork.allTransitions (fun t => !t.label.accepts Token.endOfInput) = true ∧
      (nested.signatures.toList.all fun s => s.locals.isEmpty && s.returns.isEmpty) = true :=
  ⟨⟨_, ofRules_getD (by decide +kernel) {}⟩, by decide +kernel⟩

theorem isSimple_nested : nested.IsSimple := by
  obtain ⟨⟨rules, hrules⟩, _, hdescends, hpredicates, hactions, hgreedy, hinside, hend, _⟩ :=
    nested_eq
  exact ⟨isBuilt_ofRules hrules, Network.not_hasFreeCycle_of_descends _ hdescends, hpredicates,
    hactions, hgreedy, hinside, hend⟩

end Grammar

end AdaptiveLL
