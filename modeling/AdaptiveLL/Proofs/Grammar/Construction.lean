import AdaptiveLL.Proofs.Grammar.Built

/-!
# What the steps of a construction do

Beginning a rule changes nothing, or gives the rule its number, a start and a
stop (`Build.openRule_cases`).

A relation between a builder and what a step leads to from there is a *frame* if it leaves
room for all that the steps do apart from recording loops (`Builder.IsFrame`). Each step obeys
it (`Build.Obeys`), and so does what a star or a plus does once it has its body
(`Build.IsLoop.exists_rest`).
-/

namespace AdaptiveLL

variable {σ α β : Type}

namespace Builder

variable (b : Builder σ) (name : String) (signature : Signature σ)

/-- The number of a rule, and the builder in which it has this number. -/
def numbering : Nat × Builder σ :=
  match b.findRule? name with
  | some id => (id, b)
  | none => (b.rules.size, { b with rules := b.rules.push { name } })

/-- A builder in which a rule has been opened. -/
def opened : Builder σ :=
  let (id, b) := b.numbering name
  let bounds : Fragment := { start := b.states.size, stop := b.states.size + 1 }
  { b with
    states := (b.states.push { rule := id, kind := .ruleStart }).push
      { rule := id, kind := .ruleStop }
    rules := b.rules.modify id fun r => { r with signature, bounds := some bounds }
    current := some (id : Int) }

theorem bounds_eq {b : Builder σ} {n : Nat} {r : RuleDraft σ} {f : Fragment}
    (hr : b.rules[n]? = some r) (hf : r.bounds = some f) : b.bounds n = f := by
  rw [bounds, numbered?_natCast, hr, Option.bind_some, hf]
  rfl

/-- To give a rule a number leaves the states as they are. -/
theorem states_numbering : (b.numbering name).2.states = b.states := by
  rw [numbering]
  split <;> rfl

theorem current_numbering : (b.numbering name).2.current = b.current := by
  rw [numbering]
  split <;> rfl

theorem finished_numbering : (b.numbering name).2.finished = b.finished := by
  rw [numbering]
  split <;> rfl

/-- A rule that has a number exists. -/
theorem numbering_lt : (b.numbering name).1 < (b.numbering name).2.rules.size := by
  rw [numbering]
  cases hfind : b.findRule? name with
  | some id =>
    obtain ⟨hlt, _⟩ := List.findIdx?_eq_some_iff_getElem.1 hfind
    simpa using hlt
  | none => exact Array.size_push .. ▸ Nat.lt_succ_self _

/-- To number the decisions keeps what is kept where one state is given a number. -/
theorem numberDecisions_keeps {P : Builder σ → Prop} {b : Builder σ} (hb : P b)
    (h : ∀ (c : Builder σ) (n : Nat), P c → P { c with
      states := c.states.modify n fun s => { s with decision := some c.decisions.size },
      decisions := c.decisions.push n }) : P b.numberDecisions := by
  rw [numberDecisions]
  induction List.range b.states.size using List.reverseRecOn with
  | nil => exact hb
  | append_singleton ids id ih =>
    rw [List.foldl_append, List.foldl_cons, List.foldl_nil, numberDecision]
    split
    · exact ih
    split
    · exact h _ id ih
    · exact ih

/-- To number the decisions changes states and the list of decisions only. -/
theorem numberDecisions_eq (b : Builder σ) :
    ∃ states decisions, b.numberDecisions = { b with states, decisions } := by
  refine numberDecisions_keeps (P := fun c => ∃ states decisions, c = { b with states, decisions })
    ⟨b.states, b.decisions, rfl⟩ ?_
  rintro c n ⟨states, decisions, rfl⟩
  exact ⟨_, _, rfl⟩

end Builder

namespace Build

open Builder

theorem ruleNumber_eq (name : String) (b : Builder σ) :
    ruleNumber name b = (.ok ((b.numbering name).1 : Int), (b.numbering name).2) := by
  rw [ruleNumber, numbering, bind_apply, get_apply]
  dsimp only
  cases b.findRule? name with
  | some id => rfl
  | none => rfl

/-- A state is created in the open rule. -/
theorem newState_eq (kind : StateKind) {b : Builder σ} (hf : b.finished = false) {rule : RuleId}
    (hc : b.current = some rule) : newState kind b =
      (.ok (b.states.size : Int), { b with states := b.states.push { rule, kind } }) := by
  rw [newState, bind_apply, get_apply]
  dsimp only
  rw [hf, if_neg Bool.false_ne_true, hc]
  rfl

/-- To close a rule leads from its start into its body and from there to its stop. -/
theorem closeRule_eq {b : Builder σ} {id : RuleId} {bounds : Fragment} (h : b.bounds id = bounds)
    (body : Fragment) : closeRule id body b = (do
      join bounds.start body.start
      join body.stop bounds.stop
      modify fun b => { b with current := none } : Build σ Unit) b := by
  rw [closeRule, bind_apply, get_apply]
  dsimp only
  rw [h]

/-- A way on is added to a state that exists. -/
theorem connect_eq {b : Builder σ} {n : Nat} (hn : n < b.states.size) (target : StateId)
    (label : Label) : connect n target label b =
      (.ok ⟨⟩, { b with states := b.states.modify n fun s => s.connect { target, label } }) := by
  rw [connect, bind_apply, get_apply]
  dsimp only
  rw [if_neg (show ¬((n : Int) < 0 ∨ (b.states.size : Int) ≤ n) by omega), Int.toNat_natCast]
  rfl

section Ensures

variable {I P : Builder σ → Prop}

/-- What holds of every builder with one more state is ensured by making a state. -/
theorem newState_ensures (kind : StateKind) {Q : StateId → Builder σ → Prop}
    (hI : ∀ b, P b → I b) (hQ : ∀ (b : Builder σ) (rule : RuleId), b.current = some rule → P b →
      I { b with states := b.states.push { rule, kind } } ∧
        Q (b.states.size : Int) { b with states := b.states.push { rule, kind } }) :
    Ensures I P (newState kind) Q := by
  intro b hb
  rw [newState, bind_apply, get_apply]
  dsimp only
  split
  · exact ⟨hI b hb, by rintro _ ⟨⟩⟩
  · cases hc : b.current with
    | none => exact ⟨hI b hb, by rintro _ ⟨⟩⟩
    | some rule =>
      have hpush := hQ b rule hc hb
      rw [hc] at hpush
      exact ⟨hpush.1, fun _ hid => by cases hid; exact hpush.2⟩

/-- What holds of every builder with one more way on is ensured by adding a way on. -/
theorem connect_ensures {source target : StateId} {label : Label} {Q : Unit → Builder σ → Prop}
    (hI : ∀ b, P b → I b) (hQ : ∀ (b : Builder σ) (n : Nat), source = n → P b →
      I { b with states := b.states.modify n fun s => s.connect { target, label } } ∧
        Q ⟨⟩ { b with states := b.states.modify n fun s => s.connect { target, label } }) :
    Ensures I P (connect source target label) Q := by
  intro b hb
  rw [connect, bind_apply, get_apply]
  dsimp only
  split
  · exact ⟨hI b hb, by rintro _ ⟨⟩⟩
  · next hrange =>
    obtain ⟨n, rfl⟩ := Int.eq_ofNat_of_zero_le (Int.not_lt.1 fun h => hrange (.inl h))
    obtain ⟨hkeep, hmade⟩ := hQ b n rfl hb
    exact ⟨hkeep, fun _ _ => hmade⟩

end Ensures

/-- Beginning a rule changes nothing, or gives a rule its start and its stop that had
    none. -/
theorem openRule_cases (name : String) (signature : Signature σ) (b : Builder σ) :
    (∃ e, openRule name signature b = (.error e, b)) ∨
      (b.current = none ∧ b.finished = false ∧
        (∀ r, (b.numbering name).2.rules[(b.numbering name).1]? = some r → r.bounds = none) ∧
        openRule name signature b =
          (.ok ((b.numbering name).1 : Int), b.opened name signature)) := by
  rw [openRule, bind_apply, get_apply]
  dsimp only
  split
  · exact .inl ⟨_, rfl⟩
  split
  · exact .inl ⟨_, rfl⟩
  next hfinished hcurrent =>
  have hfinished : b.finished = false := by simpa using hfinished
  rw [bind_apply, ruleNumber_eq]
  dsimp only
  rw [bind_apply, get_apply]
  dsimp only
  rw [Int.toNat_natCast]
  split
  · next hdefined =>
    -- Only a rule that was known before can have been defined.
    have hsame : (b.numbering name).2 = b := by
      rw [numbering] at hdefined ⊢
      cases hfind : b.findRule? name with
      | some id => rfl
      | none => simp [hfind] at hdefined
    exact .inl ⟨.definedTwice name, by rw [hsame]; rfl⟩
  · next hdefined =>
    refine .inr ⟨by simpa using hcurrent, hfinished, fun r hr => ?_, ?_⟩
    · simpa [hr] using hdefined
    · have hmodify (a : Array (RuleDraft σ)) (i : Nat) (bounds : Fragment) :
          (a.modify i fun r => { r with signature }).modify i
              (fun r => { r with bounds := some bounds }) =
            a.modify i fun r => { r with signature, bounds := some bounds } := by
        refine Array.toList_inj.1 ?_
        rw [Array.toList_modify, Array.toList_modify, Array.toList_modify, List.modify_modify_eq]
        rfl
      have hfinished' : (b.numbering name).2.finished = false :=
        (b.finished_numbering name).trans hfinished
      have hsize : (b.numbering name).2.states.size = b.states.size :=
        congrArg Array.size (b.states_numbering name)
      rw [bind_apply, modify_apply]
      dsimp only
      rw [bind_apply, newState_eq .ruleStart (by exact hfinished') rfl]
      dsimp only
      rw [bind_apply, newState_eq .ruleStop (by exact hfinished') rfl]
      dsimp only
      rw [bind_apply, modify_apply]
      dsimp only
      rw [hmodify, opened, Array.size_push]
      rfl

end Build

/-! ## What the steps leave alone -/

/-- A relation between a builder, the failure of a step if it fails, and the builder behind it
    leaves room for what the steps change, but for the loops and how they are decided, and for
    their failures, but for those because of loops. -/
structure Builder.IsFrame (R : Builder σ → Option BuildError → Builder σ → Prop) : Prop where
  refl (b : Builder σ) : R b none b
  trans {b b₁ b₂ : Builder σ} {e : Option BuildError} : R b none b₁ → R b₁ e b₂ → R b e b₂
  fail (b : Builder σ) {e : BuildError} : (∀ state, e ≠ .emptyLoopBody state) → R b (some e) b
  state (b : Builder σ) (rule : RuleId) (kind : StateKind) :
    R b none { b with states := b.states.push { rule, kind } }
  connect (b : Builder σ) (n : Nat) (t : Transition) :
    R b none { b with states := b.states.modify n fun s => s.connect t }
  rules (b : Builder σ) (rules : Array (RuleDraft σ)) (current : Option RuleId) :
    R b none { b with rules, current }
  predicates (b : Builder σ) (predicates : Array (Predicate σ)) : R b none { b with predicates }
  actions (b : Builder σ) (actions : Array (Action σ)) : R b none { b with actions }

/-- It leaves room for states that decide loops. -/
def Builder.IsMarkFrame (R : Builder σ → Option BuildError → Builder σ → Prop) : Prop :=
  ∀ (b : Builder σ) (n : Nat) (nonGreedy : Bool),
    R b none { b with states := b.states.modify n fun s => { s with exitAlt := 2, nonGreedy } }

/-- It leaves room for new loops as well, and for failures because of loops. -/
structure Builder.IsLoopFrame (R : Builder σ → Option BuildError → Builder σ → Prop) : Prop
    extends Builder.IsFrame R where
  mark : Builder.IsMarkFrame R
  loops (b : Builder σ) (loops : List Fragment) : R b none { b with loops }
  failLoop (b : Builder σ) (state : StateId) : R b (some (.emptyLoopBody state)) b

namespace Build

open Builder

/-- The failure that a result is. -/
def failure? : Except BuildError α → Option BuildError
  | .ok _ => none
  | .error e => some e

/-- Every outcome of a step stands in a relation to the builder before. -/
def Obeys (R : Builder σ → Option BuildError → Builder σ → Prop) (op : Build σ α) : Prop :=
  ∀ b, R b (failure? (op b).1) (op b).2

section Frame

variable {R : Builder σ → Option BuildError → Builder σ → Prop}

theorem Obeys.of_ok {op : Build σ α} (h : Obeys R op) {b b' : Builder σ} {a : α}
    (hop : op b = (.ok a, b')) : R b none b' := by
  have hb := h b
  rwa [hop] at hb

theorem Obeys.of_error {op : Build σ α} (h : Obeys R op) {b b' : Builder σ} {e : BuildError}
    (hop : op b = (.error e, b')) : R b (some e) b' := by
  have hb := h b
  rwa [hop] at hb

theorem Obeys.get {f : Builder σ → Build σ α} (h : ∀ b, Obeys R (f b)) :
    Obeys R (do f (← get)) :=
  fun b => h b b

theorem Obeys.modify {f : Builder σ → Builder σ} (h : ∀ b, R b none (f b)) :
    Obeys R (modify f) :=
  h

variable (frame : IsFrame R)

include frame

theorem Obeys.bind {op : Build σ α} {f : α → Build σ β} (h : Obeys R op)
    (hf : ∀ a, Obeys R (f a)) : Obeys R (op >>= f) := by
  intro b
  have hb := h b
  rw [bind_apply]
  rcases hop : op b with ⟨e | a, b'⟩ <;> rw [hop] at hb
  · exact hb
  · exact frame.trans hb (hf a b')

theorem obeys_pure (a : α) : Obeys R (pure a : Build σ α) :=
  frame.refl

theorem obeys_throw {e : BuildError} (he : ∀ state, e ≠ .emptyLoopBody state) :
    Obeys R (throw e : Build σ α) :=
  fun b => frame.fail b he

theorem newState_obeys (kind : StateKind) : Obeys R (newState kind) := by
  intro b
  rw [newState, bind_apply, get_apply]
  dsimp only
  split
  · exact obeys_throw frame (by simp) b
  · cases hc : b.current with
    | none => exact frame.fail b (by simp)
    | some rule =>
      have hpush := frame.state b rule kind
      rwa [hc] at hpush

theorem connect_obeys (source target : StateId) (l : Label) :
    Obeys R (connect source target l) := by
  intro b
  rw [connect, bind_apply, get_apply]
  dsimp only
  split
  · exact obeys_throw frame (by simp) b
  · exact frame.connect b _ _

theorem ruleNumber_obeys (name : String) : Obeys R (ruleNumber name) := by
  intro b
  rw [ruleNumber, bind_apply, get_apply]
  dsimp only
  cases b.findRule? name with
  | some id => exact frame.refl b
  | none => exact frame.rules b _ b.current

theorem element_obeys (l : Label) : Obeys R (element l) :=
  (newState_obeys frame _).bind frame fun _ => (newState_obeys frame _).bind frame fun _ =>
    (connect_obeys frame _ _ _).bind frame fun _ => obeys_pure frame _

theorem range_obeys (low high : Int) : Obeys R (range low high : Build σ Fragment) := by
  rw [Build.range]
  split
  · exact (obeys_throw frame (by simp)).bind frame fun _ => element_obeys frame _
  · exact element_obeys frame _

theorem oneOf_obeys (types : List Int) : Obeys R (oneOf types : Build σ Fragment) := by
  rw [Build.oneOf]
  split
  · exact (obeys_throw frame (by simp)).bind frame fun _ => element_obeys frame _
  · exact element_obeys frame _

theorem call_obeys (name : String) : Obeys R (call name) :=
  (ruleNumber_obeys frame name).bind frame fun _ => (newState_obeys frame _).bind frame fun _ =>
    (newState_obeys frame _).bind frame fun _ => (connect_obeys frame _ _ _).bind frame fun _ =>
    obeys_pure frame _

theorem predicate_obeys (p : Predicate σ) : Obeys R (predicate p) :=
  fun b => frame.trans (frame.predicates b _) (element_obeys frame _ _)

theorem action_obeys (a : Action σ) : Obeys R (action a) :=
  fun b => frame.trans (frame.actions b _) (element_obeys frame _ _)

theorem epsilon_obeys : Obeys R (epsilon : Build σ Fragment) :=
  (newState_obeys frame _).bind frame fun _ => obeys_pure frame _

theorem chain_obeys : (parts : List Fragment) → Obeys R (chain parts)
  | [] | [_] => obeys_pure frame _
  | _ :: g :: rest => (connect_obeys frame _ _ _).bind frame fun _ => chain_obeys (g :: rest)

theorem branch_obeys (start stop : StateId) :
    (alternatives : List Fragment) → Obeys R (branch start stop alternatives)
  | [] => obeys_pure frame _
  | _ :: rest => (connect_obeys frame _ _ _).bind frame fun _ =>
    (connect_obeys frame _ _ _).bind frame fun _ => branch_obeys start stop rest

theorem block_obeys : (alternatives : List Fragment) → Obeys R (block alternatives)
  | [] => obeys_throw frame (by simp)
  | [_] => obeys_pure frame _
  | _ :: _ :: _ => (newState_obeys frame _).bind frame fun _ =>
    (newState_obeys frame _).bind frame fun _ =>
    (branch_obeys frame _ _ _).bind frame fun _ => obeys_pure frame _

theorem sequence_obeys (parts : List Fragment) : Obeys R (sequence parts) := by
  rw [Build.sequence]
  split
  · exact (chain_obeys frame parts).bind frame fun _ => obeys_pure frame _
  · exact epsilon_obeys frame

theorem optional_obeys (alternatives : List Fragment) : Obeys R (optional alternatives) :=
  (epsilon_obeys frame).bind frame fun _ => block_obeys frame _

/-- A step that makes a loop out of fragments. -/
inductive IsLoop (alternatives : List Fragment) (greediness : Greediness) :
    Build σ Fragment → Prop
  | star : IsLoop alternatives greediness (star alternatives greediness)
  | plus : IsLoop alternatives greediness (plus alternatives greediness)

/-- Once it has its body, a loop is made like any other fragment. -/
theorem IsLoop.exists_rest {alternatives : List Fragment} {greediness : Greediness}
    {op : Build σ Fragment} (mark : IsMarkFrame R) (h : IsLoop alternatives greediness op) :
    ∃ rest, op = loopBody alternatives greediness >>= rest ∧ ∀ body, Obeys R (rest body) := by
  have markLoop_obeys (state : StateId) (nonGreedy : Bool) : Obeys R (markLoop state nonGreedy) :=
    Obeys.modify fun b => mark b _ nonGreedy
  cases h with
  | star =>
    exact ⟨_, rfl, fun _ => (newState_obeys frame _).bind frame fun _ =>
      (newState_obeys frame _).bind frame fun _ => (newState_obeys frame _).bind frame fun _ =>
      (connect_obeys frame _ _ _).bind frame fun _ =>
      (connect_obeys frame _ _ _).bind frame fun _ =>
      (connect_obeys frame _ _ _).bind frame fun _ =>
      (connect_obeys frame _ _ _).bind frame fun _ =>
      (markLoop_obeys _ _).bind frame fun _ => obeys_pure frame _⟩
  | plus =>
    exact ⟨_, rfl, fun _ => (newState_obeys frame _).bind frame fun _ =>
      (newState_obeys frame _).bind frame fun _ => (connect_obeys frame _ _ _).bind frame fun _ =>
      (connect_obeys frame _ _ _).bind frame fun _ =>
      (connect_obeys frame _ _ _).bind frame fun _ =>
      (markLoop_obeys _ _).bind frame fun _ => obeys_pure frame _⟩

theorem openRule_obeys (name : String) (signature : Signature σ) :
    Obeys R (openRule name signature) := by
  intro b
  rw [openRule, bind_apply, get_apply]
  dsimp only
  split
  · exact frame.fail b (by simp)
  split
  · exact frame.fail b (by simp)
  refine (ruleNumber_obeys frame name).bind frame (fun id => Obeys.get fun c => ?_) b
  split
  · exact fun c => frame.fail c (by simp)
  · exact (Obeys.modify fun c => frame.rules c _ _).bind frame fun _ =>
      (newState_obeys frame _).bind frame fun _ => (newState_obeys frame _).bind frame fun _ =>
      (Obeys.modify fun c => frame.rules c _ _).bind frame fun _ => obeys_pure frame _

theorem closeRule_obeys (id : RuleId) (body : Fragment) :
    Obeys R (closeRule id body : Build σ Unit) :=
  Obeys.get fun _ => (connect_obeys frame _ _ _).bind frame fun _ =>
    (connect_obeys frame _ _ _).bind frame fun _ => Obeys.modify fun b => frame.rules b _ none

end Frame

/-- A step leaves the loops alone, and does not fail because of one. -/
def IgnoresLoops (b : Builder σ) (e : Option BuildError) (b' : Builder σ) : Prop :=
  b'.loops = b.loops ∧ ∀ state, e ≠ some (.emptyLoopBody state)

theorem ignoresLoops_isFrame : IsFrame (σ := σ) IgnoresLoops where
  refl _ := ⟨rfl, by simp⟩
  trans h h' := ⟨h'.1.trans h.1, h'.2⟩
  fail _ _ he := ⟨rfl, by simpa using he⟩
  state _ _ _ := ⟨rfl, by simp⟩
  connect _ _ _ := ⟨rfl, by simp⟩
  rules _ _ _ := ⟨rfl, by simp⟩
  predicates _ _ := ⟨rfl, by simp⟩
  actions _ _ := ⟨rfl, by simp⟩

theorem ignoresLoops_isMarkFrame : IsMarkFrame (σ := σ) IgnoresLoops :=
  fun _ _ _ => ⟨rfl, by simp⟩

section LoopFrame

variable {R : Builder σ → Option BuildError → Builder σ → Prop} (frame : IsLoopFrame R)

include frame

theorem IsLoop.obeys {alternatives : List Fragment} {greediness : Greediness}
    {op : Build σ Fragment} (h : IsLoop alternatives greediness op) : Obeys R op := by
  obtain ⟨rest, rfl, hrest⟩ := h.exists_rest frame.toIsFrame frame.mark
  refine Obeys.bind frame.toIsFrame ?_ hrest
  refine (block_obeys frame.toIsFrame alternatives).bind frame.toIsFrame fun body b => ?_
  rw [bind_apply, get_apply]
  dsimp only
  rw [loopError?]
  split
  · exact frame.failLoop b _
  · exact frame.loops b _

/-- Every step obeys a frame that leaves room for loops. -/
theorem IsStep.obeys {op : Build σ α} (h : IsStep op) : Obeys R op := by
  have frame' := frame.toIsFrame
  cases h with
  | token | noneOf | wildcard => exact element_obeys frame' _
  | range => exact range_obeys frame' _ _
  | oneOf => exact oneOf_obeys frame' _
  | epsilon => exact epsilon_obeys frame'
  | call => exact call_obeys frame' _
  | predicate => exact predicate_obeys frame' _
  | action => exact action_obeys frame' _
  | sequence => exact sequence_obeys frame' _
  | block => exact block_obeys frame' _
  | optional => exact optional_obeys frame' _
  | star => exact IsLoop.star.obeys frame
  | plus => exact IsLoop.plus.obeys frame

end LoopFrame

end Build

end AdaptiveLL
