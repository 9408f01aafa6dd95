import AdaptiveLL.Proofs.Grammar.Construction

/-!
# The numbers of the decisions

Numbering gives the next numbers to the states with several ways on, in the order of the
states (`Builder.numberDecisions_spec`). Nothing else gives numbers, so those that a
builder has already come from an attempt to give the grammar that failed after it had
numbered the decisions (`Builder.IsReachable.decisions_cases`), and they are never taken
back.

So the decisions of a grammar that is built are numbered correctly from the first number
that no failed attempt has given (`Builder.IsReachable.isNumberedFrom`). Where an attempt
has failed in this way, they are numbered twice (`Builder.renumbered_isNumberedTwice`).
-/

namespace AdaptiveLL

variable {σ : Type}

/-- From a number on, the list of decisions consists of the states with several ways on,
    each once and in their order, and each of them knows its number; no other state has
    a number. -/
structure Network.IsNumberedFrom (net : Network) (first : Nat) : Prop where
  ascending : (net.decisions.toList.drop first).Pairwise (· < ·)
  mem : ∀ id, id ∈ net.decisions.toList.drop first ↔
    ∃ s, net.state id = .ok s ∧ 2 ≤ s.transitions.length
  number : ∀ n, first ≤ n → n < net.decisions.size → ∃ id s, net.decisionState n = .ok id ∧
    net.state id = .ok s ∧ s.decision = some n
  undecided : ∀ id s, net.state id = .ok s → s.transitions.length < 2 → s.decision = none

/-! ## Numbering -/

namespace Builder

/-- A state has several ways on. -/
def branches (b : Builder σ) (i : Nat) : Bool :=
  b.states[i]?.any fun s => 2 ≤ s.transitions.length

theorem branches_eq_true_iff {b : Builder σ} {i : Nat} :
    b.branches i = true ↔ ∃ s, b.states[i]? = some s ∧ 2 ≤ s.transitions.length := by
  rw [branches, Option.any_eq_true]
  simp only [decide_eq_true_eq]

theorem numberDecision_of_branches {b : Builder σ} {i : Nat} (h : b.branches i = true) :
    b.numberDecision i = { b with
      states := b.states.modify i fun s => { s with decision := some b.decisions.size }
      decisions := b.decisions.push i } := by
  obtain ⟨s, hs, hlen⟩ := branches_eq_true_iff.1 h
  simp only [numberDecision, hs, if_pos hlen]

theorem numberDecision_of_not_branches {b : Builder σ} {i : Nat} (h : b.branches i = false) :
    b.numberDecision i = b := by
  rw [numberDecision]
  cases hs : b.states[i]? with
  | none => rfl
  | some s =>
    have hlen : ¬2 ≤ s.transitions.length := fun hlen => by
      rw [branches_eq_true_iff.2 ⟨s, hs, hlen⟩] at h
      cases h
    simp only [if_neg hlen]

/-- Numbering changes neither which states there are nor their ways on. -/
theorem branches_numberDecision (b : Builder σ) (i j : Nat) :
    (b.numberDecision i).branches j = b.branches j := by
  cases h : b.branches i with
  | false => rw [numberDecision_of_not_branches h]
  | true =>
    rw [numberDecision_of_branches h, branches, branches, Array.getElem?_modify]
    split
    · cases b.states[j]? <;> rfl
    · rfl

/-- The numbers that have been given when the states before some number have been
    looked at: one to each of them that has several ways on. -/
structure Numbers (b b' : Builder σ) (k : Nat) : Prop where
  branches : ∀ j, b'.branches j = b.branches j
  decisions : b'.decisions.toList =
    b.decisions.toList ++ ((List.range k).filter b.branches).map Int.ofNat
  number : ∀ (n i : Nat), b.decisions.size ≤ n → b'.decisions[n]? = some (i : Int) →
    ∃ s, b'.states[i]? = some s ∧ s.decision = some n

/-- Looking at the next state gives it the next number if it needs one. -/
theorem Numbers.succ {b b' : Builder σ} {k : Nat} (h : b.Numbers b' k) :
    b.Numbers (b'.numberDecision k) (k + 1) := by
  have hbranches (j : Nat) : (b'.numberDecision k).branches j = b.branches j :=
    (branches_numberDecision b' k j).trans (h.branches j)
  cases hk : b'.branches k with
  | false =>
    have hnot : b.branches k = false := (h.branches k).symm.trans hk
    rw [numberDecision_of_not_branches hk]
    refine ⟨h.branches, ?_, h.number⟩
    rw [h.decisions, List.range_succ, List.filter_append, List.filter_cons_of_neg (by simp [hnot]),
      List.filter_nil, List.append_nil]
  | true =>
    have hbranch : b.branches k = true := (h.branches k).symm.trans hk
    refine ⟨hbranches, ?_, fun n i hn hi => ?_⟩
    · rw [numberDecision_of_branches hk, Array.toList_push, h.decisions, List.range_succ,
        List.filter_append, List.filter_cons_of_pos hbranch, List.filter_nil, List.map_append,
        List.append_assoc]
      rfl
    · rw [numberDecision_of_branches hk] at hi ⊢
      dsimp only at hi ⊢
      rw [Array.getElem?_push] at hi
      rw [Array.getElem?_modify]
      split at hi
      · -- The state at hand has the number that is new.
        next heq =>
        obtain rfl : k = i := Int.natCast_inj.1 (Option.some.inj hi)
        obtain ⟨s, hs, _⟩ := branches_eq_true_iff.1 hk
        rw [if_pos rfl, hs]
        exact ⟨_, rfl, congrArg some heq.symm⟩
      · -- The states that had numbers come before it.
        have hmem : (i : Int) ∈ ((List.range k).filter b.branches).map Int.ofNat := by
          have hget : (b.decisions.toList ++
              ((List.range k).filter b.branches).map Int.ofNat)[n]? = some (i : Int) := by
            rw [← h.decisions, Array.getElem?_toList, hi]
          rw [List.getElem?_append_right (by simpa using hn)] at hget
          exact List.mem_of_getElem? hget
        obtain ⟨j, hj, hji⟩ := List.mem_map.1 hmem
        obtain rfl : j = i := Int.ofNat.inj hji
        have hlt : j < k := List.mem_range.1 (List.mem_of_mem_filter hj)
        rw [if_neg hlt.ne']
        exact h.number n j hn hi

theorem size_states_numberDecisions (b : Builder σ) :
    b.numberDecisions.states.size = b.states.size := by
  rw [numberDecisions]
  induction List.range b.states.size using List.reverseRecOn with
  | nil => rfl
  | append_singleton ids id ih =>
    rw [List.foldl_append]
    exact (size_numberDecision _ id).trans ih

/-- Numbering gives one number to each state that has several ways on. -/
theorem numberDecisions_spec (b : Builder σ) : b.Numbers b.numberDecisions b.states.size := by
  rw [numberDecisions]
  induction b.states.size with
  | zero =>
    refine ⟨fun _ => rfl, by simp, fun n i hn hi => ?_⟩
    have hnone : b.decisions[n]? = none := Array.getElem?_eq_none hn
    rw [List.range_zero, List.foldl_nil, hnone] at hi
    cases hi
  | succ k ih =>
    rw [List.range_succ, List.foldl_append]
    exact ih.succ

/-- The numbers that have been given from the first new one on are those that the
    grammar needs. -/
theorem numberDecisions_isNumberedFrom {b : Builder σ} (h : b.IsSound) :
    b.numberDecisions.grammar.IsNumberedFrom b.decisions.size := by
  have hspec := numberDecisions_spec b
  have hdrop : b.numberDecisions.grammar.decisions.toList.drop b.decisions.size =
      ((List.range b.states.size).filter b.branches).map Int.ofNat := by
    rw [grammar, hspec.decisions]
    exact List.drop_left
  -- A state branches in the grammar if it does so in the builder.
  have hbranch (i : Nat) : b.branches i = true ↔ ∃ s, b.numberDecisions.grammar.state i = .ok s ∧
      2 ≤ s.transitions.length := by
    rw [← hspec.branches, branches_eq_true_iff]
    constructor
    · rintro ⟨s, hs, hlen⟩
      exact ⟨_, state_grammar.2 ⟨i, s, rfl, hs, rfl⟩, by rwa [List.length_map]⟩
    · rintro ⟨_, hs, hlen⟩
      obtain ⟨j, s, hj, hs₀, rfl⟩ := state_grammar.1 hs
      obtain rfl : i = j := Int.natCast_inj.1 hj
      rw [List.length_map] at hlen
      exact ⟨s, hs₀, hlen⟩
  constructor
  case ascending =>
    rw [hdrop, List.pairwise_map]
    exact (List.pairwise_lt_range.filter _).imp Int.ofNat_lt.2
  case mem =>
    intro id
    rw [hdrop, List.mem_map]
    constructor
    · rintro ⟨i, hi, rfl⟩
      exact (hbranch i).1 (List.mem_filter.1 hi).2
    · rintro ⟨s, hs, hlen⟩
      obtain ⟨i, s₀, rfl, hs₀, rfl⟩ := state_grammar.1 hs
      have hlt : i < b.states.size :=
        size_states_numberDecisions b ▸ (Array.getElem?_eq_some_iff.1 hs₀).1
      exact ⟨i, List.mem_filter.2 ⟨List.mem_range.2 hlt, (hbranch i).2 ⟨_, hs, hlen⟩⟩, rfl⟩
  case number =>
    intro n hn hlt
    obtain ⟨id, hid⟩ : ∃ id, b.numberDecisions.grammar.decisions[n]? = some id :=
      ⟨_, Array.getElem?_eq_getElem hlt⟩
    have hnew : id ∈ ((List.range b.states.size).filter b.branches).map Int.ofNat := by
      rw [← hdrop]
      refine List.mem_of_getElem? (i := n - b.decisions.size) ?_
      rw [List.getElem?_drop, Nat.add_sub_cancel' hn, Array.getElem?_toList, hid]
    obtain ⟨i, _, rfl⟩ := List.mem_map.1 hnew
    obtain ⟨s, hs, hd⟩ := hspec.number n i hn hid
    refine ⟨i, _, ?_, state_grammar.2 ⟨i, s, rfl, hs, rfl⟩, hd⟩
    rw [Network.decisionState, numbered?_natCast, hid]
    rfl
  case undecided =>
    intro id s hs hlen
    obtain ⟨i, s₀, rfl, hs₀, rfl⟩ := state_grammar.1 hs
    rw [List.length_map] at hlen
    by_contra hne
    obtain ⟨n, hn⟩ := Option.ne_none_iff_exists'.1 hne
    have := ((numberDecisions_isSound h).1.decision i s₀ n hs₀ hn).2
    omega

end Builder

/-! ## What has been numbered before -/

namespace Build

/-- The numbers that have been given, and whether the grammar has been given. -/
def given (b : Builder σ) : Array StateId × Bool :=
  (b.decisions, b.finished)

/-- No step changes them, even if it fails. -/
theorem given_isLoopFrame : Builder.IsLoopFrame (σ := σ) fun b _ b' => given b' = given b where
  refl _ := rfl
  trans h h' := h'.trans h
  fail _ _ _ := rfl
  state _ _ _ := rfl
  connect _ _ _ := rfl
  rules _ _ _ := rfl
  predicates _ _ := rfl
  actions _ _ := rfl
  mark _ _ _ := rfl
  loops _ _ := rfl
  failLoop _ _ := rfl

end Build

namespace Builder

/-- An attempt to give the grammar failed after it had numbered the decisions. -/
def FailsNumbered (b : Builder σ) : Prop :=
  ∃ e, Build.finish b = (.error e, b.numberDecisions)

/-- The numbers that a builder has before it gives the grammar are those of the last
    attempt that failed after numbering, and there are none if no attempt did. -/
theorem IsReachable.decisions_cases {b : Builder σ} (h : b.IsReachable) (hf : b.finished = false) :
    b.decisions = #[] ∨ ∃ b₀ : Builder σ, b₀.IsReachable ∧ b₀.FailsNumbered ∧
      b.decisions = b₀.numberDecisions.decisions := by
  -- A step that leaves the numbers as they are leaves where they come from.
  have keep {b b' : Builder σ} (hgiven : Build.given b' = Build.given b)
      (ih : b.finished = false → b.decisions = #[] ∨ ∃ b₀ : Builder σ, b₀.IsReachable ∧
        b₀.FailsNumbered ∧ b.decisions = b₀.numberDecisions.decisions)
      (hf : b'.finished = false) : b'.decisions = #[] ∨ ∃ b₀ : Builder σ, b₀.IsReachable ∧
        b₀.FailsNumbered ∧ b'.decisions = b₀.numberDecisions.decisions := by
    obtain ⟨hd, hfinished⟩ := Prod.mk.inj hgiven
    rw [hd]
    exact ih (hfinished ▸ hf)
  induction h with
  | empty => exact .inl rfl
  | step _ hop ih => exact keep (hop.obeys Build.given_isLoopFrame _) ih hf
  | openRule name signature _ ih =>
    exact keep (Build.openRule_obeys Build.given_isLoopFrame.toIsFrame name signature _) ih hf
  | closeRule id body _ ih =>
    exact keep (Build.closeRule_obeys Build.given_isLoopFrame.toIsFrame id body _) ih hf
  | @finish b hb ih =>
    obtain ⟨e, he⟩ | ⟨e, he⟩ | ⟨_, he⟩ := finish_cases b <;> rw [he] at hf ⊢
    · exact ih hf
    · exact .inr ⟨b, hb, ⟨e, he⟩, rfl⟩
    · cases hf

theorem finished_of_finish {b : Builder σ} {g : Grammar σ} (h : (Build.finish b).1 = .ok g) :
    b.finished = false := by
  rw [Build.finish, bind_apply, get_apply] at h
  dsimp only at h
  split at h
  · cases h
  · next hf => exact Bool.eq_false_iff.2 hf

/-- The decisions of a grammar that is built are numbered correctly from the first number
    on that no attempt before has given. -/
theorem IsReachable.isNumberedFrom {b : Builder σ} (h : b.IsReachable) {g : Grammar σ}
    (hg : (Build.finish b).1 = .ok g) :
    g.toNetwork.IsNumberedFrom b.decisions.size ∧ (b.decisions = #[] ∨
      ∃ b₀ : Builder σ, b₀.IsReachable ∧ b₀.FailsNumbered ∧
        b.decisions = b₀.numberDecisions.decisions) := by
  obtain ⟨_, rfl⟩ := finish_eq_ok hg
  exact ⟨numberDecisions_isNumberedFrom h.isSound, h.decisions_cases (finished_of_finish hg)⟩

/-- A rule is called outside any rule, which gives it a number, and defined only after an
    attempt to give the grammar that fails because it is not defined. -/
def renumbered : Builder Unit :=
  let called := (Build.call "b" {}).2
  let begun := (Grammar.define [{ name := "a", body := .block [.token 1, .token 2] }] called).2
  (Grammar.define [{ name := "b", body := .token 3 }] (Build.finish begun).2).2

theorem renumbered_isReachable : renumbered.IsReachable :=
  Grammar.isReachable_define _ (.finish (Grammar.isReachable_define _ (.step .empty (.call "b"))))

theorem renumbered_eq : (Build.finish renumbered).1.toOption.map (fun g => g.decisions) =
    some #[6, 6] ∧ renumbered.decisions.size = 1 := by
  decide +kernel

theorem renumbered_finish :
    ∃ g, (Build.finish renumbered).1 = .ok g ∧ g.decisions = #[6, 6] := by
  obtain ⟨g, hg, hd⟩ := Option.map_eq_some_iff.1 renumbered_eq.1
  cases h : (Build.finish renumbered).1 with
  | error e =>
    rw [h] at hg
    cases hg
  | ok g' =>
    rw [h] at hg
    cases hg
    exact ⟨g, rfl, hd⟩

/-- The decision is numbered correctly from the number on that the failed attempt has not
    given. -/
theorem renumbered_isNumberedFrom_one :
    ∃ g, (Build.finish renumbered).1 = .ok g ∧ g.toNetwork.IsNumberedFrom 1 := by
  obtain ⟨g, hg, _⟩ := renumbered_finish
  exact ⟨g, hg, renumbered_eq.2 ▸ (renumbered_isReachable.isNumberedFrom hg).1⟩

/-- The failed attempt has numbered the decision already, which is not taken back. -/
theorem renumbered_isNumberedTwice : renumbered.IsReachable ∧
    ∃ g, (Build.finish renumbered).1 = .ok g ∧ g.decisions = #[6, 6] ∧
      ¬g.toNetwork.IsNumberedFrom 0 := by
  obtain ⟨g, hg, hd⟩ := renumbered_finish
  refine ⟨renumbered_isReachable, g, hg, hd, fun h => ?_⟩
  have hascending := h.ascending
  rw [hd, List.drop_zero] at hascending
  exact absurd hascending (by decide)

end Builder

end AdaptiveLL
