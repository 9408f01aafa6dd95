import AdaptiveLL.Proofs.Grammar.Construction
import AdaptiveLL.Proofs.Grammar.Layout

/-!
# How states are marked

A state that decides a loop is marked by the alternative that leaves the loop, and by whether this
happens as early as possible (`Mark`). A new state is plain, and ways on do not change how it is
marked, so every step that makes no loop keeps all marks (`Builder.keepsMarks_isFrame`).
-/

namespace AdaptiveLL

variable {σ : Type}

/-- How a state is marked: by the alternative that leaves the loop it decides, which is `0` if it
    decides none, and by whether the loop is left as early as possible. -/
structure Mark where
  exit : Int := 0
  nonGreedy : Bool := false
deriving DecidableEq

namespace Mark

/-- The mark of a state that decides no loop. -/
def plain : Mark := {}

/-- The mark of a state that decides a loop. -/
def loop (nonGreedy : Bool) : Mark :=
  { exit := 2, nonGreedy }

end Mark

def State.mark (s : State) : Mark :=
  { exit := s.exitAlt, nonGreedy := s.nonGreedy }

/-- How some states are marked. -/
def marksFrom (states : Array State) (id : StateId) : Option Mark :=
  (numbered? states id).map State.mark

section

variable {states : Array State} {id : StateId} {n : Nat}

theorem marksFrom_natCast (n : Nat) : marksFrom states n = states[n]?.map State.mark := by
  rw [marksFrom, Builder.numbered?_natCast]

theorem marksFrom_of_neg (h : id < 0) : marksFrom states id = none := by
  rw [marksFrom, numbered?, if_pos h, Option.map_none]

theorem marksFrom_size : marksFrom states (states.size : Int) = none := by
  rw [marksFrom_natCast, Array.getElem?_eq_none le_rfl, Option.map_none]

theorem marksFrom_push (s : State) :
    marksFrom (states.push s) = Function.update (marksFrom states) states.size (some s.mark) := by
  refine ext_of_natCast (fun _ => marksFrom_of_neg) (fun id hid => ?_) fun n => ?_
  · rw [Function.update_of_ne (hid.trans_le (Int.natCast_nonneg _)).ne, marksFrom_of_neg hid]
  · rw [marksFrom_natCast, Array.getElem?_push, Function.update_apply]
    simp only [Int.natCast_inj, marksFrom_natCast]
    split <;> rfl

/-- A change of one state changes how this one is marked. -/
theorem marksFrom_modify {f : State → State} {s : State} (h : states[n]? = some s) :
    marksFrom (states.modify n f) = Function.update (marksFrom states) n (some (f s).mark) := by
  refine ext_of_natCast (fun _ => marksFrom_of_neg) (fun id hid => ?_) fun m => ?_
  · rw [Function.update_of_ne (hid.trans_le (Int.natCast_nonneg _)).ne, marksFrom_of_neg hid]
  · rw [marksFrom_natCast, Array.getElem?_modify, Function.update_apply]
    simp only [Int.natCast_inj, marksFrom_natCast, eq_comm (a := m)]
    split
    · next hm => rw [← hm, h, Option.map_some, Option.map_some]
    · rfl

/-- A change that keeps how a state is marked changes nothing. -/
theorem marksFrom_modify_same {f : State → State} (hf : ∀ s, (f s).mark = s.mark) :
    marksFrom (states.modify n f) = marksFrom states := by
  refine ext_of_natCast (fun _ => marksFrom_of_neg) (fun _ => marksFrom_of_neg) fun m => ?_
  rw [marksFrom_natCast, marksFrom_natCast, Array.getElem?_modify]
  split
  · rw [Option.map_map, show State.mark ∘ f = State.mark from funext hf]
  · rfl

/-- A state that is marked may be made the decision of a loop. -/
theorem marksFrom_loop (nonGreedy : Bool) {m : Mark} (h : marksFrom states id = some m) :
    marksFrom (states.modify id.toNat fun s => { s with exitAlt := 2, nonGreedy }) =
      Function.update (marksFrom states) id (some (.loop nonGreedy)) := by
  by_cases hneg : id < 0
  · rw [marksFrom_of_neg hneg] at h
    cases h
  · obtain ⟨n, rfl⟩ := Int.eq_ofNat_of_zero_le (Int.not_lt.1 hneg)
    rw [marksFrom_natCast] at h
    obtain ⟨s, hs, _⟩ := Option.map_eq_some_iff.1 h
    exact marksFrom_modify hs

end

/-- How the states of a network are marked. -/
def Network.marks (net : Network) : StateId → Option Mark :=
  marksFrom net.states

namespace Builder

/-- How the states of a builder are marked. -/
def marks (b : Builder σ) : StateId → Option Mark :=
  marksFrom b.states

/-- No state has been marked anew. -/
def KeepsMarks (b b' : Builder σ) : Prop :=
  ∀ id m, b.marks id = some m → b'.marks id = some m

variable {b b₁ b₂ b' : Builder σ} {id : StateId} {m : Mark}

theorem KeepsMarks.of_eq (h : b'.marks = b.marks) : b.KeepsMarks b' := fun _ _ hm => h ▸ hm

theorem KeepsMarks.trans (h : b.KeepsMarks b₁) (h' : b₁.KeepsMarks b₂) : b.KeepsMarks b₂ :=
  fun id m hm => h' id m (h id m hm)

/-- A state that was not there may be marked. -/
theorem KeepsMarks.update (h : b.KeepsMarks b₁) (hid : b.marks id = none)
    (hmarks : b'.marks = Function.update b₁.marks id (some m)) : b.KeepsMarks b' := by
  intro i m' hm
  have hne : i ≠ id := by
    rintro rfl
    rw [hid] at hm
    cases hm
  rw [hmarks, Function.update_of_ne hne, h i m' hm]

/-- To make fragments without making loops keeps all marks. -/
theorem keepsMarks_isFrame : IsFrame (σ := σ) fun b _ b' => b.KeepsMarks b' where
  refl _ := .of_eq rfl
  trans h h' := h.trans h'
  fail _ _ _ := .of_eq rfl
  state _ _ _ := (KeepsMarks.of_eq rfl).update marksFrom_size (marksFrom_push _)
  connect _ _ _ := .of_eq (marksFrom_modify_same fun _ => rfl)
  rules _ _ _ := .of_eq rfl
  predicates _ _ := .of_eq rfl
  actions _ _ := .of_eq rfl

end Builder

end AdaptiveLL
