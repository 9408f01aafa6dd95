import AdaptiveLL.Fault
import Mathlib.Order.Lattice
import Mathlib.Order.Nat

/-!
# Fuel

Fuel only bounds a computation: where it does not run out, more of it changes
nothing (`IsFueled`), and it does not run out if there is enough (`Halts`). Both
are kept where one computation uses the result of another (`IsFueled.bind`,
`Halts.bind`), and so is that nothing else goes wrong (`NeedsFuelOnly.bind`).
-/

namespace AdaptiveLL

variable {α β : Type}

/-- A computation that comes to the same with more fuel, once it has enough. -/
def IsFueled (f : Nat → Except Fault α) : Prop :=
  ∀ n m, n ≤ m → f n = .error .outOfFuel ∨ f m = f n

/-- Some fuel is enough. -/
def Halts (f : Nat → Except Fault α) : Prop :=
  ∃ n, f n ≠ .error .outOfFuel

theorem isFueled_const (r : Except Fault α) : IsFueled fun _ => r :=
  fun _ _ _ => .inr rfl

theorem halts_const {r : Except Fault α} (h : r ≠ .error .outOfFuel) : Halts fun _ => r :=
  ⟨0, h⟩

theorem halts_ok (a : α) : Halts fun _ => .ok a := by
  refine halts_const ?_
  rintro ⟨⟩

/-- With enough fuel, a computation comes to one result. -/
theorem IsFueled.eq_of_le {f : Nat → Except Fault α} (h : IsFueled f) {n m : Nat}
    (hn : f n ≠ .error .outOfFuel) (hm : n ≤ m) : f m = f n :=
  (h n m hm).resolve_left hn

/-- What a computation comes to does not depend on the fuel, if it has enough. -/
theorem IsFueled.eq {f : Nat → Except Fault α} (h : IsFueled f) {n m : Nat}
    (hn : f n ≠ .error .outOfFuel) (hm : f m ≠ .error .outOfFuel) : f n = f m := by
  rcases le_total n m with hle | hle
  · exact (h.eq_of_le hn hle).symm
  · exact h.eq_of_le hm hle

theorem IsFueled.bind {f : Nat → Except Fault α} {k : α → Nat → Except Fault β} (h : IsFueled f)
    (hk : ∀ a, IsFueled (k a)) : IsFueled fun n => f n >>= fun a => k a n := by
  intro n m hnm
  dsimp only
  rcases h n m hnm with he | he
  · rw [he]
    exact .inl rfl
  · rw [he]
    cases f n with
    | error e => exact .inr rfl
    | ok a => exact hk a n m hnm

theorem Halts.bind {f : Nat → Except Fault α} {k : α → Nat → Except Fault β} (hf : IsFueled f)
    (hk : ∀ a, IsFueled (k a)) (h : Halts f) (hh : ∀ n a, f n = .ok a → Halts (k a)) :
    Halts fun n => f n >>= fun a => k a n := by
  obtain ⟨n, hn⟩ := h
  cases hr : f n with
  | error e =>
    refine ⟨n, fun he => hn ?_⟩
    dsimp only at he
    rw [hr] at he ⊢
    exact congrArg _ (Except.error.inj he)
  | ok a =>
    obtain ⟨m, hm⟩ := hh n a hr
    refine ⟨max n m, fun he => hm ?_⟩
    dsimp only at he
    rw [hf.eq_of_le hn (le_max_left n m), hr] at he
    rw [← (hk a).eq_of_le hm (le_max_right n m)]
    exact he

/-- A computation fails only if it runs out of fuel. -/
def NeedsFuelOnly (r : Except Fault α) : Prop :=
  ∀ fault, r = .error fault → fault = .outOfFuel

theorem needsFuelOnly_ok (a : α) : NeedsFuelOnly (.ok a) :=
  fun _ => nofun

theorem NeedsFuelOnly.bind {r : Except Fault α} {k : α → Except Fault β} (h : NeedsFuelOnly r)
    (hk : ∀ a, r = .ok a → NeedsFuelOnly (k a)) : NeedsFuelOnly (r >>= k) := by
  intro fault he
  cases r with
  | error fault' => exact h fault (congrArg _ (Except.error.inj he))
  | ok a => exact hk a rfl fault he

/-- With enough fuel, such a computation has a result. -/
theorem NeedsFuelOnly.exists_ok {r : Except Fault α} (h : NeedsFuelOnly r)
    (hr : r ≠ .error .outOfFuel) : ∃ a, r = .ok a := by
  cases r with
  | error fault => exact absurd (congrArg _ (h fault rfl)) hr
  | ok a => exact ⟨a, rfl⟩

/-- With enough fuel, such a computation has one result. -/
theorem IsFueled.exists_eq_ok {f : Nat → Except Fault α} (h : IsFueled f) (hh : Halts f)
    (hf : ∀ n, NeedsFuelOnly (f n)) : ∃ n a, ∀ m ≥ n, f m = .ok a := by
  obtain ⟨n, hn⟩ := hh
  obtain ⟨a, ha⟩ := (hf n).exists_ok hn
  exact ⟨n, a, fun m hm => (h.eq_of_le hn hm).trans ha⟩

end AdaptiveLL
