import AdaptiveLL.Proofs.Effect
import AdaptiveLL.Proofs.Fuel

/-!
# Computations that come to an end

A computation on a state *converges* if it comes to one result with whatever fuel, once there
is enough of it (`Effect.Converges`). So do computations that are put together of such as
converge (`Converges.bind`).
-/

namespace AdaptiveLL.Effect

variable {S T α β : Type}

/-- With enough fuel, a computation comes to one result, which is not that there is too little. -/
def Converges (e : Nat → Effect S α) (s : S) : Prop :=
  ∃ n r, r.1 ≠ .error .outOfFuel ∧ ∀ m ≥ n, e m s = r

theorem converges_const {e : Effect S α} {s : S} (h : (e s).1 ≠ .error .outOfFuel) :
    Converges (fun _ => e) s :=
  ⟨0, e s, h, fun _ _ => rfl⟩

namespace Converges

variable {e : Nat → Effect S α} {f : α → Nat → Effect S β} {s : S}

theorem of_ok {e : Effect S α} {a : α} {s' : S} (h : e s = (.ok a, s')) :
    Converges (fun _ => e) s := by
  refine converges_const ?_
  rw [h]
  rintro ⟨⟩

/-- What a computation converges to, each of its results is that has enough fuel. -/
theorem bind (h : Converges e s)
    (hf : ∀ n a s', e n s = (.ok a, s') → Converges (f a) s') :
    Converges (fun n => e n >>= fun a => f a n) s := by
  obtain ⟨n, ⟨fault | a, s'⟩, hr, hn⟩ := h
  · refine ⟨n, (.error fault, s'), fun he => hr (congrArg _ (Except.error.inj he)), fun m hm => ?_⟩
    dsimp only
    rw [bind_apply, hn m hm]
  · obtain ⟨k, r, hr', hk⟩ := hf n a s' (hn n le_rfl)
    refine ⟨max n k, r, hr', fun m hm => ?_⟩
    dsimp only
    rw [bind_apply, hn m ((le_max_left n k).trans hm)]
    exact hk m ((le_max_right n k).trans hm)

/-- What comes first needs no fuel. -/
theorem bind_of_ok {e : Effect S α} {a : α} {s' : S} (h : e s = (.ok a, s'))
    (hf : Converges (f a) s') : Converges (fun n => e >>= fun a => f a n) s := by
  refine (of_ok h).bind fun _ _ _ he => ?_
  cases h.symm.trans he
  exact hf

/-- With an invariant of the first of two computations, the second one need only converge where
    it holds. -/
theorem bind_of_isSafe {Q : α → S → Prop} {F : Fault → S → Prop} (h : Converges e s)
    (hsafe : ∀ n, IsSafe Q F (e n s)) (hf : ∀ a s', Q a s' → Converges (f a) s') :
    Converges (fun n => e n >>= fun a => f a n) s := by
  refine h.bind fun n a s' he => hf a s' ?_
  have hsafe := hsafe n
  rw [he] at hsafe
  exact hsafe

/-- It does not matter how fast the fuel grows. -/
theorem comp (h : Converges e s) {grows : Nat → Nat} (hgrows : ∀ n, n ≤ grows n) :
    Converges (fun n => e (grows n)) s := by
  obtain ⟨n, r, hr, hn⟩ := h
  exact ⟨n, r, hr, fun m hm => hn _ (hm.trans (hgrows m))⟩

/-- It does not matter what happens without any fuel. -/
theorem of_succ (h : Converges (fun n => e (n + 1)) s) : Converges e s := by
  obtain ⟨n, r, hr, hn⟩ := h
  refine ⟨n + 1, r, hr, fun m hm => ?_⟩
  obtain ⟨k, rfl⟩ := Nat.exists_eq_succ_of_ne_zero (Nat.ne_of_gt (Nat.lt_of_lt_of_le n.succ_pos hm))
  exact hn k (Nat.le_of_succ_le_succ hm)

theorem ofExcept {r : Nat → Except Fault α} (h : IsFueled r) (hh : Halts r) (s : S) :
    Converges (fun n => Effect.ofExcept (r n)) s := by
  obtain ⟨n, hn⟩ := hh
  refine ⟨n, (r n, s), hn, fun m hm => ?_⟩
  dsimp only
  rw [ofExcept_apply, h.eq_of_le hn hm]

theorem zoom {get : S → T} {put : T → S → S} {e : Nat → Effect T α} (h : Converges e (get s)) :
    Converges (fun n => Effect.zoom get put (e n)) s := by
  obtain ⟨n, r, hr, hn⟩ := h
  refine ⟨n, (r.1, put r.2 s), hr, fun m hm => ?_⟩
  dsimp only
  rw [zoom_apply, hn m hm]

end Converges

end AdaptiveLL.Effect
