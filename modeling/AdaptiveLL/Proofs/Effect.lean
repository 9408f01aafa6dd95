import AdaptiveLL.Fault
import Mathlib.Logic.Basic

/-!
# Computations on a state

How the computations of this library act on their state, one law for each way
of putting them together. They hold of every type of errors, so for `Effect` as
well as for `Build`.
-/

namespace AdaptiveLL

variable {ε S T α β : Type}

/-- A computation that succeeds has used a result of its first part. -/
theorem Except.exists_of_bind {x : Except ε α} {f : α → Except ε β} {b : β}
    (h : (do let a ← x; f a) = .ok b) : ∃ a, x = .ok a ∧ f a = .ok b :=
  match x, h with
  | .ok a, h => ⟨a, rfl, h⟩

theorem Except.exists_of_map {x : Except ε α} {f : α → β} {b : β} (h : x.map f = .ok b) :
    ∃ a, x = .ok a ∧ f a = b :=
  match x, h with
  | .ok a, h => ⟨a, rfl, Except.ok.inj h⟩

theorem Except.ok_bind_eq (a : α) (f : α → Except ε β) : (.ok a >>= f) = f a := rfl

/-- Two results are related, or are one error. -/
inductive Except.Relates (R : α → β → Prop) : Except ε α → Except ε β → Prop
  | ok {a : α} {b : β} : R a b → Relates R (.ok a) (.ok b)
  | error (x : ε) : Relates R (.error x) (.error x)

theorem Except.Relates.bind {R : α → β → Prop} {α' β' : Type} {R' : α' → β' → Prop}
    {x : Except ε α} {y : Except ε β} {f : α → Except ε α'} {g : β → Except ε β'}
    (h : Relates R x y) (hf : ∀ a b, R a b → Relates R' (f a) (g b)) :
    Relates R' (x >>= f) (y >>= g) := by
  cases h with
  | ok hab => exact hf _ _ hab
  | error x => exact .error x

/-- One computation after another: an error ends both. -/
theorem bind_apply (e : ExceptT ε (StateM S) α) (f : α → ExceptT ε (StateM S) β) (s : S) :
    (e >>= f) s = match e s with
      | (.ok a, s') => f a s'
      | (.error x, s') => (.error x, s') := by
  show (match e s with | (r, s') => ExceptT.bindCont f r s') = _
  rcases e s with ⟨a | a, s'⟩ <;> rfl

/-- Two computations that succeed one after the other do so each. -/
theorem exists_of_bind_apply {e : ExceptT ε (StateM S) α} {f : α → ExceptT ε (StateM S) β}
    {s s' : S} {b : β} (h : (e >>= f) s = (.ok b, s')) :
    ∃ a s₁, e s = (.ok a, s₁) ∧ f a s₁ = (.ok b, s') := by
  rw [bind_apply] at h
  rcases he : e s with ⟨x | a, s₁⟩
  · rw [he] at h
    cases h
  · rw [he] at h
    exact ⟨a, s₁, rfl, h⟩

/-- Of two computations one after the other, the first one fails, or the second one. -/
theorem error_of_bind_apply {e : ExceptT ε (StateM S) α} {f : α → ExceptT ε (StateM S) β} {s s' : S}
    {x : ε} (h : (e >>= f) s = (.error x, s')) :
    e s = (.error x, s') ∨ ∃ a s₁, e s = (.ok a, s₁) ∧ f a s₁ = (.error x, s') := by
  rw [bind_apply] at h
  rcases he : e s with ⟨y | a, s₁⟩ <;> rw [he] at h
  · cases h
    exact .inl rfl
  · exact .inr ⟨a, s₁, rfl, h⟩

/-- What holds of the state behind the first of two computations, and behind the second
    one if it is come to, holds behind both. -/
theorem of_bind {P : S → Prop} {e : ExceptT ε (StateM S) α} {f : α → ExceptT ε (StateM S) β} {s : S}
    (h : P (e s).2) (hf : ∀ a s', e s = (.ok a, s') → P s' → P (f a s').2) :
    P ((e >>= f) s).2 := by
  rw [bind_apply]
  rcases he : e s with ⟨a | a, s'⟩
  · rw [he] at h
    exact h
  · rw [he] at h
    exact hf a s' he h

@[simp] theorem pure_apply (a : α) (s : S) :
    (pure a : ExceptT ε (StateM S) α) s = (.ok a, s) := rfl

@[simp] theorem throw_apply (x : ε) (s : S) :
    (throw x : ExceptT ε (StateM S) α) s = (.error x, s) := rfl

@[simp] theorem get_apply (s : S) : (get : ExceptT ε (StateM S) S) s = (.ok s, s) := rfl

@[simp] theorem set_apply (s s' : S) :
    (set s' : ExceptT ε (StateM S) PUnit) s = (.ok ⟨⟩, s') := rfl

@[simp] theorem modify_apply (f : S → S) (s : S) :
    (modify f : ExceptT ε (StateM S) PUnit) s = (.ok ⟨⟩, f s) := rfl

namespace Effect

@[simp] theorem ofExcept_apply (r : Except Fault α) (s : S) :
    (ofExcept r : Effect S α) s = (r, s) := rfl

theorem ofExcept_ok_bind (a : α) (f : α → Effect S β) : (ofExcept (.ok a) >>= f) = f a := rfl

@[simp] theorem zoom_apply (get : S → T) (put : T → S → S) (e : Effect T α) (s : S) :
    zoom get put e s = ((e (get s)).1, put (e (get s)).2 s) := rfl

theorem exists_of_ofExcept_bind {r : Except Fault α} {f : α → Effect S β} {s s' : S} {b : β}
    (h : (ofExcept r >>= f) s = (.ok b, s')) : ∃ a, r = .ok a ∧ f a s = (.ok b, s') := by
  obtain ⟨a, s₁, hr, h⟩ := exists_of_bind_apply h
  obtain ⟨rfl, rfl⟩ := Prod.mk.inj hr
  exact ⟨a, rfl, h⟩

theorem exists_of_zoom_bind {get : S → T} {put : T → S → S} {e : Effect T α} {f : α → Effect S β}
    {s s' : S} {b : β} (h : (zoom get put e >>= f) s = (.ok b, s')) :
    ∃ a t, e (get s) = (.ok a, t) ∧ f a (put t s) = (.ok b, s') := by
  obtain ⟨a, s₁, hr, h⟩ := exists_of_bind_apply h
  rw [zoom_apply] at hr
  obtain ⟨ha, rfl⟩ := Prod.mk.inj hr
  exact ⟨a, _, Prod.ext ha rfl, h⟩

/-- A computation has come to a result or to a fault, either of which goes with the state it
    has come to. -/
def IsSafe (Q : α → S → Prop) (F : Fault → S → Prop) : Except Fault α × S → Prop
  | (.ok a, s) => Q a s
  | (.error fault, s) => F fault s

namespace IsSafe

variable {Q Q' : α → S → Prop} {F F' : Fault → S → Prop} {s : S}

theorem of_ok {r : Except Fault α × S} (h : IsSafe Q F r) {a : α} (hr : r.1 = .ok a) : Q a r.2 := by
  obtain ⟨_, s⟩ := r
  obtain rfl := hr
  exact h

theorem of_error {r : Except Fault α × S} (h : IsSafe Q F r) {fault : Fault}
    (hr : r.1 = .error fault) : F fault r.2 := by
  obtain ⟨_, s⟩ := r
  obtain rfl := hr
  exact h

/-- What holds of a state goes with any result and any fault. -/
theorem of_state {P : S → Prop} {r : Except Fault α × S} (h : P r.2) :
    IsSafe (fun _ => P) (fun _ => P) r := by
  obtain ⟨fault | a, s⟩ := r <;> exact h

theorem imp {r : Except Fault α × S} (h : IsSafe Q F r) (hQ : ∀ a s, Q a s → Q' a s)
    (hF : ∀ fault s, F fault s → F' fault s) : IsSafe Q' F' r := by
  obtain ⟨fault | a, s⟩ := r
  · exact hF fault s h
  · exact hQ a s h

theorem mono {r : Except Fault α × S} (h : IsSafe Q F r) (hQ : ∀ a s, Q a s → Q' a s) :
    IsSafe Q' F r :=
  h.imp hQ fun _ _ hF => hF

theorem bind {e : Effect S α} {f : α → Effect S β} {R : β → S → Prop} (h : IsSafe Q F (e s))
    (hf : ∀ a s', Q a s' → IsSafe R F (f a s')) : IsSafe R F ((e >>= f) s) := by
  rw [bind_apply]
  rcases hr : e s with ⟨fault | a, s'⟩ <;> rw [hr] at h
  · exact h
  · exact hf a s' h

/-- A computation on a part of the state. -/
theorem zoom {get : S → T} {put : T → S → S} {e : Effect T α}
    (h : IsSafe (fun a t => Q a (put t s)) (fun fault t => F fault (put t s)) (e (get s))) :
    IsSafe Q F (Effect.zoom get put e s) := by
  rw [zoom_apply]
  rcases hr : e (get s) with ⟨fault | a, t⟩ <;> rw [hr] at h <;> exact h

end IsSafe

/-- A computation comes to a result in every state. -/
def Succeeds (e : Effect S α) : Prop :=
  ∀ s, ∃ a s', e s = (.ok a, s')

theorem Succeeds.pure (a : α) : Succeeds (Pure.pure a : Effect S α) :=
  fun s => ⟨a, s, rfl⟩

theorem Succeeds.bind {e : Effect S α} {f : α → Effect S β} (h : e.Succeeds)
    (hf : ∀ a, (f a).Succeeds) : Succeeds (e >>= f) := by
  intro s
  obtain ⟨a, s', hs⟩ := h s
  obtain ⟨b, s'', hs'⟩ := hf a s'
  exact ⟨b, s'', by rw [bind_apply, hs]; exact hs'⟩

end Effect

end AdaptiveLL
