import AdaptiveLL.Proofs.Prediction.Change
import AdaptiveLL.Proofs.Prediction.Expansion
import AdaptiveLL.Proofs.Prediction.Settling

/-!
# What stands relative to the invocation

Configurations are looked up by their keys and guards, so two that are the same
may still stand differently relative to the invocation that predicts. A decision
that is not that of a non-greedy loop takes no notice: once this is forgotten,
equal frontiers lead to equal frontiers (`nextFrontier_forget`) and settle the
decision equally (`Setting.settle_forget`).
-/

namespace AdaptiveLL

/-- A configuration without where it stands relative to the invocation. -/
def Config.forget (c : Config) : Config :=
  { c with depth := 0, left := false }

/-- A search without where its configurations stand relative to the invocation. -/
def Search.forget (search : Search) : Search :=
  { search with kept := search.kept.map Config.forget }

/-- A frontier without where its configurations stand relative to the invocation. -/
def Frontier.forget (f : Frontier) : Frontier :=
  { f with items := f.items.map Config.forget }

/-- An expansion without where the configurations stand relative to the invocation. -/
def Expansion.forget (e : Expansion) : Expansion :=
  { e with next := e.next.map Config.forget }

variable {net : Network} {exit : LoopExit}

theorem Config.same_iff_forget {c d : Config} : c.same d = true ↔ c.forget = d.forget := by
  obtain ⟨k, g, _, _⟩ := c
  obtain ⟨k', g', _, _⟩ := d
  simp [same, forget]

theorem Config.mark_forget (c : Config) : c.forget.mark = c.mark := rfl

theorem Search.forget_eq_iff {search search' : Search} : search.forget = search'.forget ↔
    search.seen = search'.seen ∧
      search.kept.map Config.forget = search'.kept.map Config.forget := by
  rw [forget, forget, mk.injEq]

theorem Frontier.forget_eq_iff {f f' : Frontier} : f.forget = f'.forget ↔
    f.items.map Config.forget = f'.items.map Config.forget ∧ f.guarded = f'.guarded := by
  rw [forget, forget, mk.injEq]

theorem Expansion.forget_eq_iff {e e' : Expansion} : e.forget = e'.forget ↔
    e.kept = e'.kept ∧ e.next.map Config.forget = e'.next.map Config.forget := by
  rw [forget, forget, mk.injEq]

/-! ## The next frontier -/

theorem freeStep_forget {c d : Config} (h : c.forget = d.forget) (t : Transition) :
    (freeStep false c t).map Config.forget = (freeStep false d t).map Config.forget := by
  obtain ⟨k, g, _, _⟩ := c
  obtain ⟨k', g', _, _⟩ := d
  obtain ⟨rfl, rfl⟩ : k = k' ∧ g = g' := by simpa [Config.forget] using h
  obtain ⟨target, label⟩ := t
  cases label <;> rfl

theorem expandAt_forget (hx : exit.active = false) {c d : Config} (h : c.forget = d.forget)
    (s : State) : (expandAt exit false s c).forget = (expandAt exit false s d).forget := by
  rw [expandAt, expandAt]
  split
  · rw [isAtEnd_of_inactive hx, isAtEnd_of_inactive hx]
    obtain ⟨⟨state, alt, context⟩, g, _, _⟩ := c
    obtain ⟨⟨state', alt', context'⟩, g', _, _⟩ := d
    obtain ⟨⟨rfl, rfl, rfl⟩, rfl⟩ :
        (state = state' ∧ alt = alt' ∧ context = context') ∧ g = g' := by
      simpa [Config.forget] using h
    cases context <;> rfl
  · rw [Expansion.forget, Expansion.forget, List.map_filterMap, List.map_filterMap]
    simp only [freeStep_forget h]

theorem expand_forget (hx : exit.active = false) {c d : Config} (h : c.forget = d.forget) :
    (expand net exit false c).map Expansion.forget =
      (expand net exit false d).map Expansion.forget := by
  have hs : c.state = d.state := congrArg (fun c => c.state) h
  rw [expand, expand, hs]
  cases net.state d.state with
  | error fault => rfl
  | ok s => exact congrArg Except.ok (expandAt_forget hx h s)

theorem hasSeen_forget {search search' : Search} (h : search.forget = search'.forget) {c d : Config}
    (hcd : c.forget = d.forget) : search.hasSeen c = search'.hasSeen d := by
  rw [Search.hasSeen, Search.hasSeen, (Search.forget_eq_iff.1 h).1, ← c.mark_forget,
    ← d.mark_forget, hcd]

theorem visit_forget {search search' : Search} (h : search.forget = search'.forget) {c d : Config}
    (hcd : c.forget = d.forget) (kept : Bool) :
    (search.visit c kept).forget = (search'.visit d kept).forget := by
  obtain ⟨hseen, hkept⟩ := Search.forget_eq_iff.1 h
  rw [Search.visit, Search.visit, hseen, ← c.mark_forget, ← d.mark_forget, hcd]
  cases kept <;> simp [Search.forget, hkept, hcd]

theorem keep_forget {search search' : Search} (h : search.forget = search'.forget) {c d : Config}
    (hcd : c.forget = d.forget) : (search.keep c).forget = (search'.keep d).forget := by
  obtain ⟨hseen, hkept⟩ := Search.forget_eq_iff.1 h
  refine Search.forget_eq_iff.2 ⟨hseen, ?_⟩
  rw [Search.keep, Search.keep, List.map_cons, List.map_cons, hcd, hkept]

/-- What is forgotten of a computation's result may be forgotten before it is used. -/
theorem Except.map_bind_congr {ε α α' β β' γ δ : Type} {x : Except ε α} {x' : Except ε α'}
    {f : α → γ} {f' : α' → γ} {k : α → Except ε β} {k' : α' → Except ε β'} {g : β → δ} {g' : β' → δ}
    (h : x.map f = x'.map f') (hk : ∀ a a', f a = f' a' → (k a).map g = (k' a').map g') :
    (x >>= k).map g = (x' >>= k').map g' := by
  cases x with
  | error e =>
    cases x' with
    | error e' => exact congrArg Except.error (Except.error.inj h)
    | ok a' => cases h
  | ok a =>
    cases x' with
    | error e' => cases h
    | ok a' => exact hk a a' (Except.ok.inj h)

theorem closureFrom_forget (hx : exit.active = false) {fuel : Nat} {work work' : List Config}
    {search search' : Search} (hw : work.map Config.forget = work'.map Config.forget)
    (h : search.forget = search'.forget) :
    (closureFrom net exit false fuel work search).map Search.forget =
      (closureFrom net exit false fuel work' search').map Search.forget := by
  -- Both closures look at configurations in step, as what they have looked at is the same.
  induction fuel generalizing work work' search search' with
  | zero =>
    cases work with
    | nil =>
      obtain rfl : work' = [] := List.map_eq_nil_iff.1 hw.symm
      exact congrArg Except.ok h
    | cons c work =>
      obtain ⟨d, work', rfl, _⟩ := List.map_eq_cons_iff.1 hw.symm
      rfl
  | succ fuel ih =>
    cases work with
    | nil =>
      obtain rfl : work' = [] := List.map_eq_nil_iff.1 hw.symm
      exact congrArg Except.ok h
    | cons c work =>
      obtain ⟨d, work', rfl, hdc, hw'⟩ := List.map_eq_cons_iff.1 hw.symm
      cases hseen : search.hasSeen c with
      | true =>
        rw [closureFrom, closureFrom, ← hasSeen_forget h hdc.symm, if_pos hseen, if_pos hseen]
        exact ih hw'.symm h
      | false =>
        have hseen' : search'.hasSeen d = false := hasSeen_forget h hdc.symm ▸ hseen
        rw [closureFrom_of_not_seen hseen, closureFrom_of_not_seen hseen']
        refine Except.map_bind_congr (expand_forget hx hdc.symm) fun e e' he => ?_
        obtain ⟨hkept, hnext⟩ := Expansion.forget_eq_iff.1 he
        rw [hkept]
        refine ih ?_ (visit_forget h hdc.symm _)
        simp [hnext, hw']

theorem followAll_forget (hx : exit.active = false) {fuel : Nat} {c d : Config}
    (hcd : c.forget = d.forget) (transitions : List Transition) {search search' : Search}
    (h : search.forget = search'.forget) :
    (followAll net exit fuel c transitions search).map Search.forget =
      (followAll net exit fuel d transitions search').map Search.forget := by
  induction transitions generalizing search search' with
  | nil => exact congrArg Except.ok h
  | cons t rest ih =>
    refine Except.map_bind_congr (closureFrom_forget hx ?_ h) fun _ _ => ih
    rw [Config.forget, Config.forget, Config.mk.injEq] at hcd
    simp [Config.forget, hcd]

theorem advance_forget (hx : exit.active = false) {fuel : Nat} {type : Int} {c d : Config}
    (hcd : c.forget = d.forget) {search search' : Search} (h : search.forget = search'.forget) :
    (advance net exit fuel type c search).map Search.forget =
      (advance net exit fuel type d search').map Search.forget := by
  have hkey : c.toKey = d.toKey := Config.toKey_of_same (Config.same_iff_forget.2 hcd)
  rw [advance, advance, isAtEnd_of_inactive hx, isAtEnd_of_inactive hx, hkey]
  refine Except.map_bind_congr (show (net.state d.state).map id = _ from rfl)
    fun s s' hs => ?_
  obtain rfl : s = s' := hs
  split
  · split
    · exact congrArg Except.ok (keep_forget h hcd)
    · exact congrArg Except.ok h
  · exact followAll_forget hx hcd _ h

theorem advanceAll_forget (hx : exit.active = false) {fuel : Nat} {type : Int}
    {configs configs' : List Config} (hc : configs.map Config.forget = configs'.map Config.forget)
    {search search' : Search} (h : search.forget = search'.forget) :
    (advanceAll net exit fuel type configs search).map Search.forget =
      (advanceAll net exit fuel type configs' search').map Search.forget := by
  induction configs generalizing configs' search search' with
  | nil =>
    obtain rfl : configs' = [] := List.map_eq_nil_iff.1 hc.symm
    exact congrArg Except.ok h
  | cons c rest ih =>
    cases configs' with
    | nil => cases hc
    | cons d rest' =>
      obtain ⟨hcd, hrest⟩ := List.cons.inj hc
      exact Except.map_bind_congr (advance_forget hx hcd h) fun _ _ => ih hrest

namespace Frontier

/-- The same configurations in the same order. -/
theorem same_iff_forget {f g : Frontier} :
    f.same g = true ↔ f.items.map Config.forget = g.items.map Config.forget := by
  have items (l m : List Config) :
      sameItems l m = true ↔ l.map Config.forget = m.map Config.forget := by
    induction l generalizing m with
    | nil => cases m <;> simp [sameItems]
    | cons c l ih =>
      cases m with
      | nil => simp [sameItems]
      | cons d m => rw [sameItems, Bool.and_eq_true, Config.same_iff_forget, ih]; simp
  exact items _ _

end Frontier

theorem isFaithful_forget : Config.IsFaithful Config.forget where
  place _ _ := .rfl
  alt _ := rfl
  withGuard _ _ := rfl

theorem Search.forget_frontier (search : Search) :
    search.frontier.forget = search.forget.frontier :=
  (Search.frontier_map isFaithful_forget (rfl : search.forget.kept = _)).symm

/-- Equal frontiers lead to equal ones, once it is forgotten where they stand. -/
theorem nextFrontier_forget (hx : exit.active = false) {fuel : Nat} {type : Int} {f g : Frontier}
    (h : f.forget = g.forget) :
    (nextFrontier net exit fuel f type).map Frontier.forget =
      (nextFrontier net exit fuel g type).map Frontier.forget := by
  refine Except.map_bind_congr
    (advanceAll_forget hx (Frontier.forget_eq_iff.1 h).1 rfl) fun search search' hs => ?_
  refine congrArg Except.ok ?_
  rw [Search.forget_frontier, Search.forget_frontier, hs]

/-! ## What settles a decision -/

theorem reached?_of_inactive (hx : exit.active = false) (l : List Config) :
    exit.reached? l = none := by
  rw [LoopExit.reached?, if_neg]
  simp [isAtEnd_of_inactive hx]

/-- Without a loop to leave, the verdict takes no notice of where configurations
    stand relative to the invocation. -/
theorem Verdict.ofConfigs?_forget (hx : exit.active = false) (afterEnd : Bool) (l : List Config) :
    Verdict.ofConfigs? exit afterEnd (l.map Config.forget) =
      Verdict.ofConfigs? exit afterEnd l :=
  ofConfigs?_map isFaithful_forget
    (fun c => (isAtEnd_of_inactive hx _).trans (isAtEnd_of_inactive hx c).symm) afterEnd l

namespace Setting

/-- Without a loop to leave, a node settles a decision whatever stands relative to
    the invocation. -/
theorem settle_forget {σ : Type} (setting : Setting σ) (hx : setting.exit.active = false)
    (afterEnd : Bool) (f : Frontier) :
    setting.settle (.ofFrontier setting.exit afterEnd f.forget) =
      setting.settle (.ofFrontier setting.exit afterEnd f) :=
  setting.settle_map Config.forget (fun _ => rfl) (fun _ => rfl)
    (Verdict.ofConfigs?_forget hx afterEnd) f

end Setting

end AdaptiveLL
