import AdaptiveLL.Prediction.Trial
import AdaptiveLL.Proofs.Effect

/-!
# What settling a decision depends on

Three ways to look at how a node settles a decision, each of which is carried
through all the computations that are made with guards.

* What holds of the evaluation of every predicate and is kept where computations
  are put together (`Effect.IsCongruence`) holds of what a decision is settled by
  (`Setting.settle_congr`). It may compare the computations of two predictions.
* What is known of evaluating the predicates of a node's own configurations, and
  is so of computations that are put together of such (`Effect.IsGuarantee`), is
  known of settling the decision there (`Effect.IsGuarantee.settle`).
* If configurations are changed in such a way that their guards, their
  alternatives and the verdicts on them stay, they settle the decision as before
  (`Setting.settle_map`).
-/

namespace AdaptiveLL

variable {σ τ S T α : Type}

/-- A comparison of computations that is kept where they are put together. -/
structure Effect.IsCongruence (R : ∀ ⦃α : Type⦄, Effect S α → Effect T α → Prop) : Prop where
  pure : ∀ {α : Type} (a : α), R (pure a : Effect S α) (pure a)
  bind : ∀ {α β : Type} {e : Effect S α} {e' : Effect T α} {f : α → Effect S β}
    {f' : α → Effect T β}, R e e' → (∀ a, R (f a) (f' a)) → R (e >>= f) (e' >>= f')

section

variable {R : ∀ ⦃α : Type⦄, Effect S α → Effect T α → Prop} (hR : Effect.IsCongruence R)

include hR

namespace Effect.IsCongruence

theorem allM {test : α → Effect S Bool} {test' : α → Effect T Bool}
    (h : ∀ a, R (test a) (test' a)) (l : List α) : R (l.allM test) (l.allM test') := by
  induction l with
  | nil => exact hR.pure true
  | cons a l ih =>
    rw [List.allM, List.allM]
    refine hR.bind (h a) fun b => ?_
    cases b with
    | true => exact ih
    | false => exact hR.pure false

theorem anyM {test : α → Effect S Bool} {test' : α → Effect T Bool}
    (h : ∀ a, R (test a) (test' a)) (l : List α) : R (l.anyM test) (l.anyM test') := by
  induction l with
  | nil => exact hR.pure false
  | cons a l ih =>
    rw [List.anyM, List.anyM]
    refine hR.bind (h a) fun b => ?_
    cases b with
    | true => exact hR.pure true
    | false => exact ih

end Effect.IsCongruence

theorem Guard.holdsM_congr {test : Int → Effect S Bool} {test' : Int → Effect T Bool}
    (h : ∀ p, R (test p) (test' p)) (g : Guard) : R (g.holdsM test) (g.holdsM test') :=
  hR.anyM (fun term => hR.allM h term) g.terms

end

namespace Setting

/-! ## Comparing evaluations -/

section

variable {R : ∀ ⦃α : Type⦄, Effect (Hearing σ) α → Effect (Hearing τ) α → Prop}
  {setting : Setting σ} {setting' : Setting τ} (hR : Effect.IsCongruence R)
  (h : ∀ p, R (setting.truth p) (setting'.truth p))

include hR h

theorem passes_congr (p : Int) : R (setting.passes p) (setting'.passes p) :=
  hR.bind (h p) fun _ => hR.pure _

theorem mayHold_congr (p : Int) : R (setting.mayHold p) (setting'.mayHold p) :=
  hR.bind (h p) fun _ => hR.pure _

theorem alive_congr (l : List Config) : R (setting.alive l) (setting'.alive l) := by
  induction l with
  | nil => exact hR.pure _
  | cons c l ih =>
    exact hR.bind (c.guard.holdsM_congr hR (mayHold_congr hR h)) fun _ =>
      hR.bind ih fun _ => hR.pure _

theorem firstNotPassed_congr (l : List Int) :
    R (setting.firstNotPassed l) (setting'.firstNotPassed l) := by
  induction l with
  | nil => exact hR.pure _
  | cons p l ih =>
    refine hR.bind (passes_congr hR h p) fun b => ?_
    cases b with
    | true => exact ih
    | false => exact hR.pure _

theorem firstUnknown_congr (l : List Int) :
    R (setting.firstUnknown l) (setting'.firstUnknown l) := by
  induction l with
  | nil => exact hR.pure _
  | cons p l ih =>
    refine hR.bind (h p) fun t => ?_
    split
    · exact hR.pure _
    · exact ih

theorem someHolds_congr (l : List Config) : R (setting.someHolds l) (setting'.someHolds l) := by
  induction l with
  | nil => exact hR.pure _
  | cons c l ih =>
    refine hR.bind (c.guard.holdsM_congr hR (passes_congr hR h)) fun b => ?_
    cases b with
    | true => exact hR.pure _
    | false => exact ih

theorem obstacle_congr (l : List Config) (alt : Int) :
    R (setting.obstacle l alt) (setting'.obstacle l alt) := by
  rw [obstacle, obstacle]
  cases l.filter fun c => c.alt == alt with
  | nil => exact hR.pure _
  | cons c rest =>
    refine hR.bind (someHolds_congr hR h (c :: rest)) fun b => ?_
    cases b with
    | true => exact hR.pure _
    | false => exact firstUnknown_congr hR h _

/-- A node settles a decision by computations that compare as the evaluations of the
    predicates do. -/
theorem settle_congr (hexit : setting.exit = setting'.exit) (n : Node) :
    R (setting.settle n) (setting'.settle n) := by
  rw [settle, settle]
  split
  · exact hR.pure _
  split
  · rw [settleGuarded, settleGuarded, hexit]
    refine hR.bind (alive_congr hR h _) fun configs => ?_
    dsimp only
    split
    · exact hR.bind (firstNotPassed_congr hR h _) fun _ => hR.pure _
    cases Verdict.ofConfigs? setting'.exit n.afterEnd configs with
    | none => exact hR.pure _
    | some verdict =>
      refine hR.bind (obstacle_congr hR h configs verdict.alt) fun p => ?_
      cases p with
      | none => exact hR.pure _
      | some p => exact hR.pure _
  · exact hR.pure _

end

end Setting

/-! ## What is known of the results -/

/-- Something known of computations whose results are of some kind, which is known of those that
    are put together of them as well. -/
structure Effect.IsGuarantee (G : ∀ ⦃α : Type⦄, (α → Prop) → Effect S α → Prop) : Prop where
  pure : ∀ {α : Type} {Q : α → Prop} {a : α}, Q a → G Q (pure a)
  bind : ∀ {α β : Type} {Q : α → Prop} {R : β → Prop} {e : Effect S α} {f : α → Effect S β},
    G Q e → (∀ a, Q a → G R (f a)) → G R (e >>= f)

/-- What is known of a state, and is kept unless a fault ends the computation. -/
theorem Effect.keeps_isGuarantee (P : S → Prop) (F : Fault → S → Prop) :
    IsGuarantee fun _ Q e => ∀ s, P s → IsSafe (fun a s => Q a ∧ P s) F (e s) where
  pure ha _ hs := ⟨ha, hs⟩
  bind he hf s hs := (he s hs).bind fun a s' h => hf a h.1 s' h.2

namespace Effect.IsGuarantee

/-- Results of any kind. -/
abbrev Any : α → Prop :=
  fun _ => True

section

variable {G : ∀ ⦃α : Type⦄, (α → Prop) → Effect S α → Prop} (hG : IsGuarantee G)

include hG

theorem mono {Q R : α → Prop} {e : Effect S α} (h : G Q e) (hQ : ∀ a, Q a → R a) : G R e := by
  have hbind : G R (e >>= fun a => Pure.pure a) := hG.bind h fun a ha => hG.pure (hQ a ha)
  rwa [bind_pure] at hbind

theorem allM {test : α → Effect S Bool} {l : List α} (h : ∀ a ∈ l, G Any (test a)) :
    G Any (l.allM test) := by
  induction l with
  | nil => exact hG.pure trivial
  | cons a l ih =>
    obtain ⟨ha, hl⟩ := List.forall_mem_cons.1 h
    rw [List.allM]
    refine hG.bind ha fun b _ => ?_
    cases b with
    | false => exact hG.pure trivial
    | true => exact ih hl

theorem anyM {test : α → Effect S Bool} {l : List α} (h : ∀ a ∈ l, G Any (test a)) :
    G Any (l.anyM test) := by
  induction l with
  | nil => exact hG.pure trivial
  | cons a l ih =>
    obtain ⟨ha, hl⟩ := List.forall_mem_cons.1 h
    rw [List.anyM]
    refine hG.bind ha fun b _ => ?_
    cases b with
    | false => exact ih hl
    | true => exact hG.pure trivial

theorem holdsM {test : Int → Effect S Bool} {g : Guard} (h : ∀ p ∈ g.predicates, G Any (test p)) :
    G Any (g.holdsM test) :=
  hG.anyM fun term hterm => hG.allM fun p hp => h p (Guard.mem_predicates.2 ⟨term, hterm, hp⟩)

end

variable {G : ∀ ⦃α : Type⦄, (α → Prop) → Effect (Hearing σ) α → Prop} (hG : IsGuarantee G)
  {setting : Setting σ} {l : List Config}

include hG

theorem alive (h : ∀ c ∈ l, ∀ p ∈ c.guard.predicates, G Any (setting.truth p)) :
    G (fun alive => alive ⊆ l) (setting.alive l) := by
  induction l with
  | nil => exact hG.pure (List.Subset.refl _)
  | cons c l ih =>
    obtain ⟨hc, hl⟩ := List.forall_mem_cons.1 h
    have hguard : G Any (c.guard.holdsM setting.mayHold) :=
      hG.holdsM fun p hp => hG.bind (hc p hp) fun _ _ => hG.pure trivial
    refine hG.bind hguard fun here _ => hG.bind (ih hl) fun others hothers => hG.pure ?_
    cases here with
    | false => exact List.subset_cons_of_subset c hothers
    | true => exact List.cons_subset_cons c hothers

/-- A predicate that is found is one of those that are looked at. -/
abbrev Finds (l : List Int) (found : Option Int) : Prop :=
  ∀ p ∈ found, p ∈ l

theorem firstNotPassed {l : List Int} (h : ∀ p ∈ l, G Any (setting.truth p)) :
    G (Finds l) (setting.firstNotPassed l) := by
  induction l with
  | nil => exact hG.pure nofun
  | cons p l ih =>
    obtain ⟨hp, hl⟩ := List.forall_mem_cons.1 h
    have hpasses : G Any (setting.passes p) := hG.bind hp fun _ _ => hG.pure trivial
    refine hG.bind hpasses fun b _ => ?_
    cases b with
    | true => exact hG.mono (ih hl) fun _ hfinds q hq => List.mem_cons_of_mem p (hfinds q hq)
    | false => exact hG.pure fun q hq => Option.some.inj hq ▸ List.mem_cons_self

theorem firstUnknown {l : List Int} (h : ∀ p ∈ l, G Any (setting.truth p)) :
    G (Finds l) (setting.firstUnknown l) := by
  induction l with
  | nil => exact hG.pure nofun
  | cons p l ih =>
    obtain ⟨hp, hl⟩ := List.forall_mem_cons.1 h
    refine hG.bind hp fun truth _ => ?_
    split
    · exact hG.pure fun q hq => Option.some.inj hq ▸ List.mem_cons_self
    · exact hG.mono (ih hl) fun _ hfinds q hq => List.mem_cons_of_mem p (hfinds q hq)

theorem someHolds (h : ∀ c ∈ l, ∀ p ∈ c.guard.predicates, G Any (setting.truth p)) :
    G Any (setting.someHolds l) := by
  induction l with
  | nil => exact hG.pure trivial
  | cons c l ih =>
    obtain ⟨hc, hl⟩ := List.forall_mem_cons.1 h
    have hguard : G Any (c.guard.holdsM setting.passes) :=
      hG.holdsM fun p hp => hG.bind (hc p hp) fun _ _ => hG.pure trivial
    refine hG.bind hguard fun here _ => ?_
    cases here with
    | false => exact ih hl
    | true => exact hG.pure trivial

/-- An obstacle is a predicate of one of the configurations. -/
theorem obstacle (h : ∀ c ∈ l, ∀ p ∈ c.guard.predicates, G Any (setting.truth p)) (alt : Int) :
    G (Finds (l.flatMap fun c => c.guard.predicates)) (setting.obstacle l alt) := by
  rw [Setting.obstacle]
  split
  · exact hG.pure nofun
  · next c rest hfilter =>
    have hrest : ∀ d ∈ c :: rest, d ∈ l := by
      rw [← hfilter]
      exact fun d hd => (List.mem_filter.1 hd).1
    refine hG.bind (hG.someHolds fun d hd => h d (hrest d hd)) fun b _ => ?_
    cases b with
    | true => exact hG.pure nofun
    | false =>
      have hc := hrest c List.mem_cons_self
      exact hG.mono (hG.firstUnknown (h c hc)) fun _ hfinds p hp =>
        List.mem_flatMap.2 ⟨c, hc, hfinds p hp⟩

/-- A node settles a decision by an outcome of some kind, if verdicts on its configurations and
    failures of their predicates are of this kind. -/
theorem settle {n : Node} {P : Outcome → Prop}
    (h : ∀ c ∈ n.frontier.items, ∀ p ∈ c.guard.predicates, G Any (setting.truth p))
    (hnone : P .noViableAlt) (hverdict : ∀ v ∈ n.verdict, P (.ofVerdict v))
    (hconfigs : ∀ l ⊆ n.frontier.items, ∀ v, Verdict.ofConfigs? setting.exit n.afterEnd l = some v →
      P (.ofVerdict v))
    (hfailed : ∀ found, Finds (n.frontier.items.flatMap fun c => c.guard.predicates) found →
      P (.failedPredicate found)) :
    G (fun outcome => ∀ o ∈ outcome, P o) (setting.settle n) := by
  rw [Setting.settle]
  split
  · exact hG.pure fun o ho => Option.some.inj ho ▸ hnone
  split
  · refine hG.bind (hG.alive h) fun configs hsub => ?_
    dsimp only
    split
    · have hall : ∀ p ∈ n.frontier.items.flatMap fun c => c.guard.predicates,
          G Any (setting.truth p) := by
        intro p hp
        obtain ⟨c, hc, hp⟩ := List.mem_flatMap.1 hp
        exact h c hc p hp
      exact hG.bind (hG.firstNotPassed hall) fun found hfinds =>
        hG.pure fun o ho => Option.some.inj ho ▸ hfailed found hfinds
    split
    · exact hG.pure nofun
    · next v hv =>
      refine hG.bind (hG.obstacle (fun c hc => h c (hsub hc)) v.alt) fun found hfinds => ?_
      split
      · next p =>
        refine hG.pure fun o ho => Option.some.inj ho ▸ hfailed (some p) fun q hq => ?_
        obtain ⟨c, hc, hq⟩ := List.mem_flatMap.1 (hfinds q hq)
        exact List.mem_flatMap.2 ⟨c, hsub hc, hq⟩
      · exact hG.pure fun o ho => Option.some.inj ho ▸ hconfigs configs hsub v hv
  · refine hG.pure fun o ho => ?_
    obtain ⟨v, hv, rfl⟩ := Option.map_eq_some_iff.1 ho
    exact hverdict v hv

end Effect.IsGuarantee

namespace Setting

/-! ## Changing configurations -/

section

variable (setting : Setting σ) {change : Config → Config}
  (hguard : ∀ c, (change c).guard = c.guard)

include hguard

theorem alive_map (l : List Config) :
    setting.alive (l.map change) = List.map change <$> setting.alive l := by
  induction l with
  | nil => simp [alive]
  | cons c l ih =>
    rw [List.map_cons, alive, alive, ih, map_bind, hguard]
    refine bind_congr fun here => ?_
    rw [bind_map_left, map_bind]
    refine bind_congr fun others => ?_
    cases here <;> simp

theorem someHolds_map (l : List Config) :
    setting.someHolds (l.map change) = setting.someHolds l := by
  induction l with
  | nil => rfl
  | cons c l ih => rw [List.map_cons, someHolds, someHolds, ih, hguard]

variable (halt : ∀ c, (change c).alt = c.alt)

include halt

theorem obstacle_map (l : List Config) (alt : Int) :
    setting.obstacle (l.map change) alt = setting.obstacle l alt := by
  have hfilter : (l.map change).filter (fun c => c.alt == alt) =
      (l.filter fun c => c.alt == alt).map change := by
    rw [List.filter_map]
    simp only [Function.comp_def, halt]
  rw [obstacle, obstacle, hfilter]
  cases l.filter fun c => c.alt == alt with
  | nil => rfl
  | cons c rest =>
    rw [List.map_cons]
    dsimp only
    rw [← List.map_cons, someHolds_map setting hguard, hguard]

variable (change) in
/-- A change of the configurations that leaves verdicts on them as they are makes no
    difference to what settles the decision. -/
theorem settle_map {afterEnd : Bool} (hverdict : ∀ l : List Config,
      Verdict.ofConfigs? setting.exit afterEnd (l.map change) =
        Verdict.ofConfigs? setting.exit afterEnd l) (f : Frontier) :
    setting.settle
        (.ofFrontier setting.exit afterEnd { f with items := f.items.map change }) =
      setting.settle (.ofFrontier setting.exit afterEnd f) := by
  rw [settle, settle]
  show (if (f.items.map change).isEmpty then _ else if f.guarded then _ else _) =
    if f.items.isEmpty then _ else if f.guarded then _ else _
  rw [List.isEmpty_map]
  split
  · rfl
  split
  · rw [settleGuarded, settleGuarded]
    dsimp only [Node.ofFrontier]
    rw [alive_map setting hguard, bind_map_left]
    refine bind_congr fun configs => ?_
    rw [List.isEmpty_map, hverdict, List.flatMap_map]
    simp only [obstacle_map setting hguard halt, hguard]
  · dsimp only [Node.ofFrontier]
    rw [hverdict]

end

end Setting

end AdaptiveLL
