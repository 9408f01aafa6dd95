import AdaptiveLL.Proofs.Grammar.Containment
import AdaptiveLL.Proofs.Grammar.Nullability

/-!
# Runs that consume nothing

A rule is left recursive if it comes to a call of itself from its start without consuming a
token (`Network.HasLeftRecursiveRule`). In a cohesive network, this is all the left recursion
there is (`IsCohesive.isLeftRecursive_iff`).

The bodies of the loops of a grammar have been checked: none of them can be crossed without
consuming a token (`Builder.Defines.not_skips`). So without left recursive rules, every run
that consumes nothing ends (`Builder.Defines.acc_freeStep`).
-/

namespace AdaptiveLL

open Relation Fragment

variable {σ : Type}

namespace Network

/-- Some rule comes to a call of itself from its start without consuming a token. -/
def HasLeftRecursiveRule (net : Network) : Prop :=
  ∃ (id : RuleId) (rule : Rule) (caller : StateId) (calls : List StateId) (target follow : StateId),
    net.rule id = .ok rule ∧ net.Reaches ⟨rule.start, []⟩ ⟨caller, calls⟩ ∧
      net.HasTransition caller ⟨target, .call id follow⟩

variable {net : Network} {loops : List Fragment}

theorem not_skipsTo_of_isStop {a b : StateId} (ha : net.IsStop a) : ¬net.SkipsTo a b := by
  intro hs
  cases hs with
  | free ht => exact ht.not_isStop ha
  | call ht => exact ht.not_isStop ha

theorem SkipsTo.inner {a b : StateId} (h : net.SkipsTo a b) : Inner net.ways a b := by
  cases h with
  | @free t ht _ hcall =>
    obtain ⟨target, label⟩ := t
    have hinner := inner_of_hasTransition ht
    cases label with
    | call callee follow => exact absurd rfl (hcall callee follow)
    | _ => exact hinner
  | call ht => exact inner_of_hasTransition ht

namespace IsCohesive

variable (h : net.IsCohesive loops)

include h

/-- The states that are come back to by open calls are those of left recursive rules. -/
theorem isLeftRecursive_iff : net.IsLeftRecursive ↔ net.HasLeftRecursiveRule := by
  constructor
  · rintro ⟨id, calls, hne, hrun⟩
    obtain hnil | ⟨caller, target, follow, callee, calls', -, hbefore, ht, hafter⟩ :=
      (run_nil_iff.1 hrun).lastCall
    · exact absurd hnil hne
    · -- Behind its first call, the cycle comes round to this call again.
      obtain ⟨rule, hrule, rfl⟩ := h.exists_rule ht
      exact ⟨callee, rule, caller, calls', _, follow, hrule,
        hafter.trans (hbefore.extend calls'), ht⟩
  · rintro ⟨id, rule, caller, calls, target, follow, hrule, hreach, ht⟩
    obtain ⟨_, hrule', rfl⟩ := h.exists_rule ht
    obtain rfl := Except.ok.inj (hrule.symm.trans hrule')
    exact ⟨rule.start, follow :: calls, List.cons_ne_nil _ _,
      run_nil_iff.2 (hreach.tail (.call ht))⟩

/-- A walk that stays in its rule leaves it at its stop. -/
theorem walk_stop {step : StateId → StateId → Prop}
    (hstep : ∀ a b, step a b → ∃ t, net.HasTransition a t ∧ Fragment.innerStep t = b)
    {callee : RuleId} {rule : Rule} (hrule : net.rule callee = .ok rule)
    (hout : net.WalksOut step rule.start) :
    ReflTransGen step rule.start rule.stop := by
  obtain ⟨stop, s, hwalk, hs, hk⟩ := hout
  have hinside : Inside net.ways ⟨rule.start, rule.stop⟩ stop := by
    refine ReflTransGen.mono (fun a b hab => ?_) _ _ hwalk
    obtain ⟨t, ht, rfl⟩ := hstep a b hab
    refine ⟨?_, inner_of_hasTransition ht⟩
    rintro rfl
    exact ht.not_isStop (h.isStop callee rule hrule)
  have heq : stop = rule.stop := by
    by_contra hne
    obtain ⟨t, ts, hw⟩ := (h.coheres callee rule hrule).exists_ways hinside hne
    exact not_isStop_of_ways hw ⟨s, hs, hk⟩
  exact heq ▸ hwalk

/-- On each level, the steps that skip calls come to an end, if no body of a loop is crossed. -/
theorem acc_skipsTo (hloops : ∀ body ∈ loops, ¬ReflTransGen net.SkipsTo body.start body.stop)
    {id : StateId} (hid : net.LiesWithin id) : Acc (fun b a => net.SkipsTo a b) id := by
  obtain ⟨callee, rule, hrule, hin⟩ := hid
  refine (h.coheres callee rule hrule).endsInside (fun _ _ => SkipsTo.inner) hloops id hin
    fun _ => ⟨_, fun b hs => ?_⟩
  exact absurd hs (not_skipsTo_of_isStop (h.isStop callee rule hrule))

/-- Without left recursive rules, a run that consumes nothing ends, if no body of a loop is
    crossed. -/
theorem acc_freeStep (hloops : ∀ body ∈ loops, ¬ReflTransGen net.SkipsTo body.start body.stop)
    (hleft : ¬net.HasLeftRecursiveRule) {p : Point} (hp : net.StandsWithin p) :
    Acc (fun q p => net.FreeStep p q) p := by
  refine Network.acc_freeStep (wellFounded_callsInto (mt h.isLeftRecursive_iff.1 hleft))
    (fun id q hid hreach => ?_) hp.1 hp.2
  exact h.acc_skipsTo hloops (h.run (run_nil_iff.2 hreach) ⟨hid, nofun⟩).1

end IsCohesive

/-! ## Skipping the rules that can match nothing -/

/-- A step that consumes nothing and stays in its rule, by skipping calls of some rules. -/
def CrossesTo (net : Network) (rules : List RuleId) (a b : StateId) : Prop :=
  ∃ t, net.HasTransition a t ∧ emptyStep rules t = some b

variable {rules : List RuleId}

theorem crossesTo_of_isFree {id : StateId} {t : Transition} (ht : net.HasTransition id t)
    (hfree : t.label.isFree = true) (hcall : ∀ callee follow, t.label ≠ .call callee follow) :
    net.CrossesTo rules id t.target := by
  refine ⟨t, ht, ?_⟩
  obtain ⟨target, label⟩ := t
  cases label with
  | call callee follow => exact absurd rfl (hcall callee follow)
  | epsilon => rfl
  | predicate => rfl
  | action => rfl
  | _ => cases hfree

/-- If all rules are known that can be crossed by skipping those that are known, then nothing
    else is skipped. -/
theorem IsCohesive.crossesTo (h : net.IsCohesive loops)
    (hrules : ∀ callee rule, net.rule callee = .ok rule →
      ReflTransGen (net.CrossesTo rules) rule.start rule.stop → callee ∈ rules)
    {a b : StateId} (hs : net.SkipsTo a b) : net.CrossesTo rules a b := by
  have call {id target callee follow} (ht : net.HasTransition id ⟨target, .call callee follow⟩)
      (hout : net.WalksOut (net.CrossesTo rules) target) : net.CrossesTo rules id follow := by
    obtain ⟨rule, hrule, rfl⟩ := h.exists_rule ht
    refine ⟨_, ht, if_pos (hrules callee rule hrule (h.walk_stop ?_ hrule hout))⟩
    rintro a b ⟨t, ht, hstep⟩
    exact ⟨t, ht, innerStep_of_emptyStep hstep⟩
  cases hs with
  | free ht hfree hcall => exact crossesTo_of_isFree ht hfree hcall
  | call ht hret =>
    obtain ⟨stop, s, hreach, hstop⟩ := hret
    have hwalk : net.Unwinds (net.CrossesTo rules) stop _ [] :=
      Reaches.unwinds (fun _ _ => crossesTo_of_isFree) (fun _ _ _ _ => call) hreach
    exact call ht ⟨stop, s, hwalk, hstop⟩

end Network

/-! ## The bodies of loops -/

namespace Builder

variable {b : Builder σ} {rules : List RuleId} {id : StateId} {t : Transition}

/-- The transitions of a grammar are those of its builder, with the calls linked. -/
theorem exists_of_hasTransition (ht : b.grammar.toNetwork.HasTransition id t) :
    ∃ t₀ ∈ transitionsOf b.states id, b.link t₀ = t := by
  obtain ⟨s, hs, _, hmem⟩ := ht
  obtain ⟨n, s₀, rfl, hs₀, rfl⟩ := state_grammar.1 hs
  obtain ⟨t₀, ht₀, rfl⟩ := List.mem_map.1 hmem
  refine ⟨t₀, ?_, rfl⟩
  rw [transitionsOf, numbered?_natCast, hs₀]
  exact ht₀

theorem emptyStep_link (t : Transition) : emptyStep rules (b.link t) = emptyStep rules t := by
  obtain ⟨target, label⟩ := t
  cases label <;> rfl

theorem emptyStep_of_crossesTo {a c : StateId} (h : b.grammar.toNetwork.CrossesTo rules a c) :
    EmptyStep b.states rules a c := by
  obtain ⟨t, ht, hstep⟩ := h
  obtain ⟨t₀, ht₀, rfl⟩ := exists_of_hasTransition ht
  exact ⟨t₀, ht₀, emptyStep_link t₀ ▸ hstep⟩

theorem staysIn_states (h : b.grammar.toNetwork.KeepsToRules) : StaysIn b.states := by
  intro id t ht
  obtain hlt | hge := lt_or_ge id 0
  · rw [transitionsOf, numbered?, if_pos hlt] at ht
    cases ht
  obtain ⟨n, rfl⟩ := Int.eq_ofNat_of_zero_le hge
  rw [transitionsOf, numbered?_natCast] at ht
  cases hs : b.states[n]? with
  | none =>
    rw [hs] at ht
    cases ht
  | some s =>
    rw [hs] at ht
    obtain ⟨_, hs', _⟩ := h.inner n _ (state_grammar.2 ⟨n, s, rfl, hs, rfl⟩) (b.link t)
      (List.mem_map_of_mem ht)
    rw [innerStep_link] at hs'
    obtain ⟨k, _, hk, hstate, _⟩ := state_grammar.1 hs'
    exact ⟨k, hk, (Array.getElem?_eq_some_iff.1 hstate).1⟩

/-- A rule that can be crossed by skipping those that can match nothing is one of them. -/
theorem mem_nullable (h : b.grammar.toNetwork.KeepsToRules) (he : b.error? = none) {callee : RuleId}
    {rule : Rule} (hrule : b.grammar.rule callee = .ok rule)
    (hwalk : ReflTransGen (b.grammar.toNetwork.CrossesTo b.nullable) rule.start rule.stop) :
    callee ∈ b.nullable := by
  obtain ⟨n, hn, rfl, rfl⟩ := rule_grammar_eq_ok hrule
  have hdraft := Array.getElem?_eq_getElem hn
  obtain ⟨bounds, hbounds⟩ := Option.isSome_iff_exists.1 ((of_error?_eq_none he).1 n _ hdraft)
  rw [← nullableStep_nullable (staysIn_states h), mem_nullableStep]
  refine ⟨n, _, bounds, rfl, hdraft, hbounds, (canBeEmpty_iff (staysIn_states h)).2 ?_⟩
  rw [← bounds_eq hdraft hbounds]
  exact ReflTransGen.mono (fun _ _ => emptyStep_of_crossesTo) _ _ hwalk

/-- No body of a loop is crossed without consuming a token. -/
theorem Defines.not_skips {defined : List (RuleDefinition σ)} {g : Grammar σ}
    (h : b.Defines defined) (hg : (Build.finish b).1 = .ok g) :
    ∀ body ∈ b.numberDecisions.loops, ¬ReflTransGen g.toNetwork.SkipsTo body.start body.stop := by
  have hnet := h.isCohesive_grammar hg
  obtain ⟨he, rfl⟩ := finish_eq_ok hg
  generalize b.numberDecisions = b at he hnet
  intro body hbody hskips
  have hwalk : ReflTransGen (EmptyStep b.states b.nullable) body.start body.stop :=
    ReflTransGen.mono (fun _ _ hs => emptyStep_of_crossesTo
      (hnet.crossesTo (fun _ _ => mem_nullable hnet.toKeepsToRules he) hs)) _ _ hskips
  have hempty := (canBeEmpty_iff (staysIn_states hnet.toKeepsToRules)).2 hwalk
  rw [canBeEmpty_of_error? he hbody] at hempty
  cases hempty

/-- In a grammar without left recursive rules, a run that consumes nothing ends. -/
theorem Defines.acc_freeStep {defined : List (RuleDefinition σ)} {g : Grammar σ}
    (h : b.Defines defined) (hg : (Build.finish b).1 = .ok g)
    (hleft : ¬g.toNetwork.HasLeftRecursiveRule) {p : Point} (hp : g.toNetwork.StandsWithin p) :
    Acc (fun q p => g.toNetwork.FreeStep p q) p :=
  (h.isCohesive_grammar hg).acc_freeStep (h.not_skips hg) hleft hp

end Builder

end AdaptiveLL
