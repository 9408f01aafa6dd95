import AdaptiveLL.Proofs.Parse.Completeness
import AdaptiveLL.Proofs.Parse.Step
import AdaptiveLL.Proofs.Prediction.Survival

/-!
# Where invalid input is rejected

A parse that rejects its input does so at the first token that is impossible
(`Diagnostic.StopsAtFirst`): the tokens before can be consumed from the start of the
rule, but no run consumes this one as well and comes to rest. The token may be far
ahead of where the parse stands, as a prediction may have found it.

The invariant is that the point a parse stands at has lost nothing by what the parse
is committed to (`Machine.HasKept`): it survives what is ahead as far as the start of the
rule does. A decision keeps it so because a prediction takes no alternative that
dies before another one. Behind the end of the input, when it has been matched by a
transition, it is enough that the point comes to rest.
-/

namespace AdaptiveLL

variable {σ : Type}

namespace Input

/-- The types of the tokens from one place up to another. -/
def typesBetween (s : Input) (i j : Nat) : List Int :=
  (s.between i j).map Token.type

/-- An input is another one read on, not beyond its end. -/
structure ReadsOn (s₀ s : Input) : Prop where
  eq : s = { s₀ with position := s.position }
  le : s₀.position ≤ s.position
  ended : s.IsEnded
  before : ∀ t ∈ s₀.between s₀.position s.position, t.isEnd = false

/-- What has been consumed of an input that is read on, and what is ahead of it: the end
    of the input is ahead until it has been matched. -/
inductive Reads (s₀ s : Input) : List Int → List Int → Prop
  | before : Reads s₀ s (s₀.typesBetween s₀.position s.position) (s.ahead.map Token.type)
  | behind : s.current.isEnd = true →
    Reads s₀ s (s₀.typesBetween s₀.position s.position ++ [Token.endOfInput]) []

end Input

/-- A diagnostic stops at the first token of an input that is impossible from a point
    on. -/
structure Diagnostic.StopsAtFirst (net : Network) (start : Point) (input : Input)
    (d : Diagnostic) : Prop where
  kind : d.kind = .noViableAlternative ∨ d.kind = .mismatchedInput
  le : input.position ≤ d.stop
  lt : d.stop < input.size
  before : ∀ t ∈ input.between input.position d.stop, t.isEnd = false
  consumed : ∃ q, net.Run start (input.typesBetween input.position d.stop) q
  impossible : ¬net.Survives start (input.typesBetween input.position (d.stop + 1))

variable {net : Network} {start : Point} {input s₀ s : Input} {d : Diagnostic}

/-! ## Reading on -/

namespace Input

theorem IsEnded.length_ahead_pos (h : s.IsEnded) : 0 < s.ahead.length := by
  rw [h.ahead_eq]
  split <;> exact Nat.succ_pos _

theorem map_take_one (h : s.IsEnded) : (s.ahead.map Token.type).take 1 = [s.current.type] := by
  rw [h.ahead_eq]
  split <;> rfl

namespace ReadsOn

theorem get_eq (h : s₀.ReadsOn s) (i : Nat) : s.get i = s₀.get i := by
  rw [h.eq]
  rfl

theorem size_eq (h : s₀.ReadsOn s) : s.size = s₀.size := by
  rw [h.eq]
  rfl

theorem between_eq (h : s₀.ReadsOn s) (i j : Nat) : s.between i j = s₀.between i j := by
  rw [h.eq]
  rfl

theorem isNumbered (h : s₀.ReadsOn s) (hnumbered : s₀.IsNumbered) : s.IsNumbered := by
  intro i hi
  rw [h.get_eq]
  exact hnumbered i (h.size_eq ▸ hi)

/-- A token that does not end the input is moved behind. -/
theorem consume (h : s₀.ReadsOn s) (hend : ¬s.current.isEnd = true) : s₀.ReadsOn s.consume ∧
    s₀.typesBetween s₀.position s.consume.position =
      s₀.typesBetween s₀.position s.position ++ [s.current.type] := by
  have hended := h.ended.consume
  rw [Input.consume, if_neg hend] at hended ⊢
  have hsucc : s₀.between s₀.position (s.position + 1) =
      s₀.between s₀.position s.position ++ [s.current] := by
    rw [s₀.between_succ h.le, ← h.get_eq]
    rfl
  refine ⟨⟨?_, h.le.trans (Nat.le_succ _), hended, fun t ht => ?_⟩, ?_⟩
  · rw [h.eq]
  · rw [hsucc, List.mem_append, List.mem_singleton] at ht
    obtain ht | rfl := ht
    · exact h.before t ht
    · exact Bool.eq_false_iff.2 hend
  · rw [typesBetween, typesBetween]
    dsimp only
    rw [hsucc, List.map_append]
    rfl

/-- The tokens consumed and some of those ahead are the tokens up to a place. -/
theorem between_append_take (h : s₀.ReadsOn s) {m : Nat} (hm : m ≤ s.ahead.length) :
    s₀.between s₀.position s.position ++ s.ahead.take m =
      s₀.between s₀.position (s.position + m) := by
  rw [h.ended.take_ahead hm, h.between_eq, s₀.between_append h.le (Nat.le_add_right _ _)]

theorem typesBetween_add (h : s₀.ReadsOn s) {m : Nat} (hm : m ≤ s.ahead.length) :
    s₀.typesBetween s₀.position (s.position + m) =
      s₀.typesBetween s₀.position s.position ++ (s.ahead.map Token.type).take m := by
  rw [typesBetween, ← h.between_append_take hm, List.map_append, List.map_take]
  rfl

/-- A diagnostic stops at the first token that is impossible if the tokens consumed and
    some of those ahead can be consumed, but not one more. -/
theorem stopsAtFirst (h : s₀.ReadsOn s) {m : Nat} (hm : m < s.ahead.length)
    (hkind : d.kind = .noViableAlternative ∨ d.kind = .mismatchedInput)
    (hstop : d.stop = s.position + m)
    (hconsumed : ∃ q, net.Run start (s₀.typesBetween s₀.position s.position ++
      (s.ahead.map Token.type).take m) q)
    (himpossible : ¬net.Survives start (s₀.typesBetween s₀.position s.position ++
      (s.ahead.map Token.type).take (m + 1))) : d.StopsAtFirst net start s₀ where
  kind := hkind
  le := hstop ▸ h.le.trans (Nat.le_add_right _ _)
  lt := by
    have hle := add_le_size_of_le_length h.ended.position_lt.le hm
    rw [hstop, ← h.size_eq]
    omega
  before := by
    rw [hstop, ← h.between_append_take hm.le]
    intro t ht
    rcases List.mem_append.1 ht with ht | ht
    · exact h.before t ht
    · exact isEnd_of_mem_take_throughEnd hm t ht
  consumed := by
    rwa [hstop, h.typesBetween_add hm.le]
  impossible := by
    rwa [hstop, Nat.add_assoc, h.typesBetween_add hm]

end ReadsOn

theorem Reads.of_prefix {consumed ahead u : List Int} (h : s₀.Reads s consumed ahead)
    (hu : u <+: ahead) : u <+: s.ahead.map Token.type := by
  cases h with
  | before => exact hu
  | behind =>
    rw [List.prefix_nil.1 hu]
    exact List.nil_prefix

/-- The last one of some tokens ahead is at the place of its number. -/
theorem getLastD_index (h : s.IsEnded) (hnumbered : s.IsNumbered) {m : Nat}
    (hm : m < s.ahead.length) (place : Nat) :
    ((s.ahead.take (m + 1)).map Token.index).getLastD place = s.position + m := by
  have hlt := add_le_size_of_le_length h.position_lt.le hm
  have htake : s.ahead.take (m + 1) =
      s.between s.position (s.position + m) ++ [s.get (s.position + m)] := by
    rw [h.take_ahead hm, ← s.between_succ (Nat.le_add_right _ _)]
    rfl
  rw [htake, List.map_append, List.map_singleton, List.getLastD_concat]
  exact hnumbered _ (by omega)

end Input

/-! ## Where no alternative is viable -/

/-- Where nothing is consumed behind the end of the input, no transition is left there that
    consumes a token. -/
theorem isFree_of_run_end (hmatch : net.IsMatchable)
    (hend : ∀ v w q, net.Run start (v ++ Token.endOfInput :: w) q → w = []) {w : List Int}
    {id : StateId} {context : List StateId} {t : Transition}
    (hrun : net.Run start (w ++ [Token.endOfInput]) ⟨id, context⟩)
    (ht : net.HasTransition id t) : t.label.isFree = true := by
  by_contra hfree
  obtain ⟨type, ha⟩ := hmatch id t ht (Bool.eq_false_iff.2 hfree)
  have hrun := hrun.trans (.token ht ha (.refl _))
  rw [List.append_assoc] at hrun
  cases hend _ _ _ hrun

namespace Input.ReadsOn

variable {id : StateId} {context : List StateId} {decision : State} {n : Nat}
  (h : s₀.ReadsOn s) (hnumbered : s.IsNumbered) (hs : net.state id = .ok decision)
  (hk : decision.kind ≠ .ruleStop) (hepsilon : ∀ t ∈ decision.transitions, t.label = .epsilon)
  (hmatch : net.IsMatchable)
  (hend : ∀ v w q, net.Run start (v ++ Token.endOfInput :: w) q → w = [])
  (hn : n ≤ s.ahead.length)
  (hnone : ∀ alt, ¬AltSurvives net decision context ((s.ahead.map Token.type).take n) alt)
  (hsome : ∀ k, n = k + 1 →
    ∃ alt, AltSurvives net decision context ((s.ahead.map Token.type).take k) alt)
  (hkind : d.kind = .noViableAlternative)
  (hstop : d.stop = ((s.ahead.take n).map Token.index).getLastD s.position)

include h hs hk hepsilon hn hnone hsome hkind hstop

include hnumbered in
/-- Before the end of the input, the start survives of the tokens looked at what an
    alternative does. -/
theorem stopsAtFirst_of_before (hkept : net.Keeps start
      (s₀.typesBetween s₀.position s.position) (s.ahead.map Token.type) ⟨id, context⟩) :
    d.StopsAtFirst net start s₀ := by
  have himpossible (k : Nat) (hk' : ∀ alt, ¬AltSurvives net decision context
      ((s.ahead.map Token.type).take k) alt) :
      ¬net.Survives start (s₀.typesBetween s₀.position s.position ++
        (s.ahead.map Token.type).take k) := by
    intro hsurvives
    obtain ⟨alt, halt⟩ := exists_altSurvives hs hk hepsilon
      (hkept.survives _ (List.take_prefix _ _) hsurvives)
    exact hk' alt halt
  cases n with
  | zero =>
    refine h.stopsAtFirst h.ended.length_ahead_pos (.inl hkind) hstop ⟨⟨id, context⟩, ?_⟩
      (himpossible 1 fun alt halt => hnone alt ?_)
    · rw [List.take_zero, List.append_nil]
      exact hkept.run
    · exact AltSurvives.of_append List.not_mem_nil halt
  | succ k =>
    have hnot : Token.endOfInput ∉ (s.ahead.map Token.type).take k := by
      rw [← List.map_take]
      intro hmem
      obtain ⟨t, ht, htype⟩ := List.mem_map.1 hmem
      have hlater := isEnd_of_mem_take_throughEnd hn t ht
      rw [Token.isEnd_iff.2 htype] at hlater
      cases hlater
    obtain ⟨alt, halt⟩ := hsome k rfl
    obtain ⟨q, hrun, _⟩ := halt.exists_run hs hk hepsilon hnot
    exact h.stopsAtFirst hn (.inl hkind) (hstop.trans (getLastD_index h.ended hnumbered hn _))
      ⟨q, hkept.run.trans hrun⟩ (himpossible (k + 1) hnone)

include hmatch hend in
/-- Behind the end of the input nothing more is consumed, so nothing is left open where
    the end has been reached once more. -/
theorem stopsAtFirst_of_behind (hlast : s.current.isEnd = true) (hkept : net.Keeps start
      (s₀.typesBetween s₀.position s.position ++ [Token.endOfInput]) [] ⟨id, context⟩) :
    d.StopsAtFirst net start s₀ := by
  have htypes : (s.ahead.map Token.type).take 1 = [Token.endOfInput] := by
    rw [map_take_one h.ended, Token.isEnd_iff.1 hlast]
  cases n with
  | zero =>
    obtain ⟨q, hrun, _⟩ := Network.run_append_iff.1 hkept.run
    refine h.stopsAtFirst h.ended.length_ahead_pos (.inl hkind) hstop ⟨q, ?_⟩ fun hsurvives => ?_
    · rwa [List.take_zero, List.append_nil]
    · rw [Nat.zero_add, htypes] at hsurvives
      have hsurvives := hkept.survives [] (List.prefix_refl _) (by rwa [List.append_nil])
      obtain ⟨alt, halt⟩ := exists_altSurvives hs hk hepsilon hsurvives
      exact absurd halt (hnone alt)
  | succ k =>
    -- The one token ahead has been looked at, though every run has come to its end before.
    exfalso
    obtain rfl : k = 0 := by
      rw [h.ended.ahead_eq, if_pos hlast, List.length_singleton] at hn
      omega
    rw [Nat.zero_add, htypes] at hnone
    obtain ⟨_, halt⟩ := hsome 0 rfl
    obtain ⟨⟨state, context'⟩, hrun, hrests⟩ :=
      halt.exists_run hs hk hepsilon (List.not_mem_nil : _ ∉ List.take 0 _)
    obtain ⟨hstop, rfl⟩ | ⟨t, ht, hfree⟩ := hrests
    · obtain ⟨alt, halt⟩ := exists_altSurvives hs hk hepsilon
        (.inr ⟨[], state, rfl, hstop, hrun⟩ : net.Survives ⟨id, context⟩ [Token.endOfInput])
      exact hnone alt halt
    · have hrun := hkept.run.trans hrun
      rw [List.append_nil] at hrun
      rw [isFree_of_run_end hmatch hend hrun ht] at hfree
      cases hfree

end Input.ReadsOn

/-! ## What a parse keeps -/

namespace Machine

/-- A parse has lost nothing by what it is committed to, and nothing has gone wrong. -/
structure HasKept (g : Grammar σ) (start : Point) (input : Input) (m : Machine σ) : Prop where
  linked : Linked m.stack.frames m.stack.context
  reads : input.ReadsOn m.input
  cache : m.cache.IsReachable g fun _ _ => True
  report : m.report.hasErrors = false
  keeps : ∃ consumed ahead, input.Reads m.input consumed ahead ∧
    g.toNetwork.Keeps start consumed ahead m.point

/-- How a step of a parse that has lost nothing may end: it has still lost nothing, or
    has come to the end without an error, or to the first token that is impossible. -/
def EndsUp (g : Grammar σ) (start : Point) (input : Input) (progress : Progress)
    (m : Machine σ) : Prop :=
  match progress with
  | .running => m.HasKept g start input
  | .returned _ => m.report.hasErrors = false
  | .rejected => ∃ d, m.report.diagnostics.getLast? = some d ∧
      d.StopsAtFirst g.toNetwork start input

variable {g : Grammar σ} {fuel : Nat} {options : ParseOptions} {vocabulary : Vocabulary}
  {m m' : Machine σ} {progress : Progress} {rule : RuleId} {t : Transition}

/-- A diagnostic that is added is the last one. -/
theorem getLast?_add (r : Report) (d : Diagnostic) :
    (r.add d).diagnostics.getLast? = some d :=
  List.getLast?_concat

/-! ## Following a transition -/

/-- To follow a free transition keeps what it does not lose. -/
theorem Takes.hasKept (h : Takes g vocabulary rule t m progress m')
    (hpredicate : g.toNetwork.HasNoPredicate) (hm : m.HasKept g start input)
    (ht : g.toNetwork.HasTransition m.state t) (hfree : t.label.isFree = true)
    (hkeeps : ∀ consumed ahead, g.toNetwork.Keeps start consumed ahead m.point →
      input.Reads m.input consumed ahead →
        g.toNetwork.Keeps start consumed ahead (Network.behind t m.stack.context)) :
    m'.EndsUp g start input progress := by
  obtain ⟨consumed, ahead, hreads, hkept⟩ := hm.keeps
  have hkept := hkeeps consumed ahead hkept hreads
  cases h with
  | epsilon => exact ⟨hm.linked, hm.reads, hm.cache, hm.report, consumed, ahead, hreads, hkept⟩
  | holds => exact absurd rfl (hpredicate _ _ ht _)
  | fails => exact absurd rfl (hpredicate _ _ ht _)
  | @action target index a _ stack out host _ hperform =>
    have hlinked := hm.linked.of_perform hperform
    have hcontext := hlinked.context_eq
    refine ⟨hcontext ▸ hlinked, hm.reads, hm.cache, hm.report, consumed, ahead, hreads, ?_⟩
    rw [point, hcontext]
    exact hkept
  | @call target follow callee _ stack host henter =>
    -- The new invocation is linked to the state behind the call.
    obtain ⟨_, _, _, _, _, _, _, rfl⟩ := Grammar.enter_eq_ok henter
    exact ⟨.call rfl rfl hm.linked, hm.reads, hm.cache, hm.report, consumed, ahead, hreads, hkept⟩
  | token ha =>
    rw [Label.isFree_eq_false_of_accepts ha] at hfree
    cases hfree
  | mismatch hconsumes =>
    rw [hconsumes] at hfree
    cases hfree

section

variable (hmatch : g.toNetwork.IsMatchable)
  (hend : ∀ v w q, g.toNetwork.Run start (v ++ Token.endOfInput :: w) q → w = [])

include hmatch hend

/-- Where a token is still to be consumed, the end of the input has not been matched. -/
theorem HasKept.before (hm : m.HasKept g start input) (ht : g.toNetwork.HasTransition m.state t)
    (hfree : t.label.isFree = false) :
    g.toNetwork.Keeps start (input.typesBetween input.position m.input.position)
      (m.input.ahead.map Token.type) m.point := by
  obtain ⟨consumed, ahead, hreads, hkept⟩ := hm.keeps
  cases hreads with
  | before => exact hkept
  | behind =>
    rw [isFree_of_run_end hmatch hend hkept.run ht] at hfree
    cases hfree

/-- Where the one transition that leaves a state consumes a token, this is moved behind
    or is the first one that is impossible. -/
theorem Takes.endsUp_of_consuming (h : Takes g vocabulary rule t m progress m')
    (hnumbered : m.input.IsNumbered) (hm : m.HasKept g start input)
    (ht : g.toNetwork.HasTransition m.state t) (hfree : t.label.isFree = false)
    (honly : ∀ t', g.toNetwork.HasTransition m.state t' → t' = t) :
    m'.EndsUp g start input progress := by
  have hkept := hm.before hmatch hend ht hfree
  have hended := hm.reads.ended
  cases h with
  | epsilon => cases hfree
  | holds => cases hfree
  | fails => cases hfree
  | action => cases hfree
  | call => cases hfree
  | token ha =>
    rw [hended.ahead_eq] at hkept
    by_cases hlast : m.input.current.isEnd = true
    · -- The token that ends the input has been matched, and stays the current one.
      rw [if_pos hlast, List.map_singleton] at hkept
      have hinput : m.input.consume = m.input := if_pos hlast
      have hreads : input.Reads m.input _ _ := .behind hlast
      have hkept := hkept.token ht ha honly
      rw [Token.isEnd_iff.1 hlast] at hkept
      rw [← hinput] at hreads hkept
      exact ⟨hm.linked, hinput.symm ▸ hm.reads, hm.cache, hm.report, _, _, hreads, hkept⟩
    · obtain ⟨hreads, hconsumed⟩ := hm.reads.consume hlast
      rw [if_neg hlast, List.map_cons] at hkept
      have hkept := hkept.token ht ha honly
      rw [← hconsumed] at hkept
      exact ⟨hm.linked, hreads, hm.cache, hm.report, _, _, .before, hkept⟩
  | @mismatch _ _ d _ ha hd =>
    obtain ⟨r, _, hd⟩ := Except.exists_of_bind hd
    cases hd
    refine ⟨_, getLast?_add _ _, hm.reads.stopsAtFirst hended.length_ahead_pos (.inr rfl)
      (hnumbered _ hended.position_lt) ⟨m.point, ?_⟩ fun hsurvives => ?_⟩
    · rw [List.take_zero, List.append_nil]
      exact hkept.run
    · -- The start would survive the token only if the parse could consume it.
      have hsurvives := hkept.survives _ (List.take_prefix _ _) hsurvives
      rw [Nat.zero_add, Input.map_take_one hended] at hsurvives
      rw [(hsurvives.of_token ht hfree honly).1] at ha
      cases ha

end

/-! ## Deciding -/

theorem hasErrors_of_addPrediction {r r' : Report} {p : Prediction} {alt : Int}
    {d : Option Diagnostic} (halt : p.outcome.alt? = some alt)
    (h : r.addPrediction g p input = .ok (d, r')) : r'.hasErrors = r.hasErrors := by
  obtain ⟨_, hd, _⟩ := Except.exists_of_bind h
  obtain ⟨rule, hrule, _⟩ := Except.exists_of_bind hd
  obtain ⟨_, _, h', herrors⟩ := addPrediction_of_alt (r := r) hrule halt input
  rw [h] at h'
  cases h'
  exact herrors

/-- That there is no viable alternative is the last thing to say. -/
theorem getLast?_of_addPrediction {r r' : Report} {p : Prediction} {d : Option Diagnostic}
    (hp : p.outcome = .noViableAlt) (h : r.addPrediction g p input = .ok (d, r')) :
    ∃ d, r'.diagnostics.getLast? = some d ∧ d.kind = .noViableAlternative ∧ d.stop = p.stop := by
  obtain ⟨d, hd, h⟩ := Except.exists_of_bind h
  obtain ⟨rule, hrule, hd⟩ := Except.exists_of_bind hd
  rw [hp] at hd
  cases hd
  cases h
  exact ⟨_, getLast?_add _ _, rfl, rfl⟩

section

variable (hg : g.IsBuilt) (hpredicate : g.toNetwork.HasNoPredicate)
  (hgreedy : ∀ id, g.toNetwork.IsGreedyAt id)
  (hstops : ∀ lookahead, options.stops lookahead = false) {s : State}
  (hs : g.state m.state = .ok s) (hk : s.kind ≠ .ruleStop) (hd : s.decision.isSome = true)

include hg hpredicate hgreedy hstops hs hk hd

/-- A prediction that takes an alternative keeps what the parse has lost nothing of, and
    so does this alternative. -/
theorem HasKept.decided (hm : m.HasKept g start input) {i : Nat}
    (hdecide : decide g fuel options m = (.ok (some i), m')) (ht : s.transitions[i]? = some t) :
    m'.HasKept g start input ∧ m'.state = m.state ∧
      ∀ u, u <+: m'.input.ahead.map Token.type → g.toNetwork.Survives m'.point u →
        g.toNetwork.Survives ⟨t.target, m'.stack.context⟩ u := by
  obtain ⟨p, cache, host, d, report, hp, hreport, hindex, rfl⟩ := decide_eq_ok hdecide
  obtain ⟨alt, halt, rfl⟩ := Option.map_eq_some_iff.1 hindex.symm
  obtain ⟨n, _, hheeds, _⟩ := Grammar.predictAt_heeds hg hpredicate hs (hgreedy _) hstops
    hm.cache (congrArg Prod.fst hp)
  have hcache : cache.IsReachable g fun _ _ => True := by
    have hreachable := Cache.IsReachable.predict fuel options.toPredictOptions m.state m.input
      m.stack m.host hm.cache trivial
    rwa [hp] at hreachable
  refine ⟨⟨hm.linked, hm.reads, hcache, ?_, hm.keeps⟩, rfl, fun u hu hsurvives => ?_⟩
  · exact (hasErrors_of_addPrediction halt hreport).trans hm.report
  · obtain ⟨other, hother⟩ :=
      exists_altSurvives hs hk (hg.isSound.epsilon _ _ hs hd) hsurvives
    obtain ⟨j, t', ht', rfl, htaken⟩ := hheeds.taken alt halt u hu other hother
    have hj : (1 + (j : Int) - 1).toNat = j := by omega
    rw [hj, ht'] at ht
    cases ht
    exact htaken

/-- Where no alternative is viable, the token that the prediction has stopped at is the
    first one that is impossible. -/
theorem HasKept.givesUp (hnumbered : m.input.IsNumbered)
    (hend : ∀ v w q, g.toNetwork.Run start (v ++ Token.endOfInput :: w) q → w = [])
    (hm : m.HasKept g start input) (hdecide : decide g fuel options m = (.ok none, m')) :
    m'.EndsUp g start input .rejected := by
  obtain ⟨p, cache, host, d, report, hp, hreport, hindex, rfl⟩ := decide_eq_ok hdecide
  obtain ⟨n, hn, hheeds, hstop⟩ := Grammar.predictAt_heeds hg hpredicate hs (hgreedy _) hstops
    hm.cache (congrArg Prod.fst hp)
  obtain ⟨houtcome, hnone, hsome⟩ := hheeds.viable (Option.map_eq_none_iff.1 hindex.symm)
  obtain ⟨d, hlast, hkind, hdstop⟩ := getLast?_of_addPrediction houtcome hreport
  have hepsilon := hg.isSound.epsilon _ _ hs hd
  obtain ⟨consumed, ahead, hreads, hkept⟩ := hm.keeps
  refine ⟨d, hlast, ?_⟩
  cases hreads with
  | before =>
    exact hm.reads.stopsAtFirst_of_before hnumbered hs hk hepsilon hn hnone hsome hkind
      (hdstop.trans hstop) hkept
  | behind hcurrent =>
    exact hm.reads.stopsAtFirst_of_behind hs hk hepsilon hg.isSound.isMatchable hend hn hnone hsome
      hkind (hdstop.trans hstop) hcurrent hkept

end

/-! ## Leaving an invocation -/

/-- To leave an invocation is the only step from the stop of its rule. -/
theorem HasKept.left {s : State} (hs : g.state m.state = .ok s) (hk : s.kind = .ruleStop)
    (hm : m.HasKept g start input) {frame : Frame} {returns : Scope} {stack : Stack}
    (htop : m.stack.top = .ok frame) (hexit : m.stack.exit = .ok (returns, stack))
    (hne : stack.frames ≠ []) :
    HasKept g start input { m with stack, state := frame.follow.getD (-1) } := by
  have hstop : g.toNetwork.IsStop m.state := ⟨s, hs, hk⟩
  obtain ⟨hlinked, hreads, hcache, hreport, consumed, ahead, hahead, hkept⟩ := hm
  rw [point] at hkept
  cases hcontext : m.stack.context with
  | nil =>
    rw [hcontext] at hlinked
    obtain ⟨_, _, hexit'⟩ := hlinked.exit_outermost
    rw [hexit'] at hexit
    cases hexit
    exact absurd rfl hne
  | cons follow rest =>
    rw [hcontext] at hlinked hkept
    obtain ⟨_, _, htop', hfollow, hexit', hrest, _⟩ := hlinked.exit
    rw [htop'] at htop
    rw [hexit'] at hexit
    cases htop
    cases hexit
    have hnext := hkept.step (Network.not_rests_of_stop hstop (List.cons_ne_nil _ _))
      (.exit hs hk) fun q hq => by
        obtain ⟨t, ht, _⟩ | ⟨_, _, _, hcons, rfl⟩ := hq.cases_behind
        · exact absurd hstop ht.not_isStop
        · cases hcons
          rfl
    refine ⟨hrest.context_eq.symm ▸ hrest, hreads, hcache, hreport, consumed, ahead, hahead, ?_⟩
    rw [point, hrest.context_eq, hfollow, Option.getD_some]
    exact hnext

/-! ## One step and all steps -/

section

variable (hg : g.IsBuilt) (hpredicate : g.toNetwork.HasNoPredicate)
  (hgreedy : ∀ id, g.toNetwork.IsGreedyAt id)
  (hstops : ∀ lookahead, options.stops lookahead = false) (hnumbered : input.IsNumbered)
  (hend : ∀ v w q, g.toNetwork.Run start (v ++ Token.endOfInput :: w) q → w = [])

include hg hpredicate hgreedy hstops hnumbered hend

/-- A step of a parse that has lost nothing. -/
theorem Steps.endsUp (h : Steps g fuel options vocabulary m progress m')
    (hm : m.HasKept g start input) : m'.EndsUp g start input progress := by
  cases h with
  | returns => exact hm.report
  | leaves hs hk htop hexit hne => exact hm.left hs hk htop hexit hne
  | @follows _ s t _ hs hk hd ht htake =>
    have hmem : t ∈ s.transitions := List.mem_of_getElem? ht
    have htrans : g.toNetwork.HasTransition m.state t := ⟨s, hs, hk, hmem⟩
    -- There is no other way on.
    have honly (t' : Transition) (ht' : g.toNetwork.HasTransition m.state t') : t' = t := by
      have hmem' := ht'.mem hs
      rw [hg.isSound.eq_singleton hs hd hmem] at hmem'
      exact List.mem_singleton.1 hmem'
    have hstop : ¬g.toNetwork.IsStop m.state := Network.not_isStop hs hk
    cases hfree : t.label.isFree with
    | true =>
      refine htake.hasKept hpredicate hm htrans hfree fun consumed ahead hkept _ =>
        hkept.step (Network.not_rests_of_isFree hstop fun t' ht' => honly t' ht' ▸ hfree)
          (Network.freeStep_behind htrans hfree _) fun q hq => ?_
      obtain ⟨t', ht', _, rfl⟩ | ⟨_, _, h, _⟩ := hq.cases_behind
      · rw [honly t' ht']
      · exact absurd h hstop
    | false =>
      exact htake.endsUp_of_consuming hg.isSound.isMatchable hend (hm.reads.isNumbered hnumbered) hm
        htrans hfree honly
  | @decides m₁ _ s _ t _ hs hk hd hdecide ht htake =>
    obtain ⟨hm₁, hstate, htaken⟩ :=
      hm.decided hg hpredicate hgreedy hstops hs hk hd hdecide ht
    have hmem : t ∈ s.transitions := List.mem_of_getElem? ht
    have hlabel := hg.isSound.epsilon _ _ hs hd t hmem
    have htrans : g.toNetwork.HasTransition m₁.state t := hstate ▸ ⟨s, hs, hk, hmem⟩
    have hfree : t.label.isFree = true := by
      rw [hlabel]
      rfl
    refine htake.hasKept hpredicate hm₁ htrans hfree fun consumed ahead hkept hreads =>
      hkept.of_freeStep (Network.freeStep_behind htrans hfree _) fun u hu hsurvives => ?_
    rw [Network.behind, hlabel]
    exact htaken u (hreads.of_prefix hu) hsurvives
  | givesUp hs hk hd hdecide =>
    exact hm.givesUp hg hpredicate hgreedy hstops hs hk hd (hm.reads.isNumbered hnumbered) hend
      hdecide

/-- A parse that has lost nothing ends without an error, or at the first token that is
    impossible. -/
theorem run_endsUp {steps : Nat} {returns : Option Scope}
    (h : run g fuel options vocabulary steps m = (.ok returns, m'))
    (hm : m.HasKept g start input) :
    m'.EndsUp g start input ((returns.map Progress.returned).getD .rejected) := by
  induction steps generalizing m with
  | zero => cases h
  | succ steps ih =>
    obtain ⟨progress, m₁, hstep, h⟩ := exists_of_bind_apply h
    have hm₁ := (steps_of_step hstep).endsUp hg hpredicate hgreedy hstops hnumbered hend hm
    cases progress with
    | running => exact ih h hm₁
    | returned returns' =>
      cases h
      exact hm₁
    | rejected =>
      cases h
      exact hm₁

end

end Machine

namespace Grammar

variable {g : Grammar σ} {fuel : Nat} {options : ParseOptions} {vocabulary : Vocabulary}
  {start : String} {id : RuleId} {rule : Rule} {tokens : List Token} {i : Nat}
  {s s' : ParseState σ} {outcome : ParseOutcome}

/-- A parse without predicates and non-greedy loops that rejects its input reports the
    first token last that is impossible from the start of its rule. If runs from there
    come to no dead ends, they do not even consume it. -/
theorem parse_rejects (hg : g.IsBuilt) (hpredicate : g.toNetwork.HasNoPredicate)
    (hgreedy : ∀ id, g.toNetwork.IsGreedyAt id) (hstart : g.findRule? start = some id)
    (hrule : g.rule id = .ok rule)
    (hend : ∀ v w q, g.toNetwork.Run ⟨rule.start, []⟩ (v ++ Token.endOfInput :: w) q → w = [])
    (hlimit : options.limit = 0) (hcancelled : options.cancelled = false)
    (hinput : s.input = (Input.ofList tokens).seek i)
    (hcache : s.cache.IsReachable g fun _ _ => True)
    (h : g.parse fuel options vocabulary start s = (.ok outcome, s'))
    (hrejects : outcome.success = false) :
    ∃ d, outcome.diagnostics.getLast? = some d ∧
      d.StopsAtFirst g.toNetwork ⟨rule.start, []⟩ s.input ∧
      (g.toNetwork.HasNoDeadEnd ⟨rule.start, []⟩ → ¬g.toNetwork.Consumes ⟨rule.start, []⟩
        (s.input.typesBetween s.input.position (d.stop + 1))) := by
  have hstops (lookahead : Nat) : options.stops lookahead = false := by
    rw [PredictOptions.stops, hlimit, hcancelled]
    rfl
  have hended : s.input.IsEnded := hinput ▸ Input.isEnded_seek tokens i
  have hnumbered : s.input.IsNumbered := hinput ▸ Input.isNumbered_ofList tokens
  obtain ⟨_, _, stack, host, m, returns, hid, hr, henter, hrun, _, rfl⟩ := parse_eq_ok h
  cases hstart.symm.trans hid
  cases hrule.symm.trans hr
  obtain ⟨_, _, _, _, _, _, _, rfl⟩ := enter_eq_ok henter
  have hreads : s.input.ReadsOn s.input := ⟨rfl, le_rfl, hended, by simp [Input.between]⟩
  have hkept : g.toNetwork.Keeps ⟨rule.start, []⟩
      (s.input.typesBetween s.input.position s.input.position)
      (s.input.ahead.map Token.type) ⟨rule.start, []⟩ := by
    rw [Input.typesBetween, Input.between_self]
    exact .refl _ _
  have hends := Machine.run_endsUp hg hpredicate hgreedy hstops hnumbered hend hrun
    ⟨.outermost rfl, hreads, hcache, rfl, _, _, .before, hkept⟩
  cases returns with
  | some returns =>
    have herrors : m.report.hasErrors = false := hends
    dsimp only at hrejects
    rw [herrors] at hrejects
    cases hrejects
  | none =>
    obtain ⟨d, hlast, hfirst⟩ := hends
    exact ⟨d, hlast, hfirst, fun hdead hconsumes => hfirst.impossible (hconsumes.survives hdead)⟩

/-- A parse of an input that goes wrong at the last token, which is found in advance. -/
def mistaken : Except Fault ParseOutcome × ParseState Unit :=
  nested.parse 100 {} {} "r"
    { input := .ofTypes [1, 1, 2], cache := .ofNetwork nested.toNetwork, host := () }

theorem nested_parse_rejects :
    ∃ outcome d, mistaken.1 = .ok outcome ∧ outcome.success = false ∧
      outcome.diagnostics.getLast? = some d ∧ d.kind = .noViableAlternative ∧ d.stop = 2 ∧
      d.StopsAtFirst nested.toNetwork ⟨0, []⟩ (.ofTypes [1, 1, 2]) ∧
      ¬nested.toNetwork.Consumes ⟨0, []⟩ [1, 1, 2] := by
  have hevaluate : nested.findRule? "r" = some 0 ∧
      nested.rule 0 = .ok { name := "r", start := 0, stop := 1 } ∧
      nested.toNetwork.goesOn = true ∧ (nested.toNetwork.state 0).toOption.isSome = true ∧
      (Input.ofTypes [1, 1, 2]).typesBetween 0 3 = [1, 1, 2] ∧
      mistaken.1.toOption.map ParseOutcome.success = some false ∧
      (mistaken.1.toOption.bind fun o => o.diagnostics.getLast?.map fun d => (d.kind, d.stop)) =
        some (.noViableAlternative, 2) := by
    decide +kernel
  obtain ⟨hstart, hrule, hgoes, hstate, htypes, hsuccess, hlast⟩ := hevaluate
  have hsimple := isSimple_nested
  have hend (v w : List Int) (q : Point)
      (hrun : nested.toNetwork.Run ⟨0, []⟩ (v ++ Token.endOfInput :: w) q) : w = [] := by
    obtain ⟨_, _, hrun⟩ := Network.run_append_iff.1 hrun
    obtain ⟨id, _, t, _, ht, ha, _⟩ := Network.run_cons_iff.1 hrun
    rw [Network.not_accepts_of_allTransitions hsimple.notEnd id t ht] at ha
    cases ha
  have hdead : nested.toNetwork.HasNoDeadEnd ⟨0, []⟩ :=
    Network.hasNoDeadEnd_of_goesOn hgoes hsimple.noFreeCycle
      (Network.isClosed_of_leadsInside hsimple.inside)
      ⟨Network.hasState_of_isSome hstate, by simp⟩
  let s₀ : ParseState Unit :=
    { input := .ofTypes [1, 1, 2], cache := .ofNetwork nested.toNetwork, host := () }
  have hinput : s₀.input = (Input.ofTypes [1, 1, 2]).seek 0 := rfl
  rcases h : mistaken with ⟨result, s⟩
  rw [h] at hsuccess hlast
  cases result with
  | error fault => cases hsuccess
  | ok outcome =>
    have hrejects : outcome.success = false := Option.some.inj hsuccess
    rw [mistaken] at h
    obtain ⟨d, hd, hfirst, hconsumes⟩ := parse_rejects (i := 0) (s := s₀) hsimple.built
      (hsimple.built.isSound.hasNoPredicate hsimple.predicates) hsimple.isGreedyAt hstart hrule
      hend rfl rfl hinput .new h hrejects
    have hlast : outcome.diagnostics.getLast?.map (fun d => (d.kind, d.stop)) =
      some (.noViableAlternative, 2) := hlast
    rw [hd] at hlast
    obtain ⟨hkind, hstop⟩ := Prod.mk.inj (Option.some.inj hlast)
    have hconsumes := hconsumes hdead
    rw [hstop] at hconsumes
    refine ⟨outcome, d, rfl, hrejects, hd, hkind, hstop, hfirst, ?_⟩
    rw [← htypes]
    exact hconsumes

/-- Defines a rule from the start of a fragment and the end of another one. -/
def breaking : Build Unit Unit := do
  let r ← Build.openRule "r" {}
  let first ← Build.token 1
  let second ← Build.token 2
  let choice ← Build.block [first, second]
  let last ← Build.token 3
  Build.closeRule r { start := choice.start, stop := last.stop }

/-- A grammar with a rule whose runs come to a dead end. -/
def broken : Grammar Unit :=
  ((Build.finish (breaking {}).2).1.toOption).getD {}

/-- A parse with that rule. -/
def brokenOn : Except Fault ParseOutcome × ParseState Unit :=
  broken.parse 30 {} {} "r"
    { input := .ofTypes [1], cache := .ofNetwork broken.toNetwork, host := () }

theorem isReachable_breaking : (breaking {}).2.IsReachable :=
  (Builder.IsReachable.empty.openRule "r" {}).bind fun r _ h =>
    (h.step (.token 1)).bind fun first _ h =>
      (h.step (.token 2)).bind fun second _ h =>
        (h.step (.block [first, second])).bind fun choice _ h =>
          (h.step (.token 3)).bind fun last _ h =>
            h.closeRule r { start := choice.start, stop := last.stop }

theorem broken_eq :
    (Build.finish (breaking {}).2).1.toOption.isSome = true ∧
      broken.toNetwork.descends ([2, 0, 0, 1, 0, 1, 1, 0, 0, 1].getD ·.toNat 0) = true ∧
      broken.predicates.size = 0 ∧ broken.actions.size = 0 ∧
      (broken.states.toList.all fun s => !s.nonGreedy) = true ∧
      broken.toNetwork.allTransitions broken.toNetwork.leadsInside = true ∧
      broken.toNetwork.allTransitions (fun t => !t.label.accepts Token.endOfInput) = true ∧
      broken.findRule? "r" = some 0 ∧
      broken.rule 0 = .ok { name := "r", start := 0, stop := 1 } ∧
      brokenOn.1.toOption.map ParseOutcome.success = some false ∧
      (brokenOn.1.toOption.bind fun o => o.diagnostics.getLast?.map fun d => (d.kind, d.stop)) =
        some (.noViableAlternative, 0) ∧
      broken.toNetwork.walk [0, 0, 0] ((Input.ofTypes [1]).typesBetween 0 1) ⟨0, []⟩ =
        some ⟨3, []⟩ := by
  decide +kernel

/-- A parse with a rule that comes to a dead end reports the token before this as
    impossible, although a run from the start of the rule consumes it. -/
theorem broken_parse_rejects :
    broken.IsSimple ∧ ¬broken.toNetwork.IsLeftRecursive ∧ broken.findRule? "r" = some 0 ∧
      broken.rule 0 = .ok { name := "r", start := 0, stop := 1 } ∧
      brokenOn.1.toOption.map ParseOutcome.success = some false ∧
      (brokenOn.1.toOption.bind fun o => o.diagnostics.getLast?.map fun d => (d.kind, d.stop)) =
        some (.noViableAlternative, 0) ∧
      broken.toNetwork.Consumes ⟨0, []⟩ ((Input.ofTypes [1]).typesBetween 0 1) := by
  obtain ⟨hfinish, hdescends, hpredicates, hactions, hgreedy, hinside, hend, hstart, hrule, hparse,
    hlast, hwalk⟩ := broken_eq
  have hcycle := Network.not_hasFreeCycle_of_descends _ hdescends
  have hbuilt := isBuilt_finish_getD isReachable_breaking hfinish {}
  exact ⟨⟨hbuilt, hcycle, hpredicates, hactions, hgreedy, hinside, hend⟩,
    Network.not_isLeftRecursive hcycle, hstart, hrule, hparse, hlast,
    .inl ⟨_, Network.run_of_walk _ hwalk⟩⟩

end Grammar

end AdaptiveLL
