import AdaptiveLL.Proofs.Grammar.Completion
import AdaptiveLL.Proofs.Prediction.Stability
import AdaptiveLL.Proofs.Prediction.Surroundings
import AdaptiveLL.Proofs.Prediction.Termination

/-!
# How far predictions look

Without left recursion, a closure ends whatever configuration it starts with, and a
prediction ends whatever predictions have been made before. It looks at no token behind the
one that ends the input, and stops at the last token that it has looked at, or where it
starts if it has looked at none (`Grammar.predictAt_isBounded`).
-/

namespace AdaptiveLL

variable {σ : Type}

/-! ## What there is ahead -/

namespace Input

variable {s : Input}

/-- What is ahead ends where the first token does that ends the input. -/
theorem IsEnded.length_ahead_le (h : s.IsEnded) {e : Nat} (he : s.position ≤ e)
    (hend : (s.get e).isEnd = true) : s.ahead.length ≤ e - s.position + 1 := by
  by_contra hlt
  have hlt : e - s.position + 1 < s.ahead.length := Nat.lt_of_not_le hlt
  -- Otherwise that token would not be the last one ahead.
  have hmem : s.get e ∈ s.ahead.take (e - s.position + 1) := by
    rw [h.take_ahead hlt.le, ← Nat.add_assoc, Nat.add_sub_of_le he, s.between_succ he]
    exact List.mem_append_right _ List.mem_cons_self
  exact Bool.false_ne_true ((isEnd_of_mem_take_throughEnd hlt _ hmem).symm.trans hend)

/-- The last one of some tokens ahead is numbered by its place. -/
theorem IsEnded.index_getLast?_take (h : s.IsEnded) (hnumbered : s.IsNumbered) {n : Nat}
    (hn : n ≤ s.ahead.length) :
    ((s.ahead.take n).getLast?.map Token.index).getD s.position =
      if 0 < n then s.position + n - 1 else s.position := by
  cases n with
  | zero => rw [List.take_zero, if_neg (Nat.lt_irrefl 0)]; rfl
  | succ n =>
    have hsize := add_le_size_of_le_length h.position_lt.le hn
    rw [h.take_ahead hn, ← Nat.add_assoc, s.between_succ (Nat.le_add_right _ _),
      List.getLast?_concat, if_pos n.succ_pos]
    exact hnumbered (s.position + n) (Nat.lt_of_succ_le hsize)

end Input

/-! ## What a prediction looks at -/

namespace Setting

variable {setting : Setting σ} {fuel : Nat} {options : PredictOptions}

/-- A prediction looks at some of the tokens that it is given, and stops at the last one of
    them. -/
theorem follow_looks {tokens : List Token} {i stop lookahead : Nat} {trial trial' : Trial σ}
    {r : Outcome × Nat × Nat}
    (h : setting.follow fuel options tokens i stop lookahead trial = (.ok r, trial')) :
    ∃ n ≤ tokens.length, r.2.2 = lookahead + n ∧
      r.2.1 = ((tokens.take n).getLast?.map Token.index).getD stop := by
  induction tokens generalizing i stop lookahead trial with
  | nil =>
    obtain ⟨_, _, _, ⟨_, _, rfl, _⟩ | ⟨_, _, rfl, _⟩ | ⟨_, _, _, _, _, _, hnil, _⟩⟩ :=
      follow_cases h
    · exact ⟨0, le_rfl, rfl, rfl⟩
    · exact ⟨0, le_rfl, rfl, rfl⟩
    · cases hnil
  | cons t rest ih =>
    obtain ⟨_, _, _, ⟨_, _, rfl, _⟩ | ⟨_, _, rfl, _⟩ | ⟨_, _, _, _, _, _, hcons, _, hfollow⟩⟩ :=
      follow_cases h
    · exact ⟨0, Nat.zero_le _, rfl, rfl⟩
    · exact ⟨0, Nat.zero_le _, rfl, rfl⟩
    · cases hcons
      obtain ⟨n, hn, hlookahead, hstop⟩ := ih hfollow
      refine ⟨n + 1, Nat.succ_le_succ hn, by omega, ?_⟩
      rw [hstop, List.take_succ_cons, List.getLast?_cons]
      cases (rest.take n).getLast? <;> rfl

end Setting

/-- A prediction looks at no token behind the one that ends an input, and stops at the last
    token that it has looked at, or where it starts if it has looked at none. -/
structure Prediction.IsBoundedBy (p : Prediction) (input : Input) : Prop where
  start : p.start = input.position
  lookahead : ∀ e, input.position ≤ e → (input.get e).isEnd = true →
    p.lookahead ≤ e - p.start + 1
  stop : p.stop = if 0 < p.lookahead then p.start + p.lookahead - 1 else p.start

namespace Grammar

variable {g : Grammar σ} {fuel : Nat} {options : PredictOptions} {id : StateId} {input : Input}
  {stack : Stack} {cache : Cache} {host : σ} {p : Prediction} {r : Cache × σ}

/-- Whatever it comes to, a prediction is bounded by its input. -/
theorem isBoundedBy_of_predictAt (hended : input.IsEnded) (hnumbered : input.IsNumbered)
    (h : g.predictAt fuel options id input stack (cache, host) = (.ok p, r)) :
    p.IsBoundedBy input := by
  obtain ⟨setting, hset, h⟩ := Effect.exists_of_ofExcept_bind h
  rw [bind_apply, get_apply] at h
  obtain ⟨_, _, h⟩ := Effect.exists_of_ofExcept_bind h
  obtain ⟨⟨outcome, stop, lookahead⟩, trial', hrun, h⟩ := Effect.exists_of_zoom_bind h
  cases h
  obtain ⟨_, _, _, _, _, rfl⟩ := setting_eq_ok hset
  obtain ⟨i, trial, _, hfollow⟩ := exists_of_bind_apply hrun
  obtain ⟨n, hn, hlookahead, hstop⟩ := Setting.follow_looks hfollow
  obtain rfl : lookahead = n := hlookahead.trans (Nat.zero_add n)
  refine ⟨rfl, fun e he hend => hn.trans (hended.length_ahead_le he hend), ?_⟩
  exact hstop.trans (hended.index_getLast?_take hnumbered hn)

/-- Without left recursion, a closure ends whatever configuration it starts with, and with a
    result if this is one of the network. Predictions end whatever cache they are made with,
    and are bounded by their inputs. -/
theorem predictAt_isBounded {g : Grammar σ} (hg : g.IsBuilt)
    (hnet : g.toNetwork.IsClosed) (hleft : ¬g.toNetwork.IsLeftRecursive) :
    (∀ (exit : LoopExit) (collect : Bool) (c : Config) (search : Search), c.guard.IsAscending →
      ∃ n r, r ≠ .error .outOfFuel ∧ (g.toNetwork.IsIn c.point → ∃ search', r = .ok search') ∧
        ∀ m ≥ n, closure g.toNetwork exit collect m c search = r) ∧
    ∀ (admits : StateId → Stack → Prop) (cache : Cache), cache.IsReachable g admits →
      ∀ (id : StateId) (s : State), g.state id = .ok s → s.decision.isSome = true →
      ∀ (options : PredictOptions) (input : Input) (stack : Stack) (host : σ),
        input.IsEnded → input.IsNumbered →
        (g.PredicatesEnd →
          Effect.Converges (fun fuel => g.predictAt fuel options id input stack) (cache, host)) ∧
        ∀ (fuel : Nat) (p : Prediction) (r : Cache × σ),
          g.predictAt fuel options id input stack (cache, host) = (.ok p, r) →
            p.IsBoundedBy input := by
  refine ⟨fun exit collect c search hc => ?_, fun admits cache hcache id s hs hd options input
    stack host hended hnumbered => ⟨fun hpredicates => ?_, fun fuel p r hp => ?_⟩⟩
  · obtain ⟨n, hn⟩ : Halts fun n => closure g.toNetwork exit collect n c search :=
      closure_halts hleft c (.inr hc) search
    refine ⟨n, _, hn, fun hin => ?_, fun m hm =>
      (closure_isFueled g.toNetwork exit collect c search).eq_of_le hn hm⟩
    have hneeds : NeedsFuelOnly (closure g.toNetwork exit collect n c search) :=
      closureFrom_needsFuelOnly hnet n search (List.forall_mem_singleton.2 hin)
    exact hneeds.exists_ok hn
  · exact predictAt_converges hg.isSound hnet hleft hpredicates (hcache.isProper hg.isSound hnet)
      hs hd options hended stack host
  · exact isBoundedBy_of_predictAt hended hnumbered hp

/-- A decision under a predicate, in a call, with what another prediction has left. -/
theorem guarded_predictAt_isBounded :
    ∃ cache : Cache,
      cache = (guarded.predictAt 40 {} 6 (.ofTypes [2, 3, 3, 2]) {}
        (.ofNetwork guarded.toNetwork, ())).2.1 ∧
      (∃ n search, ∀ m ≥ n, closure guarded.toNetwork ⟨true, 1, 2⟩ true m ⟨⟨6, 1, []⟩, {}, 0, false⟩
        {} = .ok search) ∧
      Effect.Converges (fun fuel => guarded.predictAt fuel {} 6 (.ofTypes [2, 3, 3, 2])
        { frames := invocations [16] }) (cache, ()) ∧
      ∀ fuel p r, guarded.predictAt fuel {} 6 (.ofTypes [2, 3, 3, 2])
        { frames := invocations [16] } (cache, ()) = (.ok p, r) →
          p.IsBoundedBy (.ofTypes [2, 3, 3, 2]) := by
  obtain ⟨hg, hleft, _, hexit, hdecision⟩ := isComposed_guarded
  obtain ⟨s, hs, _⟩ := Except.exists_of_bind hexit
  have hd : s.decision.isSome := by
    rw [hs] at hdecision
    rw [Except.ok.inj hdecision]
    rfl
  have hends : guarded.PredicatesEnd := by
    intro index p hp scene
    rw [evaluate_guarded hp]
    exact .pure _
  obtain ⟨hclosure, hpredict⟩ := predictAt_isBounded hg.isBuilt hg.isClosed hleft
  obtain ⟨cache, hc⟩ : ∃ cache : Cache, cache = (guarded.predictAt 40 {} 6
      (.ofTypes [2, 3, 3, 2]) {} (.ofNetwork guarded.toNetwork, ())).2.1 := ⟨_, rfl⟩
  have hcache : cache.IsReachable guarded fun _ _ => True := by
    rw [hc]
    exact .predict 40 {} 6 (.ofTypes [2, 3, 3, 2]) {} () .new trivial
  obtain ⟨hconverges, hbounded⟩ := hpredict _ cache hcache 6 s hs hd {} (.ofTypes [2, 3, 3, 2])
    { frames := invocations [16] } () (Input.isEnded_ofList _) (Input.isNumbered_ofList _)
  refine ⟨cache, hc, ?_, hconverges hends, hbounded⟩
  obtain ⟨n, r, _, hok, hn⟩ := hclosure ⟨true, 1, 2⟩ true ⟨⟨6, 1, []⟩, {}, 0, false⟩ {}
    Guard.isAscending_trivial
  obtain ⟨search, rfl⟩ := hok ⟨⟨s, hs⟩, List.forall_mem_nil _⟩
  exact ⟨n, search, hn⟩

end Grammar

end AdaptiveLL
