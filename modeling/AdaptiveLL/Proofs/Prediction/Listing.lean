import AdaptiveLL.Proofs.Prediction.Exactness
import AdaptiveLL.Proofs.Prediction.Keying
import AdaptiveLL.Proofs.Prediction.Pruning

/-!
# What frontiers list

A frontier *lists* some keys if it has each of them once, in the order of the alternatives, and no
other one (`Frontier.Lists`). At a decision that is not that of a non-greedy loop, the first frontier
lists where the alternatives come to rest without a token (`lists_startFrontier`), and a token leads
any frontier to one that lists where its configurations come to rest by it (`lists_nextFrontier`).
Guards do not matter for this, whatever predicates are on the way, and neither does where a
configuration stands relative to the invocation that predicts.

In a grammar that is built and closed, and not left recursive, there are such frontiers
(`Grammar.frontiers_list`), also after any word that does not end the input
(`exists_lists_frontierAfter`).
-/

namespace AdaptiveLL

variable {net : Network} {exit : LoopExit} {decision : State} {outer : List StateId}
  {fuel : Nat} {f g : Frontier} {w : List Int} {type : Int}

/-- A frontier lists some keys: it has each of them once, by ascending alternatives, and no other
    one. -/
structure Frontier.Lists (f : Frontier) (S : Set Config.Key) : Prop where
  holds_iff : ∀ k, f.Holds k ↔ k ∈ S
  nodup : (f.items.map Config.toKey).Nodup
  ascending : f.items.Pairwise fun c d => c.alt ≤ d.alt

/-- The frontier of a search lists the keys that it holds. -/
theorem Search.lists_frontier {S : Set Config.Key} (search : Search)
    (h : ∀ k, search.frontier.Holds k ↔ k ∈ S) : search.frontier.Lists S where
  holds_iff := h
  nodup := search.nodup_frontier
  ascending := Frontier.pairwise_sortByAlt _

/-- A decision starts with the points of rest that its alternatives come to without a token. -/
theorem lists_startFrontier (hx : exit.active = false)
    (h : startFrontier net exit fuel decision outer = .ok f) :
    f.Lists {k | Arrives net decision outer [] k} := by
  have hholds (k : Config.Key) := holds_startFrontier_iff hx h (k := k)
  obtain ⟨search, _, h⟩ := Except.exists_of_bind h
  cases h
  exact search.lists_frontier hholds

/-- A token leads a frontier to the points of rest that its configurations come to by it. -/
theorem lists_nextFrontier (hx : exit.active = false)
    (h : nextFrontier net exit fuel f type = .ok g) :
    g.Lists (siftedNext net type {k | f.Holds k}) := by
  have hholds (k : Config.Key) : g.Holds k ↔ k ∈ siftedNext net type {k | f.Holds k} := by
    rw [holds_nextFrontier_iff hx h]
    refine or_congr_left ⟨?_, ?_⟩
    · rintro ⟨c, hc, _, ⟨t, ht, ha, rfl⟩, halt, hreach, hrests⟩
      exact ⟨hrests, c.toKey, ⟨c, hc, rfl⟩, halt, t, ht, ha, hreach⟩
    · rintro ⟨hrests, _, ⟨c, hc, rfl⟩, halt, t, ht, ha, hreach⟩
      exact ⟨c, hc, _, ⟨t, ht, ha, rfl⟩, halt, hreach, hrests⟩
  obtain ⟨search, _, h⟩ := Except.exists_of_bind h
  cases h
  exact search.lists_frontier hholds

/-- A token that does not end the input leads from where the alternatives come to rest by a word to
    where they do by one token more. -/
theorem Frontier.Lists.next (hx : exit.active = false)
    (hf : f.Lists {k | Arrives net decision outer w k}) (htype : type ≠ Token.endOfInput)
    (h : nextFrontier net exit fuel f type = .ok g) :
    g.Lists {k | Arrives net decision outer (w ++ [type]) k} where
  holds_iff k := by
    rw [holds_nextFrontier_iff hx h, or_iff_left fun hend => htype hend.1, Set.mem_ofPred_eq,
      arrives_append_iff hf.holds_iff]
  nodup := (lists_nextFrontier hx h).nodup
  ascending := (lists_nextFrontier hx h).ascending

/-- In a closed network that is not left recursive, a word leads a decision to a frontier that lists
    where its alternatives come to rest by the word. -/
theorem exists_lists_frontierAfter (hnet : net.IsClosed) (hleft : ¬net.IsLeftRecursive)
    (hx : exit.active = false)
    (hdecision : ∀ t ∈ decision.transitions, net.IsIn ⟨t.target, outer⟩)
    (hw : Token.endOfInput ∉ w) : ∃ steps f,
      (∀ fuel ≥ steps, frontierAfter net exit fuel decision outer w = .ok f) ∧
      f.Lists {k | Arrives net decision outer w k} := by
  let P (v : List Int) (f : Frontier) : Prop :=
    Token.endOfInput ∉ v → f.Lists {k | Arrives net decision outer v k}
  have hnext (v : List Int) (type : Int) (fuel : Nat) (f g : Frontier) (hf : P v f)
      (h : nextFrontier net exit fuel f type = .ok g) : P (v ++ [type]) g := by
    intro hend
    rw [List.mem_append, not_or, List.mem_singleton] at hend
    exact (hf hend.1).next hx (Ne.symm hend.2) h
  obtain ⟨n, f, hf⟩ := exists_startFrontier hnet hleft hdecision
  obtain ⟨m, g, hg, hlists, _⟩ := exists_foldlM_nextFrontier hnet hleft hnext
    (fun _ => lists_startFrontier hx (hf n le_rfl)) (isIn_startFrontier hnet hdecision (hf n le_rfl)) w
  refine ⟨max n m, g, fun fuel hfuel => ?_, hlists hw⟩
  rw [frontierAfter, hf fuel ((le_max_left n m).trans hfuel)]
  exact hg fuel ((le_max_right n m).trans hfuel)

namespace Grammar

variable {σ : Type}

/-- At a decision that is not that of a non-greedy loop, in whatever context, there is a frontier that
    lists exactly the points of rest that the alternatives come to without a token. And whatever
    configurations there are, of whatever guards and places in the invocation, a token leads them to a
    frontier that lists exactly the points of rest behind their transitions that match it, and for the
    end of the input also the ends of rules without a caller among them. -/
theorem frontiers_list {g : Grammar σ} (hg : g.IsBuilt) (hnet : g.toNetwork.IsClosed)
    (hleft : ¬g.toNetwork.IsLeftRecursive) {id : StateId} {s : State} (hs : g.state id = .ok s)
    (hgreedy : g.toNetwork.IsGreedyAt id) :
    ∃ exit, LoopExit.ofState g.toNetwork s = .ok exit ∧
      (∀ outer : List StateId, (∀ follow ∈ outer, g.toNetwork.HasState follow) → ∃ steps f,
        (∀ fuel ≥ steps, startFrontier g.toNetwork exit fuel s outer = .ok f) ∧
        f.Lists {k | Arrives g.toNetwork s outer [] k}) ∧
      ∀ (f : Frontier) (type : Int), (∀ c ∈ f.items, g.toNetwork.IsIn c.point) → ∃ steps f',
        (∀ fuel ≥ steps, nextFrontier g.toNetwork exit fuel f type = .ok f') ∧
        f'.Lists (siftedNext g.toNetwork type {k | f.Holds k}) := by
  obtain ⟨exit, hexit⟩ := hg.isSound.exists_exit hs
  have hx := hgreedy s exit hs hexit
  refine ⟨exit, hexit, fun outer houter => ?_, fun f type hf => ?_⟩
  · obtain ⟨steps, f, hf⟩ := exists_startFrontier hnet hleft
      fun t ht => ⟨(hnet id s hs t ht).1, houter⟩
    exact ⟨steps, f, hf, lists_startFrontier hx (hf steps le_rfl)⟩
  · obtain ⟨steps, f', hf'⟩ := exists_nextFrontier hnet hleft type hf
    exact ⟨steps, f', hf', lists_nextFrontier hx (hf' steps le_rfl)⟩

/-- In a call from the loop, the decision starts at three points, of which one is behind a predicate
    and one is the end of the calling rule. -/
theorem revisited_frontiers_list : ∃ steps f f',
    (∀ fuel ≥ steps,
      startFrontier revisited.toNetwork ⟨false, 8, 0⟩ fuel revisitedDecision [3] = .ok f ∧
      nextFrontier revisited.toNetwork ⟨false, 8, 0⟩ fuel f 5 = .ok f') ∧
    f.Lists {k | Arrives revisited.toNetwork revisitedDecision [3] [] k} ∧
    f.items.map Config.toKey = [⟨11, 1, [3]⟩, ⟨1, 1, []⟩, ⟨16, 2, [3]⟩] ∧
    f'.Lists (siftedNext revisited.toNetwork 5 {k | f.Holds k}) := by
  obtain ⟨_, _, _, hstate, hexit, _, _, hsteps, _, _, _, hitems⟩ := revisited_eq
  obtain ⟨hbuilt, hclosed, hleft⟩ := revisited_isClosed
  have hgreedy : revisited.toNetwork.IsGreedyAt 18 := by
    intro s exit hs hx
    obtain rfl := Except.ok.inj (hstate.symm.trans hs)
    obtain rfl := Except.ok.inj (hexit.symm.trans hx)
    rfl
  have houter : ∀ follow ∈ [3], revisited.toNetwork.HasState follow := by
    intro follow hfollow
    obtain rfl := List.mem_singleton.1 hfollow
    obtain ⟨s, hs, _⟩ := hsteps (3, 5) (by decide)
    exact ⟨s, hs⟩
  obtain ⟨exit, hx, hstart, hnext⟩ := frontiers_list hbuilt hclosed hleft hstate hgreedy
  obtain rfl := Except.ok.inj (hexit.symm.trans hx)
  obtain ⟨n, f, hf, hlists⟩ := hstart [3] houter
  have hin : ∀ c ∈ f.items, revisited.toNetwork.IsIn c.point :=
    isIn_startFrontier hclosed (fun t ht => ⟨(hclosed 18 _ hstate t ht).1, houter⟩) (hf n le_rfl)
  obtain ⟨m, f', hf', hlists'⟩ := hnext f 5 hin
  obtain ⟨f₀, hf₀, hitems⟩ := Except.exists_of_map hitems
  -- More fuel than forty does not change the frontier.
  have hfuel := startFrontier_isFueled revisited.toNetwork ⟨false, 8, 0⟩ revisitedDecision [3]
  have heq := hfuel.eq (n := 40) (m := n) (by rw [hf₀]; exact nofun)
    (by rw [hf n le_rfl]; exact nofun)
  rw [hf₀, hf n le_rfl] at heq
  obtain rfl := Except.ok.inj heq
  refine ⟨max n m, f₀, f', fun fuel hle => ⟨hf fuel ((le_max_left n m).trans hle),
    hf' fuel ((le_max_right n m).trans hle)⟩, hlists, ?_, hlists'⟩
  have hkeys := congrArg (List.map Prod.fst) hitems
  rwa [List.map_map] at hkeys

end Grammar

end AdaptiveLL
