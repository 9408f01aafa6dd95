import AdaptiveLL.Proofs.Prediction.Growing
import AdaptiveLL.Proofs.Prediction.Transparency

/-!
# What automata keep

An automaton *grows into* another one (`Automaton.GrowsInto`) if nothing is lost on the way:
every node keeps its number, its frontier and its verdict, and every edge and every start still
leads to the node it led to. Whatever is added makes an automaton grow (`growsInto_addStart`,
`growsInto_addEdge`), and so does every prediction, even if a fault ends it
(`Setting.run_growsInto`). In a cache, all automata grow (`Cache.growsInto_predictAt`).
-/

namespace AdaptiveLL

variable {σ : Type}

/-- A node becomes another one: it may get more edges. -/
structure Node.GrowsInto (n m : Node) : Prop where
  eq : { m with edges := n.edges } = n
  edge : ∀ (type : Int) (j : Nat), n.edges.lookup type = some j → m.edges.lookup type = some j

/-- An automaton becomes another one, which has all that it has. -/
structure Automaton.GrowsInto (a b : Automaton) : Prop where
  node : ∀ (i : Nat) (n : Node), a.nodes[i]? = some n → ∃ m, b.nodes[i]? = some m ∧ n.GrowsInto m
  start : ∀ (outer : List StateId) (i : Nat), a.start? outer = some i → b.start? outer = some i

/-- A cache becomes another one for the same decisions, whose automata have all that its
    automata have. -/
structure Cache.GrowsInto (cache cache' : Cache) : Prop where
  size : cache'.automata.size = cache.automata.size
  automaton : ∀ (i : Nat) (a : Automaton), cache.automata[i]? = some a →
    ∃ b, cache'.automata[i]? = some b ∧ a.GrowsInto b

namespace Node.GrowsInto

variable {n m k : Node}

theorem refl (n : Node) : n.GrowsInto n :=
  ⟨rfl, fun _ _ h => h⟩

theorem trans (h : n.GrowsInto m) (h' : m.GrowsInto k) : n.GrowsInto k where
  eq := by
    rw [← h.eq, ← h'.eq]
  edge type j hj := h'.edge type j (h.edge type j hj)

/-- An edge that there was not. -/
theorem addEdge {type : Int} (h : n.edges.lookup type = none) (j : Nat) :
    n.GrowsInto (n.addEdge type j) where
  eq := rfl
  edge type' i hi := by
    have hne : type' ≠ type := by
      rintro rfl
      rw [h] at hi
      cases hi
    rw [Node.addEdge, Ascending.lookup_insertKey_of_ne hne, hi]

end Node.GrowsInto

namespace Automaton

variable {a b c : Automaton} {candidate n : Node} {i j : Nat} {type : Int} {outer : List StateId}

namespace GrowsInto

theorem refl (a : Automaton) : a.GrowsInto a :=
  ⟨fun _ n hn => ⟨n, hn, .refl n⟩, fun _ _ h => h⟩

theorem trans (h : a.GrowsInto b) (h' : b.GrowsInto c) : a.GrowsInto c where
  node i n hn := by
    obtain ⟨m, hm, hnm⟩ := h.node i n hn
    obtain ⟨k, hk, hmk⟩ := h'.node i m hm
    exact ⟨k, hk, hnm.trans hmk⟩
  start outer i hi := h'.start outer i (h.start outer i hi)

/-- Every edge still leads where it led. -/
theorem edge? (h : a.GrowsInto b) (hj : a.edge? i type = some j) : b.edge? i type = some j := by
  rw [Automaton.edge?, Automaton.node] at hj
  cases hn : a.nodes[i]? with
  | none =>
    rw [hn] at hj
    cases hj
  | some n =>
    rw [hn] at hj
    obtain ⟨m, hm, hnm⟩ := h.node i n hn
    rw [Automaton.edge?, node_eq hm, hnm.edge type j hj]

end GrowsInto

/-! ## What is added -/

theorem find?_eq_none (h : a.find? candidate = none) (hend : candidate.afterEnd = false)
    (hn : a.nodes[i]? = some n) (hnend : n.afterEnd = false) :
    n.frontier.same candidate.frontier = false := by
  rw [find?, hend, if_neg Bool.false_ne_true, List.findIdx?_eq_none_iff] at h
  have hmem : n ∈ a.nodes.toList := Array.mem_toList_iff.2 (Array.mem_of_getElem? hn)
  simpa [hnend] using h n hmem

/-- A node that is added either is the same as an old one, or is new and has the next number. -/
theorem addNode_cases (a : Automaton) (candidate : Node) :
    (∃ (i : Nat) (n : Node), a.nodes[i]? = some n ∧ n.afterEnd = false ∧
      candidate.afterEnd = false ∧ n.frontier.same candidate.frontier = true ∧
      a.addNode candidate = (i, a)) ∨
    ((candidate.afterEnd = false → ∀ (i : Nat) (n : Node), a.nodes[i]? = some n →
        n.afterEnd = false → n.frontier.same candidate.frontier = false) ∧
      a.addNode candidate = (a.size, { a with nodes := a.nodes.push candidate })) := by
  rw [addNode]
  cases hfind : a.find? candidate with
  | some i =>
    obtain ⟨hend, n, hn, hnend, hsame⟩ := find?_eq_some hfind
    exact .inl ⟨i, n, hn, hnend, hend, hsame, rfl⟩
  | none =>
    exact .inr ⟨fun hend _ _ hn hnend => find?_eq_none hfind hend hn hnend, rfl⟩

theorem starts_addNode (a : Automaton) (candidate : Node) :
    (a.addNode candidate).2.starts = a.starts := by
  rw [addNode]
  split <;> rfl

/-- A node that is added changes no other one. -/
theorem getElem?_addNode (hn : a.nodes[i]? = some n) (candidate : Node) :
    (a.addNode candidate).2.nodes[i]? = some n := by
  obtain ⟨_, _, _, _, _, _, hadd⟩ | ⟨_, hadd⟩ := a.addNode_cases candidate
  · rw [hadd, hn]
  · rw [hadd, Array.getElem?_push, if_neg (Nat.ne_of_lt (Array.getElem?_eq_some_iff.1 hn).1), hn]

theorem addStart_of_some (h : a.start? outer = some i) (candidate : Node) :
    a.addStart outer candidate = (i, a) := by
  rw [addStart, h]

theorem addStart_of_none (h : a.start? outer = none) (candidate : Node) :
    a.addStart outer candidate = ((a.addNode candidate).1,
      { (a.addNode candidate).2 with
        starts := (a.addNode candidate).2.starts.insert outer (a.addNode candidate).1 }) := by
  rw [addStart, h]

theorem addEdge_of_some (h : a.edge? i type = some j) (candidate : Node) :
    a.addEdge i type candidate = (j, a) := by
  rw [addEdge, h]

theorem addEdge_of_none (h : a.edge? i type = none) (candidate : Node) :
    a.addEdge i type candidate = ((a.addNode candidate).1,
      { (a.addNode candidate).2 with
        nodes := (a.addNode candidate).2.nodes.modify i fun n =>
          n.addEdge type (a.addNode candidate).1 }) := by
  rw [addEdge, h]

/-- A new start takes no other start away. -/
theorem growsInto_addStart (a : Automaton) (outer : List StateId) (candidate : Node) :
    a.GrowsInto (a.addStart outer candidate).2 := by
  cases hstart : a.start? outer with
  | some i =>
    rw [addStart_of_some hstart]
    exact .refl a
  | none =>
    rw [addStart_of_none hstart]
    refine ⟨fun i n hn => ⟨n, getElem?_addNode hn candidate, .refl n⟩, fun outer' i hi => ?_⟩
    have hne : ¬compare outer outer' = .eq := by
      intro heq
      rw [← Std.LawfulEqOrd.eq_of_compare heq, hstart] at hi
      cases hi
    rw [start?, Std.TreeMap.getElem?_insert, starts_addNode, if_neg hne, ← start?, hi]

/-- A new edge takes no other edge away. -/
theorem growsInto_addEdge (a : Automaton) (i : Nat) (type : Int) (candidate : Node) :
    a.GrowsInto (a.addEdge i type candidate).2 := by
  cases hedge : a.edge? i type with
  | some j =>
    rw [addEdge_of_some hedge]
    exact .refl a
  | none =>
    rw [addEdge_of_none hedge]
    refine ⟨fun k n hn => ?_, fun outer j hj => ?_⟩
    · rw [Array.getElem?_modify, getElem?_addNode hn]
      split
      · next hik =>
        subst hik
        rw [edge?, node_eq hn] at hedge
        exact ⟨_, rfl, .addEdge hedge _⟩
      · exact ⟨n, rfl, .refl n⟩
    · rw [start?, starts_addNode, ← start?, hj]

/-- A new edge leads to the node that it was given. -/
theorem edge?_addEdge (hn : a.nodes[i]? = some n) (type : Int) (candidate : Node) :
    (a.addEdge i type candidate).2.edge? i type = some (a.addEdge i type candidate).1 := by
  cases hedge : a.edge? i type with
  | some j => rw [addEdge_of_some hedge, hedge]
  | none =>
    rw [addEdge_of_none hedge, edge?, node, Array.getElem?_modify, getElem?_addNode hn, if_pos rfl]
    exact Ascending.lookup_insertKey_self _ _ _

end Automaton

/-! ## In a prediction -/

namespace Setting

open Automaton

variable {setting : Setting σ} {fuel : Nat} {options : PredictOptions}

theorem start_growsInto (trial : Trial σ) :
    trial.automaton.GrowsInto (setting.start fuel trial).2.automaton := by
  rw [start, bind_apply, get_apply]
  dsimp only
  cases trial.automaton.start? setting.outer with
  | some i => exact .refl _
  | none =>
    dsimp only
    rw [bind_apply, Effect.ofExcept_apply]
    cases startFrontier setting.grammar.toNetwork setting.exit fuel setting.decision
      setting.outer with
    | error fault => exact .refl _
    | ok f => exact growsInto_addStart _ _ _

theorem next_growsInto (i : Nat) (type : Int) (trial : Trial σ) :
    trial.automaton.GrowsInto (setting.next fuel i type trial).2.automaton := by
  rw [next, bind_apply, get_apply]
  dsimp only
  cases trial.automaton.edge? i type with
  | some j => exact .refl _
  | none =>
    dsimp only
    rw [bind_apply, Effect.ofExcept_apply]
    cases nextFrontier setting.grammar.toNetwork setting.exit fuel
      (trial.automaton.node i).frontier type with
    | error fault => exact .refl _
    | ok f => exact growsInto_addEdge _ _ _ _

theorem follow_growsInto (tokens : List Token) (i stop lookahead : Nat) (trial : Trial σ) :
    trial.automaton.GrowsInto
      (setting.follow fuel options tokens i stop lookahead trial).2.automaton := by
  refine follow_keeps (P := fun _ trial' => trial.automaton.GrowsInto trial'.automaton)
    (Q := fun trial' => trial.automaton.GrowsInto trial'.automaton) (fun _ _ h => h)
    (fun i trial' h => ?_) (fun i type trial' h => ?_) tokens stop lookahead (.refl _)
  · exact Effect.IsSafe.of_state (P := fun _ => trial.automaton.GrowsInto trial'.automaton) h
  · exact Effect.IsSafe.of_state (h.trans (next_growsInto i type trial'))

theorem growsInto_of_follow {tokens : List Token} {i stop lookahead : Nat} {trial trial' : Trial σ}
    {r : Except Fault (Outcome × Nat × Nat)}
    (h : setting.follow fuel options tokens i stop lookahead trial = (r, trial')) :
    trial.automaton.GrowsInto trial'.automaton := by
  have hgrows : trial.automaton.GrowsInto
      (setting.follow fuel options tokens i stop lookahead trial).2.automaton :=
    follow_growsInto tokens i stop lookahead trial
  rwa [h] at hgrows

/-- A prediction makes its automaton grow, even if a fault ends it. -/
theorem run_growsInto (trial : Trial σ) :
    trial.automaton.GrowsInto (setting.run fuel options trial).2.automaton :=
  of_bind (P := fun trial' : Trial σ => trial.automaton.GrowsInto trial'.automaton)
    (start_growsInto trial) fun i trial' _ hstart =>
      hstart.trans (follow_growsInto setting.input.ahead i _ _ trial')

end Setting

/-! ## In a cache -/

namespace Cache

variable {g : Grammar σ} {cache cache' cache'' : Cache}

theorem GrowsInto.refl (cache : Cache) : cache.GrowsInto cache :=
  ⟨rfl, fun _ a ha => ⟨a, ha, .refl a⟩⟩

theorem GrowsInto.trans (h : cache.GrowsInto cache') (h' : cache'.GrowsInto cache'') :
    cache.GrowsInto cache'' where
  size := h'.size.trans h.size
  automaton i a ha := by
    obtain ⟨b, hb, hab⟩ := h.automaton i a ha
    obtain ⟨c, hc, hbc⟩ := h'.automaton i b hb
    exact ⟨c, hc, hab.trans hbc⟩

theorem getElem?_update {number : Nat} {a : Automaton} (ha : cache.automata[number]? = some a)
    (b : Automaton) : (cache.update number b).automata[number]? = some b := by
  rw [update, Array.getElem?_setIfInBounds_self_of_lt (Array.getElem?_eq_some_iff.1 ha).1]

theorem getElem?_update_of_ne {number i : Nat} (h : number ≠ i) (b : Automaton) :
    (cache.update number b).automata[i]? = cache.automata[i]? := by
  rw [update, Array.getElem?_setIfInBounds_ne h]

/-- To put an automaton where it is changes nothing. -/
theorem update_eq_self {number : Nat} {a : Automaton} (ha : cache.automata[number]? = some a) :
    cache.update number a = cache := by
  refine congrArg mk (Array.ext_getElem? fun i => ?_)
  by_cases hi : number = i
  · subst hi
    exact (getElem?_update ha a).trans ha.symm
  · exact getElem?_update_of_ne hi a

/-- An automaton that has grown takes its place. -/
theorem growsInto_update {number : Nat} {a b : Automaton} (ha : cache.automata[number]? = some a)
    (h : a.GrowsInto b) : cache.GrowsInto (cache.update number b) where
  size := by rw [update, Array.size_setIfInBounds]
  automaton i a' ha' := by
    by_cases hi : number = i
    · subst hi
      cases ha.symm.trans ha'
      exact ⟨b, getElem?_update ha b, h⟩
    · exact ⟨a', (getElem?_update_of_ne hi b).trans ha', .refl a'⟩

/-- A prediction makes all automata of a cache grow, even if a fault ends it. -/
theorem growsInto_predictAt (g : Grammar σ) (fuel : Nat) (options : PredictOptions) (id : StateId)
    (input : Input) (stack : Stack) (cache : Cache) (host : σ) :
    cache.GrowsInto (g.predictAt fuel options id input stack (cache, host)).2.1 := by
  obtain ⟨fault, hfault⟩ | ⟨setting, a, hs, ha⟩ :=
    g.predictAt_cases fuel options id input stack cache host
  · rw [hfault]
    exact .refl cache
  · rw [Grammar.predictAt_of_ok hs ha]
    dsimp only
    split
    · next hcache =>
      rw [PredictOptions.automaton, if_pos hcache, automaton_eq] at ha
      exact growsInto_update ha (Setting.run_growsInto { automaton := a, host })
    · exact .refl cache

/-- The caches that predictions lead to from a cache, whichever they are. -/
inductive Leads (g : Grammar σ) (cache : Cache) : Cache → Prop
  | refl : Leads g cache cache
  | predict {cache' : Cache} (fuel : Nat) (options : PredictOptions) (id : StateId)
    (input : Input) (stack : Stack) (host : σ) : Leads g cache cache' →
    Leads g cache (g.predictAt fuel options id input stack (cache', host)).2.1

/-- Whatever is predicted, nothing is lost. -/
theorem Leads.growsInto (h : cache.Leads g cache') : cache.GrowsInto cache' := by
  induction h with
  | refl => exact .refl cache
  | predict fuel options id input stack host _ ih =>
    exact ih.trans (growsInto_predictAt g fuel options id input stack _ host)

end Cache

end AdaptiveLL
