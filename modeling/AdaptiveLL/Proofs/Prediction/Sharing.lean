import AdaptiveLL.Proofs.Prediction.Growing
import AdaptiveLL.Proofs.Prediction.Simulation

/-!
# What an automaton remembers

An automaton is shared by the predictions of a decision, in several contexts. It
is sound (`Automaton.IsSound`) if every node, start and edge is what a prediction
would compute in its place, as far as the decision takes notice.

A new node is the same as an old one if their frontiers hold the same
configurations, so what is remembered stays sound only where such frontiers are
not told apart (`Separates`). Then a prediction with a sound automaton is one
without any, and leaves it sound (`Setting.run_eq`).
-/

namespace AdaptiveLL

variable {σ : Type}

/-- A frontier that need not settle the decision. -/
def LoopExit.LeavesOpen (exit : LoopExit) (f : Frontier) : Prop :=
  f.isEmpty = false ∧ (f.guarded = true ∨ Verdict.ofConfigs? exit false f.items = none)

variable (net : Network) (exit : LoopExit) (decision : State) (contexts : Set (List StateId))

/-- A frontier that predictions in some contexts come to before the end of the
    input. -/
inductive Arises : Frontier → Prop
  | start {fuel : Nat} {outer : List StateId} {f : Frontier} : outer ∈ contexts →
    startFrontier net exit fuel decision outer = .ok f → Arises f
  | next {fuel : Nat} {type : Int} {f g : Frontier} : Arises f → exit.LeavesOpen f →
    type ≠ Token.endOfInput → nextFrontier net exit fuel f type = .ok g → Arises g

/-- Frontiers that predictions in some contexts come to are not told apart by the
    decision if they hold the same configurations. -/
def Separates : Prop :=
  ∀ f g, Arises net exit decision contexts f → Arises net exit decision contexts g →
    f.same g = true → exit.view f = exit.view g

/-- A node has the frontier that a decision comes to, as far as it takes notice. -/
def Node.Matches (n : Node) (afterEnd : Bool) (f : Frontier) : Prop :=
  n.afterEnd = afterEnd ∧ exit.view n.frontier = exit.view f

/-- Nodes, starts and edges are what predictions in some contexts compute. -/
structure Automaton.IsSound (a : Automaton) : Prop where
  node : ∀ (i : Nat) (n : Node), a.nodes[i]? = some n →
    { n with edges := [] } = Node.ofFrontier exit n.afterEnd n.frontier ∧
      (n.afterEnd = false → Arises net exit decision contexts n.frontier)
  start : ∀ (outer : List StateId) (i : Nat), a.start? outer = some i →
    ∃ (n : Node) (fuel : Nat) (f : Frontier), a.nodes[i]? = some n ∧
      startFrontier net exit fuel decision outer = .ok f ∧ n.Matches exit false f
  edge : ∀ (i : Nat) (n : Node) (type : Int) (j : Nat), a.nodes[i]? = some n →
    n.edges.lookup type = some j → ∃ (m : Node) (fuel : Nat) (f : Frontier),
      a.nodes[j]? = some m ∧ nextFrontier net exit fuel n.frontier type = .ok f ∧
      m.Matches exit (type == Token.endOfInput) f

variable {net exit decision contexts}

/-! ## Where there is no loop to leave -/

theorem Search.guarded_frontier (search : Search) :
    search.frontier.guarded = search.frontier.items.any fun c => !c.guard.isTrivial := by
  rw [frontier, Bool.eq_iff_iff, List.any_eq_true]
  show List.any _ _ = true ↔ _
  rw [List.any_eq_true]
  exact exists_congr fun c => and_congr_left fun _ => (Frontier.sortByAlt_perm _).mem_iff.symm

/-- The mark of a frontier that depends on predicates is on its configurations. -/
theorem Arises.guarded {f : Frontier} (h : Arises net exit decision contexts f) :
    f.guarded = f.items.any fun c => !c.guard.isTrivial := by
  cases h with
  | start _ h =>
    obtain ⟨search, _, hf⟩ := Except.exists_of_bind h
    cases hf
    exact search.guarded_frontier
  | next _ _ _ h =>
    obtain ⟨search, _, hf⟩ := Except.exists_of_bind h
    cases hf
    exact search.guarded_frontier

/-- A decision that is not that of a non-greedy loop does not tell frontiers apart
    that hold the same configurations. -/
theorem separates_of_inactive (hx : exit.active = false) :
    Separates net exit decision contexts := by
  intro f g hf hg hfg
  have hitems := Frontier.same_iff_forget.1 hfg
  have hany (l : List Config) : (l.any fun c => !c.guard.isTrivial) =
      (l.map Config.forget).any fun c => !c.guard.isTrivial := by
    rw [List.any_map]
    rfl
  have hview (f : Frontier) : exit.view f = f.forget := by
    rw [LoopExit.view, hx]
    rfl
  rw [hview, hview, Frontier.forget_eq_iff, hf.guarded, hg.guarded, hany f.items, hitems,
    ← hany g.items]
  exact ⟨rfl, rfl⟩

/-! ## Growing -/

namespace Automaton

theorem isSound_empty (number : Int) (id : StateId) :
    IsSound net exit decision contexts { decision := number, state := id } where
  node := by simp
  start := by simp [start?]
  edge := by simp

theorem matches_of_same (hsep : Separates net exit decision contexts) {n m : Node}
    {f : Frontier} {afterEnd : Bool}
    (hn : n.afterEnd = false → Arises net exit decision contexts n.frontier)
    (hm : m.afterEnd = false → Arises net exit decision contexts m.frontier)
    (hnend : n.afterEnd = false) (hmend : m.afterEnd = false)
    (hsame : n.frontier.same m.frontier = true) (h : m.Matches exit afterEnd f) :
    n.Matches exit afterEnd f :=
  ⟨hnend.trans (hmend.symm.trans h.1), (hsep _ _ (hn hnend) (hm hmend) hsame).trans h.2⟩

/-- The law of automata that are sound. -/
def soundLaw (hsep : Separates net exit decision contexts) : Law where
  node n := { n with edges := [] } = Node.ofFrontier exit n.afterEnd n.frontier ∧
    (n.afterEnd = false → Arises net exit decision contexts n.frontier)
  start outer n := ∃ (fuel : Nat) (f : Frontier),
    startFrontier net exit fuel decision outer = .ok f ∧ n.Matches exit false f
  edge n type m := ∃ (fuel : Nat) (f : Frontier),
    nextFrontier net exit fuel n.frontier type = .ok f ∧
      m.Matches exit (type == Token.endOfInput) f
  node_edges _ h := h
  start_edges _ h := h
  edge_edges _ _ h := h
  start_same hn hm hnend hmend hsame := by
    rintro ⟨fuel, f, hf, h⟩
    exact ⟨fuel, f, hf, matches_of_same hsep hn.2 hm.2 hnend hmend hsame h⟩
  edge_same hn hm hnend hmend hsame := by
    rintro ⟨fuel, f, hf, h⟩
    exact ⟨fuel, f, hf, matches_of_same hsep hn.2 hm.2 hnend hmend hsame h⟩

theorem isSound_iff_obeys (hsep : Separates net exit decision contexts) {a : Automaton} :
    IsSound net exit decision contexts a ↔ a.Obeys (soundLaw hsep) := by
  constructor
  · intro h
    refine ⟨h.node, fun outer i hi => ?_, fun i n type j hn hj => ?_⟩
    · obtain ⟨n, fuel, f, hn, hf⟩ := h.start outer i hi
      exact ⟨n, hn, fuel, f, hf⟩
    · obtain ⟨m, fuel, f, hm, hf⟩ := h.edge i n type j hn hj
      exact ⟨m, hm, fuel, f, hf⟩
  · intro h
    refine ⟨h.node, fun outer i hi => ?_, fun i n type j hn hj => ?_⟩
    · obtain ⟨n, hn, fuel, f, hf⟩ := h.start outer i hi
      exact ⟨n, fuel, f, hn, hf⟩
    · obtain ⟨m, hm, fuel, f, hf⟩ := h.edge i n type j hn hj
      exact ⟨m, fuel, f, hm, hf⟩

end Automaton

/-! ## Predicting -/

/-- Only the last of some tokens may end the input. -/
def OnlyLastEnds : List Token → Prop
  | [] => True
  | t :: rest => (t.isEnd = true → rest = []) ∧ OnlyLastEnds rest

theorem onlyLastEnds_throughEnd (tokens : List Token) : OnlyLastEnds (Input.throughEnd tokens) := by
  induction tokens with
  | nil => trivial
  | cons t rest ih =>
    rw [Input.throughEnd]
    split
    · exact ⟨fun _ => rfl, trivial⟩
    · next h => exact ⟨fun he => absurd he h, ih⟩

namespace Setting

variable {setting : Setting σ} {fuel : Nat} {options : PredictOptions}

/-- A frontier that does not settle a decision leaves it open. -/
theorem leavesOpen_of_settle {f : Frontier} {hearing hearing' : Hearing σ}
    (h : setting.settle (.ofFrontier setting.exit false f) hearing = (.ok none, hearing')) :
    setting.exit.LeavesOpen f := by
  rw [settle] at h
  split at h
  · cases h
  · next hempty =>
    refine ⟨Bool.eq_false_iff.2 hempty, ?_⟩
    split at h
    · next hg => exact .inl hg
    · next hg =>
      have hv : (Node.ofFrontier setting.exit false f).verdict = none :=
        Option.map_eq_none_iff.1 (Except.ok.inj (congrArg Prod.fst h))
      rw [Node.ofFrontier] at hg hv
      dsimp only at hg hv
      rw [if_neg hg] at hv
      exact .inr hv

variable (trial : Trial σ) {i : Nat} {n : Node} {f : Frontier}

section

variable (hsep : Separates setting.grammar.toNetwork setting.exit setting.decision contexts)
  (ha : trial.automaton.IsSound setting.grammar.toNetwork setting.exit setting.decision contexts)

include ha

/-- A node of a sound automaton settles the decision like the frontier it matches. -/
theorem settle_eq
    (hn : trial.automaton.nodes[i]? = some n) {afterEnd : Bool}
    (hmatch : n.Matches setting.exit afterEnd f) :
    setting.settle n = setting.settle (.ofFrontier setting.exit afterEnd f) := by
  have hbare : setting.settle n = setting.settle { n with edges := [] } := rfl
  rw [hbare, (ha.node i n hn).1, hmatch.1]
  exact setting.settle_view afterEnd hmatch.2

include hsep

/-- A token leads to a node that matches the frontier it leads to, unless that cannot
    be computed. -/
theorem next_cases
    (hn : trial.automaton.nodes[i]? = some n) (hmatch : n.Matches setting.exit false f)
    (hopen : setting.exit.LeavesOpen n.frontier) (type : Int) :
    (∃ fault, nextFrontier setting.grammar.toNetwork setting.exit fuel f type = .error fault ∧
      setting.next fuel i type trial = (.error fault, trial)) ∨
    ∃ (k : Nat) (g : Frontier) (j : Nat) (a : Automaton) (m : Node),
      nextFrontier setting.grammar.toNetwork setting.exit k f type = .ok g ∧
      setting.next fuel i type trial = (.ok j, { trial with automaton := a }) ∧
      a.IsSound setting.grammar.toNetwork setting.exit setting.decision contexts ∧
      a.nodes[j]? = some m ∧ m.Matches setting.exit (type == Token.endOfInput) g := by
  obtain ⟨fault, hnext, hrun⟩ | ⟨j, a, m, hrun, hobeys, hm, k, f', hnext, hmm⟩ :=
    next_obeys fuel trial ((Automaton.isSound_iff_obeys hsep).1 ha) hn type
      fun f' hf' => ⟨⟨rfl, fun hend => .next ((ha.node i n hn).2 hmatch.1) hopen
        (beq_eq_false_iff_ne.1 hend) hf'⟩, fuel, f', hf', rfl, rfl⟩
  · exact .inl ⟨fault, nextFrontier_eq_error_of_view hmatch.2 hnext, hrun⟩
  · -- The edge was computed for the frontier of the node, of which the view is the same.
    obtain ⟨g, hg, hview⟩ := nextFrontier_eq_ok_of_view hmatch.2 hnext
    exact .inr ⟨k, g, j, a, m, hg, hrun, (Automaton.isSound_iff_obeys hsep).2 hobeys, hm, hmm.1,
      hmm.2.trans hview⟩

/-- The start of a prediction matches the frontier that the decision starts with,
    unless that cannot be computed. -/
theorem start_cases (ho : setting.outer ∈ contexts) :
    (∃ fault, startFrontier setting.grammar.toNetwork setting.exit fuel setting.decision
      setting.outer = .error fault ∧ setting.start fuel trial = (.error fault, trial)) ∨
    ∃ (k : Nat) (f : Frontier) (i : Nat) (a : Automaton) (n : Node),
      startFrontier setting.grammar.toNetwork setting.exit k setting.decision setting.outer =
        .ok f ∧
      setting.start fuel trial = (.ok i, { trial with automaton := a }) ∧
      a.IsSound setting.grammar.toNetwork setting.exit setting.decision contexts ∧
      a.nodes[i]? = some n ∧ n.Matches setting.exit false f := by
  obtain ⟨fault, hf, hrun⟩ | ⟨i, a, n, hrun, hobeys, hn, k, f, hf, hmatch⟩ :=
    start_obeys fuel trial ((Automaton.isSound_iff_obeys hsep).1 ha)
      fun f hf => ⟨⟨rfl, fun _ => .start ho hf⟩, fuel, f, hf, rfl, rfl⟩
  · exact .inl ⟨fault, hf, hrun⟩
  · exact .inr ⟨k, f, i, a, n, hf, hrun, (Automaton.isSound_iff_obeys hsep).2 hobeys, hn, hmatch⟩

omit ha in
/-- Following a sound automaton leaves it sound. -/
theorem follow_isSound (trial : Trial σ) {i : Nat} {n : Node}
    (ha : trial.automaton.IsSound setting.grammar.toNetwork setting.exit setting.decision contexts)
    (tokens : List Token) (hlast : OnlyLastEnds tokens) (hend : n.afterEnd = true → tokens = [])
    (stop lookahead : Nat) (hn : trial.automaton.nodes[i]? = some n) :
    (setting.follow fuel options tokens i stop lookahead trial).2.automaton.IsSound
      setting.grammar.toNetwork setting.exit setting.decision contexts := by
  rcases hs : setting.settle (trial.automaton.node i) trial.toHearing with
    ⟨fault | (_ | outcome), hearing⟩
  · rw [follow_of_error hs]
    exact ha
  · by_cases hstops : options.stops lookahead = true
    · rw [follow_of_stops hs hstops]
      exact ha
    match tokens with
    | [] =>
      rw [follow_nil hs hstops]
      exact ha
    | t :: rest =>
      rw [follow_cons hs hstops, bind_apply]
      -- There is a token ahead, so the node is not behind the end of the input.
      have hafter : n.afterEnd = false :=
        Bool.eq_false_iff.2 fun he => List.cons_ne_nil t rest (hend he)
      rw [Automaton.node_eq hn, settle_eq trial ha hn ⟨hafter, rfl⟩] at hs
      obtain ⟨fault, _, hnext⟩ | ⟨_, _, j, a, m, _, hnext, hsound, hm, hmm, _⟩ :=
        next_cases { trial with toHearing := hearing } hsep ha hn ⟨hafter, rfl⟩
          (leavesOpen_of_settle hs) t.type
      · rw [hnext]
        exact ha
      · rw [hnext]
        exact follow_isSound { toHearing := hearing, automaton := a } hsound rest hlast.2
          (fun he => hlast.1 (hmm.symm.trans he)) t.index (lookahead + 1) hm
  · rw [follow_of_some hs]
    exact ha

/-- A prediction leaves a sound automaton sound. -/
theorem run_isSound (ho : setting.outer ∈ contexts) :
    (setting.run fuel options trial).2.automaton.IsSound setting.grammar.toNetwork setting.exit
      setting.decision contexts := by
  rw [run, bind_apply]
  obtain ⟨fault, _, hstart⟩ | ⟨_, _, i, a, n, _, hstart, hsound, hn, hend, _⟩ :=
    start_cases trial hsep ha ho
  · rw [hstart]
    exact ha
  · rw [hstart]
    refine follow_isSound hsep { trial with automaton := a } hsound _ (onlyLastEnds_throughEnd _)
      (fun he => ?_) _ _ hn
    rw [hend] at he
    cases he

omit ha in
/-- Following a sound automaton comes to what the frontiers that its nodes match
    come to. -/
theorem follow_eq (trial : Trial σ) {i : Nat} {n : Node} {f : Frontier}
    (ha : trial.automaton.IsSound setting.grammar.toNetwork setting.exit setting.decision contexts)
    (tokens : List Token) (hlast : OnlyLastEnds tokens) {afterEnd : Bool}
    (hend : afterEnd = true → tokens = []) (stop lookahead : Nat)
    (hfuel : Suffices setting.grammar.toNetwork setting.exit fuel tokens f)
    (hn : trial.automaton.nodes[i]? = some n) (hmatch : n.Matches setting.exit afterEnd f) :
    (setting.follow fuel options tokens i stop lookahead trial).1 =
        (setting.simulateFrom fuel options tokens afterEnd f stop lookahead trial.toHearing).1 ∧
      (setting.follow fuel options tokens i stop lookahead trial).2.toHearing =
        (setting.simulateFrom fuel options tokens afterEnd f stop lookahead trial.toHearing).2 := by
  rcases hs : setting.settle (trial.automaton.node i) trial.toHearing with
    ⟨fault | (_ | outcome), hearing⟩
  all_goals
    have hs' := hs
    rw [Automaton.node_eq hn, settle_eq trial ha hn hmatch] at hs'
  · rw [follow_of_error hs, simulateFrom_of_error hs']
    exact ⟨rfl, rfl⟩
  · by_cases hstops : options.stops lookahead = true
    · rw [follow_of_stops hs hstops, simulateFrom_of_stops hs' hstops]
      exact ⟨rfl, rfl⟩
    rw [simulateFrom_of_open hs' (Bool.eq_false_iff.2 hstops)]
    match tokens with
    | [] =>
      rw [follow_nil hs hstops]
      exact ⟨rfl, rfl⟩
    | t :: rest =>
      rw [follow_cons hs hstops, bind_apply]
      dsimp only
      -- There is a token ahead, so this is not behind the end of the input.
      obtain rfl : afterEnd = false :=
        Bool.eq_false_iff.2 fun he => List.cons_ne_nil t rest (hend he)
      have hopen : setting.exit.LeavesOpen n.frontier := by
        rw [← setting.settle_view false hmatch.2] at hs'
        exact leavesOpen_of_settle hs'
      obtain ⟨fault, hg, hnext⟩ | ⟨k, g, j, a, m, hg, hnext, hsound, hm, hmm⟩ :=
        next_cases { trial with toHearing := hearing } hsep ha hn hmatch hopen t.type
      · rw [hg, hnext]
        exact ⟨rfl, rfl⟩
      · -- The edge may have been computed with other fuel, but to the same end.
        have hfueled := nextFrontier_isFueled setting.grammar.toNetwork setting.exit f t.type
        have hg' := hfueled.eq hfuel.1 (m := k) (by rw [hg]; rintro ⟨⟩)
        rw [hg] at hg'
        rw [hg', hnext]
        exact follow_eq { toHearing := hearing, automaton := a } hsound rest hlast.2
          (fun he => hlast.1 he) t.index (lookahead + 1) (hfuel.2 g hg') hm hmm
  · rw [follow_of_some hs, simulateFrom_of_settled hs']
    exact ⟨rfl, rfl⟩

/-- With enough fuel, a prediction with a sound automaton is one without any. -/
theorem run_eq (options : PredictOptions) (ho : setting.outer ∈ contexts)
    (hfuel : setting.HasFuel fuel) :
    (setting.run fuel options trial).1 = (setting.simulate fuel options trial.toHearing).1 ∧
      (setting.run fuel options trial).2.toHearing =
        (setting.simulate fuel options trial.toHearing).2 := by
  rw [run, simulate, bind_apply, bind_apply, Effect.ofExcept_apply]
  obtain ⟨fault, hf, hs⟩ | ⟨k, f, i, a, n, hf, hs, hsound, hn, hmatch⟩ :=
    start_cases trial hsep ha ho
  · rw [hf, hs]
    exact ⟨rfl, rfl⟩
  · have hfueled := startFrontier_isFueled setting.grammar.toNetwork setting.exit setting.decision
      setting.outer
    have hf' := hfueled.eq hfuel.1 (m := k) (by rw [hf]; rintro ⟨⟩)
    rw [hf] at hf'
    rw [hf', hs]
    exact follow_eq hsep { trial with automaton := a } hsound _ (onlyLastEnds_throughEnd _)
      (fun h => absurd h Bool.false_ne_true) _ _ (hfuel.2 f hf') hn hmatch

end

end Setting

end AdaptiveLL
