import AdaptiveLL.Proofs.Effect
import AdaptiveLL.Prediction.Trial

/-!
# How an automaton grows

An automaton obeys a *law* (`Automaton.Obeys`) that says what is to hold of each node, of
the node that predictions start with in each context, and of the two nodes of each edge.
A prediction adds to the automaton what has been computed, unless there is a node with the
same frontier. So the automaton still obeys the law if the law holds of what is computed
and does not tell such nodes apart (`Setting.start_obeys`, `Setting.next_obeys`). With it is
kept what is known of the predicates that have been evaluated (`Setting.run_keeps`).

What a prediction does at one node depends on how the node settles the decision
(`Setting.follow_cases`), and what is kept at every node is kept all the way
(`Setting.follow_keeps`).
-/

namespace AdaptiveLL

variable {σ : Type}

namespace Automaton

/-- What is to hold of the nodes, the starts and the edges of an automaton. It does not depend
    on the edges that leave a node, and does not tell two nodes apart that have the same
    frontier before the end of the input. -/
structure Law where
  node : Node → Prop
  start : List StateId → Node → Prop
  edge : Node → Int → Node → Prop
  node_edges : ∀ {n : Node} (edges : List (Int × Nat)), node n → node { n with edges }
  start_edges : ∀ {outer : List StateId} {n : Node} (edges : List (Int × Nat)),
    start outer n → start outer { n with edges }
  edge_edges : ∀ {n m : Node} {type : Int} (edges edges' : List (Int × Nat)), edge n type m →
    edge { n with edges } type { m with edges := edges' }
  start_same : ∀ {outer : List StateId} {n m : Node}, node n → node m → n.afterEnd = false →
    m.afterEnd = false → n.frontier.same m.frontier = true → start outer m → start outer n
  edge_same : ∀ {k n m : Node} {type : Int}, node n → node m → n.afterEnd = false →
    m.afterEnd = false → n.frontier.same m.frontier = true → edge k type m → edge k type n

/-- A law holds of the nodes, the starts and the edges of an automaton. -/
structure Obeys (a : Automaton) (law : Law) : Prop where
  node : ∀ (i : Nat) (n : Node), a.nodes[i]? = some n → law.node n
  start : ∀ (outer : List StateId) (i : Nat), a.start? outer = some i →
    ∃ n, a.nodes[i]? = some n ∧ law.start outer n
  edge : ∀ (i : Nat) (n : Node) (type : Int) (j : Nat), a.nodes[i]? = some n →
    n.edges.lookup type = some j → ∃ m, a.nodes[j]? = some m ∧ law.edge n type m

variable {law : Law} {a a' : Automaton} {candidate n : Node} {i j k : Nat} {type : Int}
  {outer : List StateId}

theorem obeys_empty (law : Law) (number : Int) (id : StateId) :
    Obeys { decision := number, state := id } law where
  node := by simp
  start := by simp [start?]
  edge := by simp

theorem node_eq (h : a.nodes[i]? = some n) : a.node i = n := by
  rw [node, h]
  rfl

theorem find?_eq_some (h : a.find? candidate = some i) : candidate.afterEnd = false ∧
    ∃ n, a.nodes[i]? = some n ∧ n.afterEnd = false ∧
      n.frontier.same candidate.frontier = true := by
  rw [find?] at h
  split at h
  · cases h
  · next hend =>
    obtain ⟨hi, hp, _⟩ := List.findIdx?_eq_some_iff_getElem.1 h
    rw [Array.length_toList] at hi
    rw [Array.getElem_toList, Bool.and_eq_true, Bool.not_eq_true'] at hp
    exact ⟨Bool.eq_false_iff.2 hend, _, Array.getElem?_eq_getElem hi, hp⟩

/-- A node that is added takes a place of which what holds of it does, and changes nothing that
    was there. -/
theorem Obeys.addNode (h : a.Obeys law) (hnode : law.node candidate)
    (hedges : candidate.edges = []) {P : Node → Prop} (hP : P candidate)
    (hsame : ∀ n, law.node n → n.afterEnd = false → candidate.afterEnd = false →
      n.frontier.same candidate.frontier = true → P n) (ha : a.addNode candidate = (i, a')) :
    a'.Obeys law ∧ (∃ n, a'.nodes[i]? = some n ∧ P n) ∧
      (∀ (j : Nat) (n : Node), a.nodes[j]? = some n → a'.nodes[j]? = some n) ∧
      a'.starts = a.starts := by
  rw [Automaton.addNode] at ha
  split at ha
  · next j hj =>
    cases ha
    -- An old node takes the place of the new one, which the law does not tell from it.
    obtain ⟨hend, n, hn, hnend, hfrontier⟩ := find?_eq_some hj
    exact ⟨h, ⟨n, hn, hsame n (h.node i n hn) hnend hend hfrontier⟩, fun _ _ hn => hn, rfl⟩
  · cases ha
    have old (j : Nat) (n : Node) (hn : a.nodes[j]? = some n) :
        (a.nodes.push candidate)[j]? = some n := by
      rw [Array.getElem?_push, if_neg (Nat.ne_of_lt (Array.getElem?_eq_some_iff.1 hn).1), hn]
    refine ⟨?_, ⟨_, Array.getElem?_push_size, hP⟩, old, rfl⟩
    constructor
    case node =>
      intro j n hn
      rw [Array.getElem?_push] at hn
      split at hn
      · cases hn
        exact hnode
      · exact h.node j n hn
    case start =>
      intro outer j hj
      obtain ⟨n, hn, hstart⟩ := h.start outer j hj
      exact ⟨n, old j n hn, hstart⟩
    case edge =>
      intro j n type k hn hk
      rw [Array.getElem?_push] at hn
      split at hn
      · cases hn
        rw [hedges] at hk
        cases hk
      · obtain ⟨m, hm, hedge⟩ := h.edge j n type k hn hk
        exact ⟨m, old k m hm, hedge⟩

/-- Adding the start of a context that has none. -/
theorem Obeys.addStart (h : a.Obeys law) (hnode : law.node candidate)
    (hedges : candidate.edges = []) (hstart : law.start outer candidate)
    (hnone : a.start? outer = none) (ha : a.addStart outer candidate = (i, a')) :
    a'.Obeys law ∧ ∃ n, a'.nodes[i]? = some n ∧ law.start outer n := by
  rw [Automaton.addStart, hnone] at ha
  rcases hadd : a.addNode candidate with ⟨j, b⟩
  rw [hadd] at ha
  cases ha
  obtain ⟨hb, ⟨n, hn, hn'⟩, _, _⟩ := h.addNode hnode hedges hstart
    (fun n hn hend hend' hsame => law.start_same hn hnode hend hend' hsame hstart) hadd
  -- Of the starts, only that of the context at hand is new.
  refine ⟨⟨hb.node, fun outer' j hj => ?_, hb.edge⟩, n, hn, hn'⟩
  rw [start?] at hj
  dsimp only at hj
  rw [Std.TreeMap.getElem?_insert] at hj
  split at hj
  · next heq =>
    cases hj
    obtain rfl := Std.LawfulEqOrd.eq_of_compare heq
    exact ⟨n, hn, hn'⟩
  · exact hb.start outer' j hj

/-- With a new edge, every node comes from the node of the same number. -/
theorem of_modify (hk : (a.nodes.modify i fun n => n.addEdge type j)[k]? = some n) :
    ∃ n₀, a.nodes[k]? = some n₀ ∧ (n = n₀ ∨ (k = i ∧ n = n₀.addEdge type j)) := by
  rw [Array.getElem?_modify] at hk
  split at hk
  · next hik =>
    obtain ⟨n₀, hn₀, rfl⟩ := Option.map_eq_some_iff.1 hk
    exact ⟨n₀, hn₀, .inr ⟨hik.symm, rfl⟩⟩
  · exact ⟨n, hk, .inl rfl⟩

/-- With a new edge, every node is there, up to its edges. -/
theorem exists_of_modify (i j : Nat) (type : Int) (hk : a.nodes[k]? = some n) :
    ∃ edges, (a.nodes.modify i fun n => n.addEdge type j)[k]? = some { n with edges } := by
  rw [Array.getElem?_modify, hk]
  split
  · exact ⟨_, rfl⟩
  · exact ⟨_, rfl⟩

/-- A new edge between two nodes of which the law holds. -/
theorem Obeys.modify (h : a.Obeys law) {m : Node} (hn : a.nodes[i]? = some n)
    (hm : a.nodes[j]? = some m) (hedge : law.edge n type m) :
    Obeys { a with nodes := a.nodes.modify i fun n => n.addEdge type j } law := by
  refine ⟨?_, ?_, ?_⟩
  · intro k n' hk
    obtain ⟨n₀, hn₀, rfl | ⟨_, rfl⟩⟩ := of_modify hk
    · exact h.node k n' hn₀
    · exact law.node_edges _ (h.node k n₀ hn₀)
  · intro outer k hk
    obtain ⟨n₀, hn₀, hstart⟩ := h.start outer k hk
    obtain ⟨edges, hn'⟩ := exists_of_modify i j type hn₀
    exact ⟨_, hn', law.start_edges edges hstart⟩
  · intro k n' type' l hk hl
    -- An edge that was there leads to a node that is still there.
    have hold {n₀ : Node} (hn₀ : a.nodes[k]? = some n₀) (hlook : n₀.edges.lookup type' = some l)
        (edges : List (Int × Nat)) : ∃ m,
          (a.nodes.modify i fun n => n.addEdge type j)[l]? = some m ∧
          law.edge { n₀ with edges } type' m := by
      obtain ⟨m', hm', hedge'⟩ := h.edge k n₀ type' l hn₀ hlook
      obtain ⟨edges', hm''⟩ := exists_of_modify i j type hm'
      exact ⟨_, hm'', law.edge_edges edges edges' hedge'⟩
    obtain ⟨n₀, hn₀, rfl | ⟨rfl, rfl⟩⟩ := of_modify hk
    · exact hold hn₀ hl n'.edges
    · rw [Node.addEdge] at hl
      by_cases htype : type' = type
      · subst htype
        rw [Ascending.lookup_insertKey_self] at hl
        cases hl
        cases hn.symm.trans hn₀
        obtain ⟨edges', hm'⟩ := exists_of_modify k j type' hm
        exact ⟨_, hm', law.edge_edges _ edges' hedge⟩
      · rw [Ascending.lookup_insertKey_of_ne htype] at hl
        exact hold hn₀ hl _

/-- Adding an edge that there is not. -/
theorem Obeys.addEdge (h : a.Obeys law) (hnode : law.node candidate)
    (hedges : candidate.edges = []) (hn : a.nodes[i]? = some n)
    (hedge : law.edge n type candidate) (hnone : a.edge? i type = none)
    (ha : a.addEdge i type candidate = (j, a')) :
    a'.Obeys law ∧ ∃ m, a'.nodes[j]? = some m ∧ law.edge n type m := by
  rw [Automaton.addEdge, hnone] at ha
  rcases hadd : a.addNode candidate with ⟨k, b⟩
  rw [hadd] at ha
  cases ha
  obtain ⟨hb, ⟨m, hm, hm'⟩, hold, _⟩ := h.addNode hnode hedges hedge
    (fun n hn hend hend' hsame => law.edge_same hn hnode hend hend' hsame hedge) hadd
  obtain ⟨edges, hmod⟩ := exists_of_modify i j type hm
  exact ⟨hb.modify (hold i n hn) hm hm', _, hmod, law.edge_edges n.edges edges hm'⟩

end Automaton

/-! ## In a prediction -/

namespace Setting

variable {setting : Setting σ} (fuel : Nat) {law : Automaton.Law} (trial : Trial σ) {i : Nat}
  {n : Node} (h : trial.automaton.Obeys law)

include h

/-- A prediction starts with a node of which the law holds, unless its frontier cannot be
    computed. -/
theorem start_obeys (hnew : ∀ f, startFrontier setting.grammar.toNetwork setting.exit fuel
      setting.decision setting.outer = .ok f →
    law.node (.ofFrontier setting.exit false f) ∧
      law.start setting.outer (.ofFrontier setting.exit false f)) :
    (∃ fault, startFrontier setting.grammar.toNetwork setting.exit fuel setting.decision
      setting.outer = .error fault ∧ setting.start fuel trial = (.error fault, trial)) ∨
    ∃ (i : Nat) (a : Automaton) (n : Node),
      setting.start fuel trial = (.ok i, { trial with automaton := a }) ∧ a.Obeys law ∧
      a.nodes[i]? = some n ∧ law.start setting.outer n := by
  rw [start, bind_apply, get_apply]
  dsimp only
  cases hs : trial.automaton.start? setting.outer with
  | some i =>
    obtain ⟨n, hn, hstart⟩ := h.start _ _ hs
    exact .inr ⟨i, _, n, rfl, h, hn, hstart⟩
  | none =>
    dsimp only
    rw [bind_apply, Effect.ofExcept_apply]
    cases hf : startFrontier setting.grammar.toNetwork setting.exit fuel setting.decision
      setting.outer with
    | error fault => exact .inl ⟨fault, rfl, rfl⟩
    | ok f =>
      dsimp only
      rcases hadd : trial.automaton.addStart setting.outer (.ofFrontier setting.exit false f) with
        ⟨i, a⟩
      obtain ⟨hnode, hstart⟩ := hnew f hf
      obtain ⟨ha, n, hn, hn'⟩ := h.addStart hnode rfl hstart hs hadd
      exact .inr ⟨i, a, n, rfl, ha, hn, hn'⟩

/-- A token leads to a node of which the law holds, unless its frontier cannot be computed. -/
theorem next_obeys (hn : trial.automaton.nodes[i]? = some n) (type : Int)
    (hnew : ∀ f, nextFrontier setting.grammar.toNetwork setting.exit fuel n.frontier type = .ok f →
      law.node (.ofFrontier setting.exit (type == Token.endOfInput) f) ∧
        law.edge n type (.ofFrontier setting.exit (type == Token.endOfInput) f)) :
    (∃ fault, nextFrontier setting.grammar.toNetwork setting.exit fuel n.frontier type =
      .error fault ∧ setting.next fuel i type trial = (.error fault, trial)) ∨
    ∃ (j : Nat) (a : Automaton) (m : Node),
      setting.next fuel i type trial = (.ok j, { trial with automaton := a }) ∧ a.Obeys law ∧
      a.nodes[j]? = some m ∧ law.edge n type m := by
  rw [next, bind_apply, get_apply]
  dsimp only
  cases hedge : trial.automaton.edge? i type with
  | some j =>
    rw [Automaton.edge?, Automaton.node_eq hn] at hedge
    obtain ⟨m, hm, hm'⟩ := h.edge i n type j hn hedge
    exact .inr ⟨j, _, m, rfl, h, hm, hm'⟩
  | none =>
    dsimp only
    rw [bind_apply, Effect.ofExcept_apply, Automaton.node_eq hn]
    cases hf : nextFrontier setting.grammar.toNetwork setting.exit fuel n.frontier type with
    | error fault => exact .inl ⟨fault, rfl, rfl⟩
    | ok f =>
      dsimp only
      rcases hadd : trial.automaton.addEdge i type
        (.ofFrontier setting.exit (type == Token.endOfInput) f) with ⟨j, a⟩
      obtain ⟨hnode, hedge'⟩ := hnew f hf
      obtain ⟨ha, m, hm, hm'⟩ := h.addEdge hnode rfl hn hedge' hedge hadd
      exact .inr ⟨j, a, m, rfl, ha, hm, hm'⟩

omit h

/-! ## One node of the way -/

section

variable {fuel : Nat} {options : PredictOptions} {trial : Trial σ} {tokens rest : List Token}
  {t : Token} {stop lookahead : Nat} {hearing : Hearing σ}

theorem follow_of_error {fault : Fault}
    (h : setting.settle (trial.automaton.node i) trial.toHearing = (.error fault, hearing)) :
    setting.follow fuel options tokens i stop lookahead trial =
      (.error fault, { trial with toHearing := hearing }) := by
  cases tokens <;>
  · rw [follow, bind_apply, get_apply]
    dsimp only
    rw [bind_apply, Effect.zoom_apply, h]

theorem follow_of_some {outcome : Outcome}
    (h : setting.settle (trial.automaton.node i) trial.toHearing = (.ok (some outcome), hearing)) :
    setting.follow fuel options tokens i stop lookahead trial =
      (.ok (outcome, stop, lookahead), { trial with toHearing := hearing }) := by
  cases tokens <;>
  · rw [follow, bind_apply, get_apply]
    dsimp only
    rw [bind_apply, Effect.zoom_apply, h]
    rfl

theorem follow_of_stops
    (h : setting.settle (trial.automaton.node i) trial.toHearing = (.ok none, hearing))
    (hstops : options.stops lookahead = true) :
    setting.follow fuel options tokens i stop lookahead trial =
      (.ok (.aborted, stop, lookahead), { trial with toHearing := hearing }) := by
  cases tokens <;>
  · rw [follow, bind_apply, get_apply]
    dsimp only
    rw [bind_apply, Effect.zoom_apply, h]
    dsimp only
    rw [if_pos hstops]
    rfl

theorem follow_nil
    (h : setting.settle (trial.automaton.node i) trial.toHearing = (.ok none, hearing))
    (hstops : ¬options.stops lookahead = true) :
    setting.follow fuel options [] i stop lookahead trial =
      (.error .outOfFuel, { trial with toHearing := hearing }) := by
  rw [follow, bind_apply, get_apply]
  dsimp only
  rw [bind_apply, Effect.zoom_apply, h]
  dsimp only
  rw [if_neg hstops]
  rfl

theorem follow_cons
    (h : setting.settle (trial.automaton.node i) trial.toHearing = (.ok none, hearing))
    (hstops : ¬options.stops lookahead = true) :
    setting.follow fuel options (t :: rest) i stop lookahead trial =
      (do setting.follow fuel options rest (← setting.next fuel i t.type) t.index (lookahead + 1))
        { trial with toHearing := hearing } := by
  rw [follow, bind_apply, get_apply]
  dsimp only
  rw [bind_apply, Effect.zoom_apply, h]
  dsimp only
  rw [if_neg hstops]

/-- How a prediction comes to a result from a node on: the node settles the decision, or the
    prediction is given up there, or the next token leads to another node. -/
theorem follow_cases {r : Outcome × Nat × Nat} {trial' : Trial σ}
    (h : setting.follow fuel options tokens i stop lookahead trial = (.ok r, trial')) :
    ∃ settled hearing,
      setting.settle (trial.automaton.node i) trial.toHearing = (.ok settled, hearing) ∧
        ((∃ outcome, settled = some outcome ∧ r = (outcome, stop, lookahead) ∧
            trial' = { trial with toHearing := hearing }) ∨
          (settled = none ∧ options.stops lookahead = true ∧ r = (.aborted, stop, lookahead) ∧
            trial' = { trial with toHearing := hearing }) ∨
          (settled = none ∧ ¬options.stops lookahead = true ∧ ∃ t rest j trial₁,
            tokens = t :: rest ∧
            setting.next fuel i t.type { trial with toHearing := hearing } = (.ok j, trial₁) ∧
            setting.follow fuel options rest j t.index (lookahead + 1) trial₁ =
              (.ok r, trial'))) := by
  rcases hsettle : setting.settle (trial.automaton.node i) trial.toHearing with
    ⟨fault | (_ | outcome), hearing⟩
  · rw [follow_of_error hsettle] at h
    cases h
  · by_cases hstops : options.stops lookahead = true
    · rw [follow_of_stops hsettle hstops] at h
      cases h
      exact ⟨none, hearing, rfl, .inr (.inl ⟨rfl, hstops, rfl, rfl⟩)⟩
    · cases tokens with
      | nil =>
        rw [follow_nil hsettle hstops] at h
        cases h
      | cons t rest =>
        rw [follow_cons hsettle hstops] at h
        obtain ⟨j, trial₁, hnext, h⟩ := exists_of_bind_apply h
        exact ⟨none, hearing, rfl, .inr (.inr ⟨rfl, hstops, t, rest, j, trial₁, rfl, hnext, h⟩)⟩
  · rw [follow_of_some hsettle] at h
    cases h
    exact ⟨some outcome, hearing, rfl, .inl ⟨outcome, rfl, rfl, rfl⟩⟩

/-! ## All of the way -/

/-- A prediction keeps what is kept where nodes settle the decision and from node to node, and in
    the end has what follows from it, even if a fault ends it. -/
theorem follow_keeps {P : Nat → Trial σ → Prop} {Q : Trial σ → Prop}
    (hP : ∀ i trial, P i trial → Q trial)
    (hsettle : ∀ i trial, P i trial →
      Effect.IsSafe (fun _ hearing => P i { trial with toHearing := hearing })
        (fun _ hearing => Q { trial with toHearing := hearing })
        (setting.settle (trial.automaton.node i) trial.toHearing))
    (hnext : ∀ i type trial, P i trial →
      Effect.IsSafe P (fun _ => Q) (setting.next fuel i type trial))
    (tokens : List Token) {i : Nat} {trial : Trial σ} (stop lookahead : Nat) (h : P i trial) :
    Q (setting.follow fuel options tokens i stop lookahead trial).2 := by
  have hsafe := hsettle i trial h
  rcases hr : setting.settle (trial.automaton.node i) trial.toHearing with
    ⟨fault | (_ | outcome), hearing⟩ <;> rw [hr] at hsafe
  · rw [follow_of_error hr]
    exact hsafe
  · by_cases hstops : options.stops lookahead = true
    · rw [follow_of_stops hr hstops]
      exact hP i _ hsafe
    match tokens with
    | [] =>
      rw [follow_nil hr hstops]
      exact hP i _ hsafe
    | t :: rest =>
      rw [follow_cons hr hstops, bind_apply]
      have hsafe := hnext i t.type _ hsafe
      rcases hr : setting.next fuel i t.type { trial with toHearing := hearing } with
        ⟨fault | j, trial'⟩ <;> rw [hr] at hsafe
      · exact hsafe
      · exact follow_keeps hP hsettle hnext rest t.index (lookahead + 1) hsafe
  · rw [follow_of_some hr]
    exact hP i _ hsafe

/-- With an automaton that obeys a law, a prediction keeps what is known of the predicates that
    have been evaluated and kept where nodes settle the decision of which the law holds. In the
    end the automaton still obeys the law. -/
theorem run_keeps {P Q : Hearing σ → Prop} (hP : ∀ hearing, P hearing → Q hearing)
    (hsettle : ∀ n, law.node n → ∀ hearing, P hearing →
      Effect.IsSafe (fun _ => P) (fun _ => Q) (setting.settle n hearing))
    (hstart : ∀ f, startFrontier setting.grammar.toNetwork setting.exit fuel setting.decision
        setting.outer = .ok f →
      law.node (.ofFrontier setting.exit false f) ∧
        law.start setting.outer (.ofFrontier setting.exit false f))
    (hnext : ∀ n type f, law.node n →
      nextFrontier setting.grammar.toNetwork setting.exit fuel n.frontier type = .ok f →
        law.node (.ofFrontier setting.exit (type == Token.endOfInput) f) ∧
          law.edge n type (.ofFrontier setting.exit (type == Token.endOfInput) f))
    (ha : trial.automaton.Obeys law) (h : P trial.toHearing) :
    (setting.run fuel options trial).2.automaton.Obeys law ∧
      Q (setting.run fuel options trial).2.toHearing := by
  rw [run, bind_apply]
  obtain ⟨fault, _, hrun⟩ | ⟨i, a, n, hrun, ha', hn, _⟩ := start_obeys fuel trial ha hstart
  · rw [hrun]
    exact ⟨ha, hP _ h⟩
  rw [hrun]
  -- From node to node, the node that the prediction has come to has to be there as well.
  refine follow_keeps (P := fun i trial => trial.automaton.Obeys law ∧
      (∃ n, trial.automaton.nodes[i]? = some n) ∧ P trial.toHearing)
    (Q := fun trial => trial.automaton.Obeys law ∧ Q trial.toHearing) ?_ ?_ ?_
    setting.input.ahead _ 0 ⟨ha', ⟨n, hn⟩, h⟩
  · rintro _ trial ⟨ha, _, h⟩
    exact ⟨ha, hP _ h⟩
  · rintro i trial ⟨ha, ⟨n, hn⟩, h⟩
    rw [Automaton.node_eq hn]
    exact (hsettle n (ha.node i n hn) _ h).imp (fun _ _ h => ⟨ha, ⟨n, hn⟩, h⟩) fun _ _ h => ⟨ha, h⟩
  · rintro i type trial ⟨ha, ⟨n, hn⟩, h⟩
    obtain ⟨fault, _, hrun⟩ | ⟨j, a, m, hrun, ha', hm, _⟩ :=
      next_obeys fuel trial ha hn type fun f hf => hnext n type f (ha.node i n hn) hf
    · rw [hrun]
      exact ⟨ha, hP _ h⟩
    · rw [hrun]
      exact ⟨ha', ⟨m, hm⟩, h⟩

end

end Setting

end AdaptiveLL
