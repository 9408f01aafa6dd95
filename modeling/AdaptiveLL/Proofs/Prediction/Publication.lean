import AdaptiveLL.Proofs.Prediction.Likeness
import AdaptiveLL.Proofs.Prediction.Persistence

/-!
# Publishing nodes

The nodes of an automaton are published for *slots*: for the contexts in which predictions start
with them, and for the tokens that lead to them from other nodes (`Slot`). An automaton is a store
that inserts what is absent. The first publication for a slot decides which node it holds
(`Automaton.InsertsIfAbsent`); it publishes a new node only if none that came before the end of
the input has the same configurations, and a node that is published stays as it is.

What a publication does is said once, of the contents of the nodes and of the slots
(`publish_of_lookup`, `publish_cases`, `lookup_publish_self`, `lookup_publish_of_ne`).
The nodes and slots that there are after any number of publications (`Automaton.Stores`) follow
from this by induction.
-/

namespace AdaptiveLL

/-- What leads to a node. -/
inductive Slot
  /-- The context in which predictions start with the node. -/
  | start (outer : List StateId)
  /-- A token behind another node. -/
  | edge (source : Nat) (type : Int)

/-- A candidate that has been published for a slot, and the node that has come of it. -/
structure Publication where
  slot : Slot
  candidate : Node
  id : Nat

/-- Two nodes come before the end of the input and have the same configurations in the same
    order, whatever their depths. -/
structure Node.IsSameAs (n m : Node) : Prop where
  left : n.afterEnd = false
  right : m.afterEnd = false
  configs : n.frontier.items.map Config.forget = m.frontier.items.map Config.forget

theorem Node.isSameAs_iff {n m : Node} : n.IsSameAs m ↔
    n.afterEnd = false ∧ m.afterEnd = false ∧ n.frontier.same m.frontier = true := by
  rw [Frontier.same_iff_forget]
  exact ⟨fun h => ⟨h.left, h.right, h.configs⟩, fun h => ⟨h.1, h.2.1, h.2.2⟩⟩

theorem Node.IsSameAs.symm {n m : Node} (h : n.IsSameAs m) : m.IsSameAs n :=
  ⟨h.right, h.left, h.configs.symm⟩

theorem Node.IsSameAs.trans {n m k : Node} (h : n.IsSameAs m) (h' : m.IsSameAs k) :
    n.IsSameAs k :=
  ⟨h.left, h'.right, h.configs.trans h'.configs⟩

namespace Automaton

variable {a b c : Automaton} {slot slot' : Slot} {candidate n m : Node} {i j : Nat}
  {history before after : List Publication}

/-- The node that a slot holds. -/
def lookup (a : Automaton) : Slot → Option Nat
  | .start outer => a.start? outer
  | .edge source type => a.edge? source type

/-- Publishes a candidate for a slot: the node that the slot holds then. -/
def publish (a : Automaton) (slot : Slot) (candidate : Node) : Nat × Automaton :=
  match slot with
  | .start outer => a.addStart outer candidate
  | .edge source type => a.addEdge source type candidate

/-- A slot behind a node is one only if the node has been published. -/
def HasSlot (a : Automaton) : Slot → Prop
  | .start _ => True
  | .edge source _ => source < a.size

/-- What the nodes hold, but for their edges. -/
def contents (a : Automaton) : Array Node :=
  a.nodes.map fun n => { n with edges := [] }

/-- Candidates are published one after the other, each for any slot that there is, with any
    configurations and any verdict. -/
inductive Publishes (a : Automaton) : List Publication → Automaton → Prop
  | nil : Publishes a [] a
  | snoc {history : List Publication} {b : Automaton} {slot : Slot} {candidate : Node} :
    Publishes a history b → b.HasSlot slot → candidate.edges = [] →
    Publishes a (history ++ [⟨slot, candidate, (b.publish slot candidate).1⟩])
      (b.publish slot candidate).2

/-! ## One publication -/

theorem size_contents (a : Automaton) : a.contents.size = a.size :=
  Array.size_map

/-- To publish for a slot that holds a node changes nothing. -/
theorem publish_of_lookup (h : a.lookup slot = some i) (candidate : Node) :
    a.publish slot candidate = (i, a) := by
  cases slot with
  | start outer => exact addStart_of_some h candidate
  | edge source type => exact addEdge_of_some h candidate

theorem growsInto_publish (a : Automaton) (slot : Slot) (candidate : Node) :
    a.GrowsInto (a.publish slot candidate).2 := by
  cases slot with
  | start outer => exact growsInto_addStart a outer candidate
  | edge source type => exact growsInto_addEdge a source type candidate

/-- A slot holds the node that has been published for it. -/
theorem lookup_publish_self (hslot : a.HasSlot slot) (candidate : Node) :
    (a.publish slot candidate).2.lookup slot = some (a.publish slot candidate).1 := by
  cases slot with
  | start outer => exact start?_addStart a outer candidate
  | edge source type => exact edge?_addEdge (Array.getElem?_eq_getElem hslot) type candidate

/-- An edge more changes nothing of what a node holds. -/
theorem contents_modify (nodes : Array Node) (source : Nat) (type : Int) (target : Nat) :
    (nodes.modify source fun n => n.addEdge type target).map (fun n => { n with edges := [] }) =
      nodes.map fun n => { n with edges := [] } := by
  refine Array.ext_getElem? fun k => ?_
  rw [Array.getElem?_map, Array.getElem?_map, Array.getElem?_modify]
  split
  · rw [Option.map_map]
    rfl
  · rfl

/-- To publish for a slot that holds none is to add the node. -/
theorem publish_of_none (h : a.lookup slot = none) (candidate : Node) :
    (a.publish slot candidate).1 = (a.addNode candidate).1 ∧
      (a.publish slot candidate).2.contents = (a.addNode candidate).2.contents := by
  cases slot with
  | start outer =>
    rw [publish, addStart_of_none h]
    exact ⟨rfl, rfl⟩
  | edge source type =>
    rw [publish, addEdge_of_none h]
    exact ⟨rfl, contents_modify _ _ _ _⟩

theorem getElem?_contents {n : Node} :
    a.contents[i]? = some n ↔ ∃ m, a.nodes[i]? = some m ∧ { m with edges := [] } = n := by
  rw [contents, Array.getElem?_map, Option.map_eq_some_iff]

/-- A first publication either gives a node that is the same as the candidate, or adds the
    candidate with the next number. -/
theorem publish_cases (h : a.lookup slot = none) (hedges : candidate.edges = []) :
    (∃ n, a.contents[(a.publish slot candidate).1]? = some n ∧ n.IsSameAs candidate ∧
        (a.publish slot candidate).2.contents = a.contents) ∨
      ((∀ n ∈ a.contents, ¬n.IsSameAs candidate) ∧ (a.publish slot candidate).1 = a.size ∧
        (a.publish slot candidate).2.contents = a.contents.push candidate) := by
  obtain ⟨hid, hcontents⟩ := publish_of_none h candidate
  rw [hid, hcontents]
  obtain ⟨i, n, hn, hnend, hend, hsame, hadd⟩ | ⟨hnone, hadd⟩ := a.addNode_cases candidate
  · rw [hadd]
    exact .inl ⟨_, getElem?_contents.2 ⟨n, hn, rfl⟩,
      Node.isSameAs_iff.2 ⟨hnend, hend, hsame⟩, rfl⟩
  · rw [hadd]
    refine .inr ⟨fun n hn hsame => ?_, rfl, ?_⟩
    · obtain ⟨i, hi⟩ := Array.mem_iff_getElem?.1 hn
      obtain ⟨m, hm, rfl⟩ := getElem?_contents.1 hi
      obtain ⟨hmend, hend, hsame⟩ := Node.isSameAs_iff.1 hsame
      rw [hnone hend i m hm hmend] at hsame
      cases hsame
    · have hbare : { candidate with edges := [] } = candidate := by rw [← hedges]
      rw [contents, Array.map_push, hbare]
      rfl

theorem edge?_addNode (hedges : candidate.edges = []) (source : Nat) (type : Int) :
    (a.addNode candidate).2.edge? source type = a.edge? source type := by
  obtain ⟨_, _, _, _, _, _, hadd⟩ | ⟨_, hadd⟩ := a.addNode_cases candidate
  · rw [hadd]
  · rw [hadd, edge?, edge?, node, node, Array.getElem?_push]
    split
    · next hi =>
      rw [hi, Array.getElem?_eq_none le_rfl, Option.getD_some, hedges]
      rfl
    · rfl

/-- A publication for one slot changes no other one. -/
theorem lookup_publish_of_ne (h : slot' ≠ slot) (hedges : candidate.edges = []) :
    (a.publish slot candidate).2.lookup slot' = a.lookup slot' := by
  cases hlookup : a.lookup slot with
  | some i => rw [publish_of_lookup hlookup]
  | none =>
    rcases slot with outer | ⟨source, type⟩
    · rw [publish, addStart_of_none hlookup]
      rcases slot' with outer' | ⟨source', type'⟩
      · have hne : ¬compare outer outer' = .eq := fun heq =>
          h (congrArg Slot.start (Std.LawfulEqOrd.eq_of_compare heq).symm)
        rw [lookup, start?, Std.TreeMap.getElem?_insert, if_neg hne, starts_addNode]
        rfl
      · exact edge?_addNode hedges source' type'
    · rw [publish, addEdge_of_none hlookup]
      rcases slot' with outer' | ⟨source', type'⟩
      · rw [lookup, start?, starts_addNode]
        rfl
      · refine Eq.trans ?_ (edge?_addNode hedges source' type')
        rw [lookup, edge?, edge?, node, node, Array.getElem?_modify]
        split
        · next hsource =>
          subst hsource
          have hne : type' ≠ type := fun htype => h (htype ▸ rfl)
          cases (a.addNode candidate).2.nodes[source]? with
          | none => rfl
          | some n => exact Ascending.lookup_insertKey_of_ne hne _ _
        · rfl

/-! ## Any number of publications -/

theorem Publishes.growsInto (h : a.Publishes history b) : a.GrowsInto b := by
  induction h with
  | nil => exact .refl a
  | snoc _ _ _ ih => exact ih.trans (growsInto_publish _ _ _)

/-- What an automaton holds after some publications: the nodes have come of publications, a slot
    holds the node that has been published for it, and no two nodes are the same. -/
structure Stores (a : Automaton) (history : List Publication) : Prop where
  id : ∀ i, i < a.size ↔ ∃ p ∈ history, p.id = i
  lookup : ∀ slot i, a.lookup slot = some i ↔ ∃ p ∈ history, p.slot = slot ∧ p.id = i
  distinct : ∀ (i j : Nat) (n m : Node), a.contents[i]? = some n → a.contents[j]? = some m →
    n.IsSameAs m → i = j

theorem stores_empty (number : Int) (state : StateId) :
    Stores { decision := number, state } [] where
  id i := by simp [size]
  lookup slot i := by
    rcases slot with outer | ⟨source, type⟩
    · simp [Automaton.lookup, start?]
    · rw [Automaton.lookup, edge?, node]
      simp [default]
  distinct i j n m hn := by simp [contents] at hn

namespace Stores

theorem lookup_eq_none (h : a.Stores history) :
    a.lookup slot = none ↔ ∀ p ∈ history, p.slot ≠ slot := by
  constructor
  · intro hnone p hp hslot
    have hsome := (h.lookup slot p.id).2 ⟨p, hp, hslot, rfl⟩
    rw [hnone] at hsome
    cases hsome
  · intro hnone
    cases hlookup : a.lookup slot with
    | none => rfl
    | some i =>
      obtain ⟨p, hp, hslot, _⟩ := (h.lookup slot i).1 hlookup
      exact absurd hslot (hnone p hp)

variable (h : a.Stores history) (hedges : candidate.edges = [])

include h hedges

theorem lt_size_publish : i < (a.publish slot candidate).2.size ↔
    i < a.size ∨ (a.publish slot candidate).1 = i := by
  cases hlookup : a.lookup slot with
  | some k =>
    have hk : k < a.size :=
      (h.id k).2 (((h.lookup slot k).1 hlookup).imp fun _ hp => ⟨hp.1, hp.2.2⟩)
    rw [publish_of_lookup hlookup]
    dsimp only
    omega
  | none =>
    rw [← size_contents, ← size_contents a]
    obtain ⟨n, hn, _, hcontents⟩ | ⟨_, hid, hcontents⟩ := publish_cases hlookup hedges
    · have hlt := (Array.getElem?_eq_some_iff.1 hn).1
      rw [hcontents]
      omega
    · rw [hcontents, Array.size_push, hid, size_contents]
      omega

theorem distinct_publish {i j : Nat} {n m : Node}
    (hn : (a.publish slot candidate).2.contents[i]? = some n)
    (hm : (a.publish slot candidate).2.contents[j]? = some m) (hsame : n.IsSameAs m) : i = j := by
  cases hlookup : a.lookup slot with
  | some k =>
    rw [publish_of_lookup hlookup] at hn hm
    exact h.distinct i j n m hn hm hsame
  | none =>
    obtain ⟨_, _, _, hcontents⟩ | ⟨hnew, hid, hcontents⟩ := publish_cases hlookup hedges
    · rw [hcontents] at hn hm
      exact h.distinct i j n m hn hm hsame
    · rw [hcontents, Array.getElem?_push] at hn hm
      split at hn <;> split at hm
      · omega
      · obtain rfl := Option.some.inj hn
        exact absurd hsame.symm (hnew m (Array.mem_of_getElem? hm))
      · obtain rfl := Option.some.inj hm
        exact absurd hsame (hnew n (Array.mem_of_getElem? hn))
      · exact h.distinct i j n m hn hm hsame

/-- One more publication is stored as well. -/
theorem publish (hslot : a.HasSlot slot) :
    (a.publish slot candidate).2.Stores
      (history ++ [⟨slot, candidate, (a.publish slot candidate).1⟩]) where
  id i := by
    rw [lt_size_publish h hedges, h.id]
    simp
  lookup slot' i := by
    by_cases hne : slot' = slot
    · subst hne
      rw [lookup_publish_self hslot]
      constructor
      · intro hi
        exact ⟨_, List.mem_append_right _ (List.mem_singleton_self _), rfl, Option.some.inj hi⟩
      · rintro ⟨p, hp, hp', rfl⟩
        rcases List.mem_append.1 hp with hp | hp
        · rw [publish_of_lookup ((h.lookup slot' p.id).2 ⟨p, hp, hp', rfl⟩)]
        · rw [List.mem_singleton.1 hp]
    · rw [lookup_publish_of_ne hne hedges, h.lookup]
      simp [Ne.symm hne]
  distinct i j n m hn hm hsame := distinct_publish h hedges hn hm hsame

end Stores

theorem Publishes.stores (h : a.Publishes after b) (ha : a.Stores before) :
    b.Stores (before ++ after) := by
  induction h with
  | nil => rwa [List.append_nil]
  | snoc _ hslot hedges ih =>
    rw [← List.append_assoc]
    exact ih.publish hedges hslot

theorem GrowsInto.contents (h : a.GrowsInto b) (hn : a.contents[i]? = some n) :
    b.contents[i]? = some n := by
  obtain ⟨m, hm, rfl⟩ := getElem?_contents.1 hn
  obtain ⟨k, hk, hmk⟩ := h.node i m hm
  exact getElem?_contents.2 ⟨k, hk, congrArg (fun n : Node => { n with edges := [] }) hmk.eq⟩

/-! ## The store -/

/-- How a candidate is published for a slot after some publications, and what is left of this
    after some more. -/
structure InsertsIfAbsent (a : Automaton) (before : List Publication) (slot : Slot)
    (candidate : Node) (after : List Publication) (c : Automaton) : Prop where
  /-- Nodes are numbered without gaps, slots hold what has been published, and no two nodes are
      the same. -/
  stores : c.Stores (before ++ ⟨slot, candidate, (a.publish slot candidate).1⟩ :: after)
  /-- No node changes, and no slot. -/
  grows : a.GrowsInto c
  /-- If the slot holds a node, this is the node, and there is nothing new. -/
  again : ∀ p ∈ before, p.slot = slot → a.publish slot candidate = (p.id, a)
  /-- If it does not and some node is the same as the candidate, this is the node. -/
  merges : (∀ p ∈ before, p.slot ≠ slot) → ∀ (i : Nat) (n : Node), a.contents[i]? = some n →
    n.IsSameAs candidate →
      (a.publish slot candidate).1 = i ∧ (a.publish slot candidate).2.contents = a.contents
  /-- If there is no such node either, the candidate is the next one. -/
  adds : (∀ p ∈ before, p.slot ≠ slot) → (∀ n ∈ a.contents, ¬n.IsSameAs candidate) →
    (a.publish slot candidate).1 = a.size ∧
      (a.publish slot candidate).2.contents = a.contents.push candidate
  /-- The slot holds the node from then on, and all that is published for it later is the node. -/
  decides : c.lookup slot = some (a.publish slot candidate).1 ∧
    ∀ p ∈ after, p.slot = slot → p.id = (a.publish slot candidate).1
  /-- A node behind the end of the input is the node of no candidate that comes later. -/
  parts : (∀ p ∈ before, p.slot ≠ slot) → candidate.afterEnd = true →
    ∀ (slot' : Slot) (candidate' : Node), candidate'.edges = [] → c.lookup slot' = none →
      (c.publish slot' candidate').1 ≠ (a.publish slot candidate).1

/-- An automaton is a store that inserts what is absent, whatever is published and in whichever
    order. -/
theorem Publishes.insertsIfAbsent {number : Int} {state : StateId}
    (hbefore : Publishes { decision := number, state } before a) (hslot : a.HasSlot slot)
    (hedges : candidate.edges = []) (hafter : (a.publish slot candidate).2.Publishes after c) :
    a.InsertsIfAbsent before slot candidate after c := by
  have ha : a.Stores before := hbefore.stores (stores_empty number state)
  have hb := ha.publish hedges hslot
  have hc := hafter.stores hb
  rw [List.append_assoc, List.singleton_append] at hc
  have hadds (hfirst : ∀ p ∈ before, p.slot ≠ slot)
      (hnew : ∀ n ∈ a.contents, ¬n.IsSameAs candidate) :
      (a.publish slot candidate).1 = a.size ∧
        (a.publish slot candidate).2.contents = a.contents.push candidate := by
    obtain ⟨n, hn, hsame, _⟩ | ⟨_, hadd⟩ := publish_cases (ha.lookup_eq_none.2 hfirst) hedges
    · exact absurd hsame (hnew n (Array.mem_of_getElem? hn))
    · exact hadd
  have hdecides : c.lookup slot = some (a.publish slot candidate).1 :=
    (hc.lookup slot _).2 ⟨_, List.mem_append_right _ List.mem_cons_self, rfl, rfl⟩
  constructor
  case stores => exact hc
  case grows => exact (growsInto_publish a slot candidate).trans hafter.growsInto
  case again =>
    intro p hp hpslot
    exact publish_of_lookup ((ha.lookup slot p.id).2 ⟨p, hp, hpslot, rfl⟩) candidate
  case merges =>
    intro hfirst i n hn hsame
    obtain ⟨m, hm, hsame', hcontents⟩ | ⟨hnew, _⟩ :=
      publish_cases (ha.lookup_eq_none.2 hfirst) hedges
    · exact ⟨ha.distinct _ _ m n hm hn (hsame'.trans hsame.symm), hcontents⟩
    · exact absurd hsame (hnew n (Array.mem_of_getElem? hn))
  case adds => exact hadds
  case decides =>
    refine ⟨hdecides, fun p hp hpslot => ?_⟩
    have hlookup := (hc.lookup slot p.id).2
      ⟨p, List.mem_append_right _ (List.mem_cons_of_mem _ hp), hpslot, rfl⟩
    exact Option.some.inj (hlookup.symm.trans hdecides)
  case parts =>
    intro hfirst hend slot' candidate' hedges' hnone heq
    -- The candidate has become a node of its own, which is still there.
    obtain ⟨hid, hcontents⟩ := hadds hfirst fun n _ hsame => by
      rw [hsame.right] at hend
      cases hend
    have hold : c.contents[a.size]? = some candidate := by
      refine hafter.growsInto.contents ?_
      rw [hcontents, ← size_contents, Array.getElem?_push_size]
    rw [hid] at heq
    obtain ⟨n, hn, hsame, _⟩ | ⟨_, hid', _⟩ := publish_cases hnone hedges'
    · rw [heq, hold] at hn
      obtain rfl := Option.some.inj hn
      rw [hsame.left] at hend
      cases hend
    · have hlt := (Array.getElem?_eq_some_iff.1 hold).1
      rw [size_contents] at hlt
      omega

/-- A configuration of the first alternative. -/
def sample : Node :=
  { frontier := { items := [{ state := 1, alt := 1, context := [] }] } }

/-- The automaton with the sample as its start. -/
def started : Automaton :=
  (publish { decision := 0, state := 0 } (.start []) sample).2

theorem started_insertsIfAbsent :
    started.InsertsIfAbsent [⟨.start [], sample, 0⟩] (.edge 0 1) sample
      [⟨.edge 0 (-1), { sample with afterEnd := true }, 1⟩]
      ((started.publish (.edge 0 1) sample).2.publish (.edge 0 (-1))
        { sample with afterEnd := true }).2 := by
  have hstart : Publishes { decision := 0, state := 0 } [⟨.start [], sample, 0⟩] started :=
    .snoc .nil trivial rfl
  have hend : Publishes (started.publish (.edge 0 1) sample).2
      [⟨.edge 0 (-1), { sample with afterEnd := true }, 1⟩]
      ((started.publish (.edge 0 1) sample).2.publish (.edge 0 (-1))
        { sample with afterEnd := true }).2 :=
    .snoc .nil (show 0 < (started.publish (.edge 0 1) sample).2.size by decide) rfl
  exact hstart.insertsIfAbsent (show 0 < started.size by decide) rfl hend

end Automaton

end AdaptiveLL
