import AdaptiveLL.Prediction.Config
import Std.Data.TreeMap

/-!
# Frontiers

A `Frontier` is a set of configurations, as a map from keys to guards: adding a
configuration whose key is there joins its guard to the one that is there
(`Frontier.add`). The configurations keep the order in which their keys were added
until `Frontier.sorted` brings them into the order of the alternatives.

A frontier of many configurations is made by `Frontier.ofList`, which looks the
guards up by the keys in a tree and comes to the same as adding one configuration
after the other (`Frontier.ofList_eq_foldl`).
-/

namespace AdaptiveLL

/-- Configurations with different keys. -/
structure Frontier where
  items : List Config := []
  /-- Whether a configuration was added under a guard that is not trivial; once
      the frontier is sorted, whether it has such a guard. -/
  guarded : Bool := false
deriving Repr

namespace Frontier

instance : Inhabited Frontier := ⟨{}⟩

/-- Whether the key of a configuration is in the frontier. -/
def hasKey (f : Frontier) (c : Config) : Bool :=
  f.items.any fun d => d.toKey == c.toKey

/-- A configuration with the guard of another one joined to its own, if they have
    one key. -/
def joinGuard (c d : Config) : Config :=
  if d.toKey == c.toKey then { d with guard := d.guard.or c.guard } else d

/-- Adds a configuration. -/
def add (f : Frontier) (c : Config) : Frontier :=
  if f.hasKey c then { f with items := f.items.map (joinGuard c) }
  else { items := f.items ++ [c], guarded := f.guarded || !c.guard.isTrivial }

/-- Puts a configuration before the first one of its alternative or a later one. -/
def insertByAlt (c : Config) : List Config → List Config
  | [] => [c]
  | d :: rest => if c.alt ≤ d.alt then c :: d :: rest else d :: insertByAlt c rest

/-- The configurations in the order of the alternatives, those of one alternative
    in the order they had. -/
def sortByAlt (configs : List Config) : List Config :=
  configs.foldr insertByAlt []

/-- The frontier in the order of the alternatives. -/
def sorted (f : Frontier) : Frontier :=
  { items := sortByAlt f.items, guarded := f.items.any fun c => !c.guard.isTrivial }

/-- The number of configurations. -/
def size (f : Frontier) : Nat :=
  f.items.length

/-- Whether there is no configuration. -/
def isEmpty (f : Frontier) : Bool :=
  f.items.isEmpty

/-- The alternatives of some configurations, ascending. -/
def altsOf (configs : List Config) : List Int :=
  Ascending.ofList (configs.map fun c => c.alt)

/-- Whether two lists hold the same configurations in the same order. -/
def sameItems : List Config → List Config → Bool
  | [], [] => true
  | c :: l, d :: m => c.same d && sameItems l m
  | _, _ => false

/-- Whether two frontiers hold the same configurations in the same order. -/
def same (f g : Frontier) : Bool :=
  sameItems f.items g.items

/-- The order of the alternatives does not change which configurations there are. -/
theorem sortByAlt_perm (configs : List Config) : (sortByAlt configs).Perm configs := by
  have insert_perm (c : Config) (l : List Config) : (insertByAlt c l).Perm (c :: l) := by
    induction l with
    | nil => exact .refl _
    | cons d rest ih =>
      rw [insertByAlt]
      split
      · exact .refl _
      · exact (ih.cons d).trans (.swap c d rest)
  induction configs with
  | nil => exact .refl _
  | cons c rest ih => exact (insert_perm c (sortByAlt rest)).trans (ih.cons c)

/-- A configuration is there once its key has been added. -/
theorem hasKey_add (f : Frontier) (c : Config) : (f.add c).hasKey c = true := by
  by_cases h : f.hasKey c = true
  · obtain ⟨d, hd, hk⟩ := List.any_eq_true.1 h
    rw [add, if_pos h]
    exact List.any_eq_true.2 ⟨joinGuard c d, List.mem_map_of_mem hd, by simp [joinGuard, hk]⟩
  · rw [add, if_neg h]
    simp [hasKey]

end Frontier

/-- A frontier under construction. -/
structure Draft where
  /-- The first configuration of each key, the last key first. -/
  firsts : List Config := []
  /-- The guards joined so far, by the keys. -/
  guards : Std.TreeMap (List Int) Guard := {}

namespace Draft

/-- Adds a configuration. -/
def add (d : Draft) (c : Config) : Draft :=
  match d.guards[c.toKey.toList]? with
  | some g => { d with guards := d.guards.insert c.toKey.toList (g.or c.guard) }
  | none => { firsts := c :: d.firsts, guards := d.guards.insert c.toKey.toList c.guard }

/-- A configuration with the guard joined so far. -/
def joined (d : Draft) (c : Config) : Config :=
  { c with guard := d.guards[c.toKey.toList]?.getD c.guard }

/-- The frontier that has been constructed. -/
def frontier (d : Draft) : Frontier :=
  { items := d.firsts.reverse.map d.joined
    guarded := d.firsts.any fun c => !c.guard.isTrivial }

/-- The guards are those of the keys of the configurations. -/
def Agrees (d : Draft) : Prop :=
  ∀ k : Config.Key, d.guards[k.toList]?.isSome = d.firsts.any fun c => c.toKey == k

/-- Adding a configuration keeps a draft in agreement. -/
theorem Agrees.add {d : Draft} (h : d.Agrees) (c : Config) : (d.add c).Agrees := by
  intro k
  have hk := h k
  rw [Draft.add]
  split
  · next g hg =>
    by_cases hc : c.toKey = k
    · subst hc
      simpa [hg] using hk
    · simpa [Std.TreeMap.getElem?_insert, Config.Key.toList_inj, hc] using hk
  · by_cases hc : c.toKey = k
    · simp [hc]
    · simpa [Std.TreeMap.getElem?_insert, Config.Key.toList_inj, hc, beq_false_of_ne hc] using hk

/-- Adding a configuration to a draft adds it to the frontier. -/
theorem frontier_add {d : Draft} (h : d.Agrees) (c : Config) :
    (d.add c).frontier = d.frontier.add c := by
  have hkey : d.frontier.hasKey c = d.guards[c.toKey.toList]?.isSome := by
    simp [h c.toKey, Frontier.hasKey, frontier, joined, List.any_map, Function.comp_def]
  rw [Frontier.add, hkey, Draft.add]
  split
  · next g hg =>
    simp only [hg, Option.isSome_some, if_true, frontier, List.map_map, Frontier.mk.injEq, and_true]
    refine List.map_congr_left fun e _ => ?_
    by_cases he : e.toKey = c.toKey
    · simp [joined, Frontier.joinGuard, he, hg]
    · simp [joined, Frontier.joinGuard, he, Std.TreeMap.getElem?_insert, Config.Key.toList_inj,
        Ne.symm he]
  · next hg =>
    have hne : ∀ e ∈ d.firsts, e.toKey ≠ c.toKey := by
      have hc := h c.toKey
      simpa [hg] using hc
    let d' : Draft := { firsts := c :: d.firsts, guards := d.guards.insert c.toKey.toList c.guard }
    have hold : d.firsts.reverse.map d'.joined = d.firsts.reverse.map d.joined :=
      List.map_congr_left fun e he => by
        simp [d', joined, Std.TreeMap.getElem?_insert, Config.Key.toList_inj,
          Ne.symm (hne e (List.mem_reverse.1 he))]
    have hnew : d'.joined c = c := by simp [d', joined]
    have hitems : (c :: d.firsts).reverse.map d'.joined = d.firsts.reverse.map d.joined ++ [c] := by
      rw [List.reverse_cons, List.map_append, hold, List.map_singleton, hnew]
    simp only [hg, Option.isSome_none, Bool.false_eq_true, if_false, frontier, List.any_cons,
      Bool.or_comm]
    rw [← hitems]

end Draft

namespace Frontier

/-- The frontier of some configurations. -/
def ofList (configs : List Config) : Frontier :=
  (configs.foldl Draft.add {}).frontier

/-- The frontier of some configurations is that to which they are added one after
    the other. -/
theorem ofList_eq_foldl (configs : List Config) : ofList configs = configs.foldl add {} := by
  have fold (l : List Config) (d : Draft) (h : d.Agrees) :
      (l.foldl Draft.add d).frontier = l.foldl add d.frontier := by
    induction l generalizing d with
    | nil => rfl
    | cons c l ih => rw [List.foldl_cons, List.foldl_cons, ih _ (h.add c), Draft.frontier_add h]
  exact fold configs {} fun k => by simp

end Frontier

end AdaptiveLL
