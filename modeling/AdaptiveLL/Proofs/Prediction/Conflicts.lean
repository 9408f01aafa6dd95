import AdaptiveLL.Proofs.Indexing
import AdaptiveLL.Proofs.Prediction.Exactness

/-!
# Conflicts

Alternatives conflict if no token can tell them apart, as they have come to exactly the same points.
They are found in one pass: each configuration is taken to the meeting at its place, which is looked
for among those that have the hash of the place (`Meetings.add`), and in the end the alternatives of
all meetings are compared with those of the first one (`Meetings.conflict`).

After each configuration, the meetings are those of the configurations so far, whatever the hashes
are (`Meetings.Represents`). So the conflict is what the configurations say as a set: their order does
not matter, nor how often each of them is there, and all its alternatives have come to the same points
(`Meetings.conflict_isExact`).
-/

namespace AdaptiveLL

variable {l m : List Config} {c d : Config}

theorem Config.place_eq_iff_point : c.place = d.place ↔ c.point = d.point := by
  refine ⟨point_eq_of_place, fun h => ?_⟩
  obtain ⟨hstate, hcontext⟩ := Point.mk.inj h
  rw [Config.place, Config.place, hstate, hcontext]

theorem Config.place_of_toKey (h : c.toKey = d.toKey) : c.place = d.place :=
  place_eq_iff_point.2 (congrArg Key.point h)

/-! ## Alternatives at a place -/

theorem altsAt_concat (l : List Config) (c : Config) (place : List Int) : altsAt (l ++ [c]) place =
    if c.place = place then Ascending.insert c.alt (altsAt l place) else altsAt l place := by
  rw [altsAt, altsAt, List.filter_append]
  by_cases h : c.place = place
  · simp [h, Frontier.altsOf, Ascending.ofList, Ascending.insertAll]
  · simp [h]

theorem altsAt_eq_nil {place : List Int} (h : ∀ c ∈ l, c.place ≠ place) :
    altsAt l place = [] := by
  refine List.eq_nil_iff_forall_not_mem.2 fun alt halt => ?_
  obtain ⟨c, hc, hplace, _⟩ := mem_altsAt.1 halt
  exact h c hc hplace

/-- Configurations whose keys are among those of other ones have their alternatives among the
    alternatives of these. -/
theorem altsAt_subset (h : l.map Config.toKey ⊆ m.map Config.toKey) (place : List Int) :
    altsAt l place ⊆ altsAt m place := by
  intro alt halt
  obtain ⟨c, hc, hplace, rfl⟩ := mem_altsAt.1 halt
  obtain ⟨d, hd, hkey⟩ := List.mem_map.1 (h (List.mem_map_of_mem hc))
  exact mem_altsAt.2
    ⟨d, hd, (Config.place_of_toKey hkey).trans hplace, congrArg Config.Key.alt hkey⟩

/-- The alternatives at a place depend only on which keys there are. -/
theorem altsAt_congr (h : l.map Config.toKey ⊆ m.map Config.toKey)
    (h' : m.map Config.toKey ⊆ l.map Config.toKey) (place : List Int) :
    altsAt l place = altsAt m place :=
  Ascending.eq_of_mem_iff (pairwise_altsOf _) (pairwise_altsOf _) fun _ =>
    ⟨fun halt => altsAt_subset h place halt, fun halt => altsAt_subset h' place halt⟩

/-! ## Meetings -/

/-- A place that alternatives have come to. -/
structure Meeting where
  /-- The configuration that has come there first. -/
  first : Config
  /-- The alternatives that have come there, ascending. -/
  alts : List Int

namespace Meeting

def place (m : Meeting) : List Int :=
  m.first.place

/-- A meeting with the alternative of a configuration as well, if it is at the place of the
    configuration. -/
def join (c : Config) (m : Meeting) : Meeting :=
  if m.place = c.place then { m with alts := Ascending.insert c.alt m.alts } else m

theorem place_join (c : Config) (m : Meeting) : (join c m).place = m.place := by
  rw [join]
  split <;> rfl

theorem alts_join (c : Config) (m : Meeting) : (join c m).alts =
    if c.place = m.place then Ascending.insert c.alt m.alts else m.alts := by
  rw [join]
  by_cases h : c.place = m.place
  · rw [if_pos h, if_pos h.symm]
  · rw [if_neg h, if_neg (Ne.symm h)]

end Meeting

/-- The places that configurations have come to, with an index: the hash of each place with the number
    of its meeting. -/
structure Meetings where
  items : List Meeting := []
  index : List (Nat × Nat) := []

namespace Meetings

variable (hash : List Int → Nat)

/-- The number of the meeting at a place, looked for among those of its hash. There is one at most, so
    the order of the index does not matter. -/
def find? (x : Meetings) (place : List Int) : Option Nat :=
  lookUp? x.index x.items (hash place) fun m => m.place = place

/-- Opens a meeting with a configuration. -/
def hold (x : Meetings) (c : Config) : Meetings where
  items := x.items ++ [{ first := c, alts := [c.alt] }]
  index := (hash c.place, x.items.length) :: x.index

/-- Takes a configuration to the meeting at its place. -/
def add (x : Meetings) (c : Config) : Meetings :=
  match x.find? hash c.place with
  | some i =>
    { x with items := x.items.modify i fun m => { m with alts := Ascending.insert c.alt m.alts } }
  | none => x.hold hash c

/-- The meetings of some configurations. -/
def ofConfigs (configs : List Config) : Meetings :=
  configs.foldl (add hash) {}

/-- The alternatives of the first meeting, if they are two at least and all meetings have the same;
    none otherwise. -/
def conflict (x : Meetings) : List Int :=
  match x.items with
  | [] => []
  | first :: _ =>
    if first.alts.length < 2 then []
    else if x.items.any fun m => m.alts != first.alts then [] else first.alts

/-- The meetings are those of some configurations: each place of theirs has one, with the
    alternatives that have come there, and the index has it. -/
structure Represents (x : Meetings) (l : List Config) : Prop where
  alts : ∀ m ∈ x.items, m.alts = altsAt l m.place
  mem_place : ∀ place, place ∈ x.items.map Meeting.place ↔ place ∈ l.map Config.place
  nodup : (x.items.map Meeting.place).Nodup
  index : IsIndexOf (fun m : Meeting => hash m.place) x.index x.items

variable {hash} {x : Meetings}

theorem represents_empty : ({} : Meetings).Represents hash [] where
  alts := List.forall_mem_nil _
  mem_place _ := Iff.rfl
  nodup := .nil
  index := isIndexOf_nil

theorem Represents.join (h : x.Represents hash l) (hc : c.place ∈ l.map Config.place) :
    Represents hash { x with items := x.items.map (Meeting.join c) } (l ++ [c]) := by
  have hplaces : (x.items.map (Meeting.join c)).map Meeting.place = x.items.map Meeting.place := by
    rw [List.map_map]
    exact List.map_congr_left fun m _ => Meeting.place_join c m
  refine ⟨fun m hm => ?_, fun place => ?_, hplaces.symm ▸ h.nodup,
    h.index.map fun m => congrArg hash (Meeting.place_join c m)⟩
  · obtain ⟨m, hmem, rfl⟩ := List.mem_map.1 hm
    rw [Meeting.alts_join, Meeting.place_join, altsAt_concat, h.alts m hmem]
  · rw [hplaces, h.mem_place, List.map_append, List.mem_append]
    refine ⟨.inl, fun hmem => hmem.elim id fun hlast => ?_⟩
    rwa [List.mem_singleton.1 hlast]

theorem Represents.hold (h : x.Represents hash l) (hc : ∀ m ∈ x.items, m.place ≠ c.place) :
    (x.hold hash c).Represents hash (l ++ [c]) := by
  have hnew : c.place ∉ x.items.map Meeting.place := by
    rintro hmem
    obtain ⟨m, hm, hplace⟩ := List.mem_map.1 hmem
    exact hc m hm hplace
  have hnil : altsAt l c.place = [] := altsAt_eq_nil fun d hd hplace =>
    hnew ((h.mem_place _).2 (hplace ▸ List.mem_map_of_mem hd))
  let last : Meeting := { first := c, alts := [c.alt] }
  refine ⟨fun m hm => ?_, fun place => ?_, ?_, h.index.concat last⟩
  · rw [altsAt_concat]
    rcases List.mem_append.1 hm with hm | hm
    · rw [if_neg (Ne.symm (hc m hm)), h.alts m hm]
    · have hplace : c.place = m.place := by rw [List.mem_singleton.1 hm, Meeting.place]
      rw [if_pos hplace, ← hplace, hnil, List.mem_singleton.1 hm]
      rfl
  · rw [Meetings.hold, List.map_append, List.map_append, List.mem_append, List.mem_append,
      h.mem_place]
    rfl
  · rw [Meetings.hold, List.map_append]
    exact List.nodup_append'.2
      ⟨h.nodup, List.nodup_singleton _, List.disjoint_singleton.2 hnew⟩

/-- The meeting at a place is found, whatever other places have its hash. -/
theorem Represents.add (h : x.Represents hash l) (c : Config) :
    (x.add hash c).Represents hash (l ++ [c]) := by
  rw [Meetings.add]
  split
  · next i hfound =>
    obtain ⟨first, hfirst, hplace⟩ := lookUp?_eq_some hfound
    have hplace : first.place = c.place := of_decide_eq_true hplace
    have hmem : c.place ∈ x.items.map Meeting.place :=
      hplace ▸ List.mem_map_of_mem (List.mem_of_getElem? hfirst)
    have hjoin := modify_eq_map h.nodup hfirst
      fun m => { m with alts := Ascending.insert c.alt m.alts }
    rw [hplace] at hjoin
    rw [hjoin]
    exact h.join ((h.mem_place _).1 hmem)
  · next hfound =>
    refine h.hold fun m hm hplace => ?_
    rw [← hplace] at hfound
    exact of_decide_eq_false (h.index.lookUp?_eq_none hm hfound) rfl

/-- The meetings that configurations are taken to one after the other are theirs. -/
theorem represents_ofConfigs (hash : List Int → Nat) (configs : List Config) :
    (ofConfigs hash configs).Represents hash configs := by
  induction configs using List.reverseRecOn with
  | nil => exact represents_empty
  | append_singleton configs c ih =>
    rw [ofConfigs, List.foldl_concat]
    exact ih.add c

theorem conflict_eq_iff {alts : List Int} (hne : alts ≠ []) : x.conflict = alts ↔
    x.items ≠ [] ∧ 2 ≤ alts.length ∧ ∀ m ∈ x.items, m.alts = alts := by
  rw [conflict]
  cases x.items with
  | nil => exact ⟨fun h => absurd h.symm hne, fun h => absurd rfl h.1⟩
  | cons first rest =>
    simp only [List.any_eq_true, bne_iff_ne]
    constructor
    · intro h
      split at h
      · exact absurd h.symm hne
      · next hlen =>
        split at h
        · exact absurd h.symm hne
        · next hany =>
          subst h
          refine ⟨List.cons_ne_nil _ _, not_lt.1 hlen, fun m hm => ?_⟩
          exact not_not.1 fun hm' => hany ⟨m, hm, hm'⟩
    · rintro ⟨_, hlen, hall⟩
      have hfirst := hall first List.mem_cons_self
      have hany : ¬∃ m ∈ first :: rest, m.alts ≠ first.alts := by
        rintro ⟨m, hm, hm'⟩
        exact hm' ((hall m hm).trans hfirst.symm)
      rw [if_neg (by rw [hfirst]; exact not_lt.2 hlen), if_neg hany, hfirst]

end Meetings

/-! ## Conflicts -/

/-- Some alternatives are in conflict: they are two at least, and exactly those that have come to each
    point that any has come to. -/
structure IsConflict (configs : List Config) (S : Finset Int) : Prop where
  two_le : 2 ≤ S.card
  mem_iff : ∀ c ∈ configs, ∀ alt, alt ∈ S ↔ ∃ d ∈ configs, d.point = c.point ∧ d.alt = alt

variable {configs : List Config} {S : Finset Int}

theorem mem_altsAt_place {alt : Int} :
    alt ∈ altsAt configs c.place ↔ ∃ d ∈ configs, d.point = c.point ∧ d.alt = alt := by
  simp only [mem_altsAt, Config.place_eq_iff_point]

/-- Alternatives that are not told apart are in conflict. -/
theorem isConflict_of_indistinguishable (h : indistinguishable configs ≠ []) :
    IsConflict configs (indistinguishable configs).toFinset := by
  obtain ⟨_, hlen, hall⟩ := (indistinguishable_eq_iff h).1 rfl
  refine ⟨?_, fun c hc alt => ?_⟩
  · rwa [List.toFinset_card_of_nodup ((pairwise_indistinguishable configs).imp ne_of_lt)]
  · rw [List.mem_toFinset, ← hall c hc, mem_altsAt_place]

namespace IsConflict

theorem toFinset_altsAt (h : IsConflict configs S) (hc : c ∈ configs) :
    (altsAt configs c.place).toFinset = S := by
  ext alt
  rw [List.mem_toFinset, mem_altsAt_place, h.mem_iff c hc]

/-- Alternatives that are in conflict are those that are not told apart. -/
theorem toFinset_indistinguishable (h : IsConflict configs S) (hne : configs ≠ []) :
    (indistinguishable configs).toFinset = S := by
  obtain ⟨c, hc⟩ := List.exists_mem_of_ne_nil configs hne
  have hlen : 2 ≤ (altsAt configs c.place).length :=
    ((h.toFinset_altsAt hc).symm ▸ h.two_le).trans (List.toFinset_card_le _)
  have halts : altsAt configs c.place ≠ [] := List.ne_nil_of_length_pos (by omega)
  -- At all places there are the same alternatives.
  have hsame (d : Config) (hd : d ∈ configs) :
      altsAt configs d.place = altsAt configs c.place := by
    refine Ascending.eq_of_mem_iff (pairwise_altsOf _) (pairwise_altsOf _) fun alt => ?_
    rw [← List.mem_toFinset, h.toFinset_altsAt hd, ← h.toFinset_altsAt hc, List.mem_toFinset]
  rw [(indistinguishable_eq_iff halts).2 ⟨hne, hlen, hsame⟩, h.toFinset_altsAt hc]

/-- A conflict is one of all alternatives. -/
theorem mem_iff_exists (h : IsConflict configs S) (hne : configs ≠ []) {alt : Int} :
    alt ∈ S ↔ ∃ c ∈ configs, c.alt = alt := by
  constructor
  · intro halt
    obtain ⟨c, hc⟩ := List.exists_mem_of_ne_nil configs hne
    obtain ⟨d, hd, _, hdalt⟩ := (h.mem_iff c hc alt).1 halt
    exact ⟨d, hd, hdalt⟩
  · rintro ⟨c, hc, halt⟩
    exact (h.mem_iff c hc alt).2 ⟨c, hc, rfl, halt⟩

/-- Where one alternative has come to, each one of a conflict has. -/
theorem exists_of_mem (h : IsConflict configs S) {a b : Int} (hb : b ∈ S) {p : Point}
    (ha : ∃ c ∈ configs, c.alt = a ∧ c.point = p) : ∃ c ∈ configs, c.alt = b ∧ c.point = p := by
  obtain ⟨c, hc, _, rfl⟩ := ha
  obtain ⟨d, hd, hpoint, halt⟩ := (h.mem_iff c hc b).1 hb
  exact ⟨d, hd, halt, hpoint⟩

end IsConflict

/-- Lists are equal if they are the same one as far as they are not empty. -/
theorem eq_of_eq_iff {a b : List Int} (h : ∀ alts, alts ≠ [] → (a = alts ↔ b = alts)) : a = b := by
  by_cases ha : a = []
  · by_cases hb : b = []
    · rw [ha, hb]
    · exact (h b hb).2 rfl
  · exact ((h a ha).1 rfl).symm

/-- Which alternatives are not told apart depends only on which keys there are. -/
theorem indistinguishable_congr (h : l.map Config.toKey ⊆ m.map Config.toKey)
    (h' : m.map Config.toKey ⊆ l.map Config.toKey) : indistinguishable l = indistinguishable m := by
  have settled {l m : List Config} {alts : List Int} (h : l.map Config.toKey ⊆ m.map Config.toKey)
      (h' : m.map Config.toKey ⊆ l.map Config.toKey) (hne : alts ≠ [])
      (hl : indistinguishable l = alts) : indistinguishable m = alts := by
    obtain ⟨hl, hlen, hall⟩ := (indistinguishable_eq_iff hne).1 hl
    refine (indistinguishable_eq_iff hne).2 ⟨?_, hlen, fun d hd => ?_⟩
    · rintro rfl
      exact hl (List.map_eq_nil_iff.1 (List.subset_nil.1 h))
    · obtain ⟨c, hc, hkey⟩ := List.mem_map.1 (h' (List.mem_map_of_mem hd))
      rw [← altsAt_congr h h', ← Config.place_of_toKey hkey, hall c hc]
  exact eq_of_eq_iff fun alts hne => ⟨settled h h' hne, settled h' h hne⟩

namespace Meetings

/-- The conflict of the meetings is that of their configurations, whatever the hashes are. -/
theorem conflict_ofConfigs (hash : List Int → Nat) (configs : List Config) :
    (ofConfigs hash configs).conflict = indistinguishable configs := by
  have hmeetings := represents_ofConfigs hash configs
  have hnil : (ofConfigs hash configs).items = [] ↔ configs = [] := by
    rw [← List.map_eq_nil_iff (f := Meeting.place), ← List.map_eq_nil_iff (f := Config.place),
      List.eq_nil_iff_forall_not_mem, List.eq_nil_iff_forall_not_mem]
    exact forall_congr' fun place => not_congr (hmeetings.mem_place place)
  refine eq_of_eq_iff fun alts hne => ?_
  rw [conflict_eq_iff hne, indistinguishable_eq_iff hne, Ne, Ne, hnil]
  refine and_congr_right fun _ => and_congr_right fun _ => ?_
  -- The meetings are at the places of the configurations, with the alternatives there.
  calc (∀ m ∈ (ofConfigs hash configs).items, m.alts = alts)
      ↔ ∀ place ∈ (ofConfigs hash configs).items.map Meeting.place,
          altsAt configs place = alts := by
        rw [List.forall_mem_map]
        exact forall₂_congr fun m hm => by rw [hmeetings.alts m hm]
    _ ↔ ∀ place ∈ configs.map Config.place, altsAt configs place = alts :=
        forall_congr' fun place => imp_congr_left (hmeetings.mem_place place)
    _ ↔ ∀ c ∈ configs, altsAt configs c.place = alts := List.forall_mem_map

/-- The conflict of some configurations is found whatever the hashes of places are. It is the only
    one there is, none if there is no such. So it depends on the keys only, and neither on
    their order nor on their number; and it is made of all alternatives, which have come to the same
    points. -/
theorem conflict_isExact (hash : List Int → Nat) {configs : List Config} (hne : configs ≠ []) :
    (ofConfigs hash configs).conflict = indistinguishable configs ∧
    (ofConfigs hash configs).conflict.Pairwise (· < ·) ∧
    (∀ S : Finset Int, S.Nonempty →
      ((ofConfigs hash configs).conflict.toFinset = S ↔ IsConflict configs S)) ∧
    ((∀ S, ¬IsConflict configs S) → (ofConfigs hash configs).conflict = []) ∧
    (∀ hash' configs', (∀ k, k ∈ configs'.map Config.toKey ↔ k ∈ configs.map Config.toKey) →
      (ofConfigs hash' configs').conflict = (ofConfigs hash configs).conflict) ∧
    ((ofConfigs hash configs).conflict ≠ [] →
      (∀ alt, alt ∈ (ofConfigs hash configs).conflict ↔ ∃ c ∈ configs, c.alt = alt) ∧
      ∀ a ∈ (ofConfigs hash configs).conflict, ∀ b ∈ (ofConfigs hash configs).conflict, ∀ p,
        (∃ c ∈ configs, c.alt = a ∧ c.point = p) ↔ ∃ c ∈ configs, c.alt = b ∧ c.point = p) := by
  rw [conflict_ofConfigs]
  refine ⟨rfl, pairwise_indistinguishable configs, fun S hS => ⟨?_, ?_⟩, fun hnone => ?_,
    fun hash' configs' hkeys => ?_, fun halts => ?_⟩
  · rintro rfl
    exact isConflict_of_indistinguishable (List.toFinset_nonempty_iff _ |>.1 hS)
  · exact fun hconflict => hconflict.toFinset_indistinguishable hne
  · by_contra halts
    exact hnone _ (isConflict_of_indistinguishable halts)
  · rw [conflict_ofConfigs]
    exact indistinguishable_congr (fun k => (hkeys k).1) fun k => (hkeys k).2
  · have hconflict := isConflict_of_indistinguishable halts
    refine ⟨fun alt => ?_, fun a ha b hb p => ⟨?_, ?_⟩⟩
    · rw [← List.mem_toFinset, hconflict.mem_iff_exists hne]
    · exact hconflict.exists_of_mem (List.mem_toFinset.2 hb)
    · exact hconflict.exists_of_mem (List.mem_toFinset.2 ha)

/-- Two alternatives at two points, one of them twice. -/
def crowded : List Config :=
  [{ state := 5, alt := 2, context := [7] }, { state := 6, alt := 1 },
    { state := 5, alt := 1, context := [7] }, { state := 6, alt := 2 },
    { state := 5, alt := 2, context := [7] }]

/-- They are in conflict, which is also found where all places have one hash. -/
theorem crowded_conflict_isExact : crowded ≠ [] ∧
    (ofConfigs (fun _ => 0) crowded).conflict = [1, 2] ∧ IsConflict crowded {1, 2} := by
  have hne : crowded ≠ [] := List.cons_ne_nil _ _
  have hconflict : (ofConfigs (fun _ => 0) crowded).conflict = [1, 2] := by decide
  obtain ⟨_, _, hiff, _⟩ := conflict_isExact (fun _ => 0) hne
  refine ⟨hne, hconflict, (hiff {1, 2} ⟨1, by decide⟩).1 ?_⟩
  rw [hconflict]
  rfl

end Meetings

end AdaptiveLL
