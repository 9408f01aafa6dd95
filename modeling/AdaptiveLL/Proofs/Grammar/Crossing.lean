import AdaptiveLL.Grammar.Language
import AdaptiveLL.Proofs.Grammar.Layout

/-!
# Crossing bodies

Whatever goes along the ways on from states and enters a fragment in which a body lies comes
to the end of the fragment, if it ends outside, and spells a word of the body on the way
there (`Body.Lies.crosses`). What goes along the ways may be a run of a network that comes to
the end of a rule, or a walk that stays in a rule (`FollowsWays`); a call is crossed by what
it calls, which is left open here. A loop may turn any number of times, so this is shown
along the number of steps.
-/

namespace AdaptiveLL

variable {σ : Type}

namespace Body

variable {rules : List (RuleDefinition σ)} {body : Body σ} {l : Label} {w : List Int}

/-- A body that is made of one transition stands for the tokens that this consumes. -/
theorem derives_label? (h : body.label? = some l) :
    Derives rules body w ↔ ∃ type, w = [type] ∧ l.accepts type = true := by
  constructor
  · intro hw
    cases hw with
    | token => cases h; exact ⟨_, rfl, by simp [Label.accepts]⟩
    | range hlow hhigh => cases h; exact ⟨_, rfl, by simp [Label.accepts, hlow, hhigh]⟩
    | oneOf hmem =>
      cases h
      exact ⟨_, rfl, by simpa [Label.accepts, Ascending.mem_ofList] using hmem⟩
    | noneOf hne hnot =>
      cases h
      exact ⟨_, rfl, by simpa [Label.accepts, Ascending.mem_ofList] using ⟨hne, hnot⟩⟩
    | wildcard hne => cases h; exact ⟨_, rfl, by simpa [Label.accepts] using hne⟩
    | _ => cases h
  · rintro ⟨type, rfl, ha⟩
    cases body with
    | token =>
      cases h
      obtain rfl : _ = type := by simpa [Label.accepts] using ha
      exact .token
    | range low high =>
      cases h
      obtain ⟨hlow, hhigh⟩ : low ≤ type ∧ type ≤ high := by simpa [Label.accepts] using ha
      exact .range hlow hhigh
    | oneOf types =>
      cases h
      exact .oneOf (by simpa [Label.accepts, Ascending.mem_ofList] using ha)
    | noneOf types =>
      cases h
      obtain ⟨hne, hnot⟩ : type ≠ Token.endOfInput ∧ type ∉ types := by
        simpa [Label.accepts, Ascending.mem_ofList] using ha
      exact .noneOf hne hnot
    | wildcard =>
      cases h
      exact .wildcard (by simpa [Label.accepts] using ha)
    | _ => cases h

theorem isFree_label? (body : Body σ) (h : body.label? = some l) : l.isFree = false := by
  cases body <;> cases h <;> rfl

end Body

section Crosses

variable (ways : StateId → Option (List Transition)) (ends : Nat → StateId → List Int → Prop)

/-- What spells a word from a state up to its end, within a number of steps, goes on by one of
    the ways on from the state, if there are some; nothing is said of what a call leads to. -/
def FollowsWays : Prop :=
  ∀ (n : Nat) (id : StateId) (w : List Int) (ts : List Transition), ends n id w →
    ways id = some ts → ts ≠ [] → ∃ t ∈ ts, ∃ m < n,
      (t.label.isFree = true ∧
        ((∀ callee follow, t.label ≠ .call callee follow) → ends m t.target w)) ∨
      ∃ type v, t.label.accepts type = true ∧ w = type :: v ∧ ends m t.target v

/-- What goes on from the start of a fragment and ends within a number of steps comes through
    the end of the fragment, and spells a word of a body up to there. -/
def Crosses (rules : List (RuleDefinition σ)) (n : Nat) (body : Body σ) (f : Fragment) : Prop :=
  ∀ w, ends n f.start w → ∃ u v, w = u ++ v ∧ Body.Derives rules body u ∧
    ∃ m ≤ n, ends m f.stop v

/-- This is so of what ends within at most some steps. -/
def CrossesWithin (rules : List (RuleDefinition σ)) (n : Nat) (body : Body σ) (f : Fragment) :
    Prop :=
  ∀ m ≤ n, Crosses ends rules m body f

variable {ways ends} {rules : List (RuleDefinition σ)} {n : Nat} {body : Body σ}
  {bodies : List (Body σ)} {f last : Fragment} {fs : List Fragment} {id target : StateId}
  {w : List Int}

/-- A body that stands for the empty word is crossed in a single state. -/
theorem crosses_point (hbody : Body.Derives rules body []) (id : StateId) :
    CrossesWithin ends rules n body ⟨id, id⟩ :=
  fun m _ w hw => ⟨[], w, rfl, hbody, m, le_rfl, hw⟩

variable (hways : FollowsWays ways ends)

include hways

theorem FollowsWays.of_epsilons (targets : List StateId) (h : ends n id w)
    (hw : ways id = some (targets.map fun target => ⟨target, .epsilon⟩)) (hne : targets ≠ []) :
    ∃ target ∈ targets, ∃ m < n, ends m target w := by
  obtain ⟨t, ht, m, hm, hnext⟩ := hways n id w _ h hw (by simpa using hne)
  obtain ⟨target, hmem, rfl⟩ := List.mem_map.1 ht
  rcases hnext with ⟨_, hnext⟩ | ⟨_, _, ha, _⟩
  · exact ⟨target, hmem, m, hm, hnext (by simp)⟩
  · cases ha

theorem FollowsWays.of_epsilon (h : ends n id w) (hw : ways id = some [⟨target, .epsilon⟩]) :
    ∃ m < n, ends m target w := by
  obtain ⟨_, hmem, hrest⟩ := hways.of_epsilons [target] h hw (List.cons_ne_nil _ _)
  exact List.mem_singleton.1 hmem ▸ hrest

theorem crosses_element {l : Label} (hl : body.label? = some l)
    (hw : ways f.start = some [⟨f.stop, l⟩]) : Crosses ends rules n body f := by
  intro w h
  obtain ⟨t, ht, m, hm, hnext⟩ := hways n _ w _ h hw (List.cons_ne_nil _ _)
  obtain rfl := List.mem_singleton.1 ht
  rcases hnext with ⟨hfree, _⟩ | ⟨type, v, ha, rfl, hv⟩
  · rw [body.isFree_label? hl] at hfree
    cases hfree
  · exact ⟨[type], v, rfl, (Body.derives_label? hl).2 ⟨type, rfl, ha⟩, m, hm.le, hv⟩

/-- A transition that consumes nothing and calls nothing is crossed. -/
theorem crosses_free {l : Label} (hbody : Body.Derives rules body [])
    (hw : ways f.start = some [⟨f.stop, l⟩]) (ha : ∀ type, l.accepts type = false)
    (hl : ∀ callee follow, l ≠ .call callee follow) : Crosses ends rules n body f := by
  intro w h
  obtain ⟨t, ht, m, hm, hnext⟩ := hways n _ w _ h hw (List.cons_ne_nil _ _)
  obtain rfl := List.mem_singleton.1 ht
  rcases hnext with ⟨_, hnext⟩ | ⟨type, _, haccepts, _⟩
  · exact ⟨[], w, rfl, hbody, m, hm.le, hnext hl⟩
  · rw [ha type] at haccepts
    cases haccepts

theorem crosses_chain (hparts : List.Forall₂ (CrossesWithin ends rules n) bodies (f :: fs))
    (hchained : Body.Chained ways (f :: fs)) (hlast : (f :: fs).getLast? = some last) :
    CrossesWithin ends rules n (.sequence bodies) ⟨f.start, last.stop⟩ := by
  induction fs generalizing f bodies with
  | nil =>
    obtain _ | ⟨hfirst, hnil⟩ := hparts
    cases hnil
    cases hlast
    intro m hm w h
    obtain ⟨u, v, rfl, hu, hv⟩ := hfirst m hm w h
    exact ⟨u, v, rfl, List.append_nil u ▸ .andThen hu .done, hv⟩
  | cons g rest ih =>
    obtain _ | ⟨hfirst, hrest⟩ := hparts
    intro m hm w h
    obtain ⟨u, v, rfl, hu, k, hk, hv⟩ := hfirst m hm w h
    obtain ⟨k', hk', hv⟩ := hways.of_epsilon hv hchained.1
    rw [List.getLast?_cons_cons] at hlast
    obtain ⟨u', v', rfl, hu', k'', hk'', hv'⟩ := ih hrest hchained.2 hlast k' (by omega) v hv
    exact ⟨u ++ u', v', (List.append_assoc ..).symm, .andThen hu hu', k'', by omega, hv'⟩

theorem crosses_block (halternatives : List.Forall₂ (CrossesWithin ends rules n) bodies fs)
    (hjoined : Body.IsJoined ways f fs) : CrossesWithin ends rules n (.block bodies) f := by
  -- Each fragment is crossed as one of the alternatives.
  have alternative {g : Fragment} (hg : g ∈ fs) :
      CrossesWithin ends rules n (.block bodies) g := by
    obtain ⟨body, hbody, (hcrosses : CrossesWithin ends rules n body g)⟩ :=
      exists_of_forall₂ halternatives.flip hg
    intro m hm w h
    obtain ⟨u, v, hw, hu, hv⟩ := hcrosses m hm w h
    exact ⟨u, v, hw, .block hbody hu, hv⟩
  match fs with
  | [g] =>
    obtain rfl : f = g := hjoined
    exact alternative List.mem_cons_self
  | g₁ :: g₂ :: rest =>
    obtain ⟨hstart, hstops⟩ := hjoined
    intro m hm w h
    have hstarts : ways f.start = some
        (((g₁ :: g₂ :: rest).map Fragment.start).map fun id => ⟨id, .epsilon⟩) := by
      rw [List.map_map]
      exact hstart
    obtain ⟨target, ht, k, hk, h⟩ := hways.of_epsilons _ h hstarts (by simp)
    obtain ⟨g, hg, rfl⟩ := List.mem_map.1 ht
    obtain ⟨u, v, rfl, hu, k', hk', hv⟩ := alternative hg k (by omega) w h
    obtain ⟨k'', hk'', hv⟩ := hways.of_epsilon hv (hstops g hg)
    exact ⟨u, v, rfl, hu, k'', by omega, hv⟩

/-- A loop is crossed by crossing its body any number of times, if the end of the body leads
    back to its entry. -/
theorem crosses_loop (greediness : Greediness) {entry exit : StateId}
    (hbody : CrossesWithin ends rules n (.block bodies) f)
    (hentry : ways entry = some [⟨f.start, .epsilon⟩, ⟨exit, .epsilon⟩])
    (hback : ∀ m w, ends m f.stop w → ∃ k < m, ends k entry w) :
    CrossesWithin ends rules n (.star bodies greediness) ⟨entry, exit⟩ := by
  intro m hm
  induction m using Nat.strong_induction_on with
  | _ m ih =>
    intro w h
    obtain ⟨target, ht, k, hk, hnext⟩ :=
      hways.of_epsilons [f.start, exit] h hentry (List.cons_ne_nil _ _)
    rcases List.mem_cons.1 ht with rfl | ht
    · obtain ⟨u, v, rfl, hu, k₁, hk₁, hv⟩ := hbody k (by omega) w hnext
      obtain ⟨k₂, hk₂, hv⟩ := hback k₁ v hv
      obtain ⟨u', v', rfl, hu', k₃, hk₃, hv'⟩ := ih k₂ (by omega) (by omega) v hv
      exact ⟨u ++ u', v', (List.append_assoc ..).symm, .again hu hu', k₃, by omega, hv'⟩
    · obtain rfl := List.mem_singleton.1 ht
      exact ⟨[], w, rfl, .leave, k, hk.le, hnext⟩

/-- What leads from a state to a body and from there to another state is crossed as the body. -/
theorem crosses_bounds {bounds : Fragment} (hbody : CrossesWithin ends rules n body f)
    (hstart : ways bounds.start = some [⟨f.start, .epsilon⟩])
    (hstop : ways f.stop = some [⟨bounds.stop, .epsilon⟩]) :
    CrossesWithin ends rules n body bounds := by
  intro m hm w hw
  obtain ⟨m₁, hm₁, hw⟩ := hways.of_epsilon hw hstart
  obtain ⟨u, v, rfl, hu, m₂, hm₂, hv⟩ := hbody m₁ (by omega) w hw
  obtain ⟨m₃, hm₃, hv⟩ := hways.of_epsilon hv hstop
  exact ⟨u, v, rfl, hu, m₃, by omega, hv⟩

/-- A body is crossed where it lies, if the calls in it are crossed. -/
theorem Body.Lies.crosses {calls : Transition → String → StateId → Prop}
    (hcalls : ∀ (name : String) (f : Fragment) (t : Transition), ways f.start = some [t] →
      calls t name f.stop → CrossesWithin ends rules n (.call name) f)
    (h : Body.Lies ways calls body f) : CrossesWithin ends rules n body f := by
  refine h.induction ?element ?epsilon ?call ?predicate ?action ?nothing ?sequence ?block
    ?optional ?star ?plus
  case element => exact fun hl hw m _ => crosses_element hways hl hw
  case epsilon => exact crosses_point .epsilon
  case predicate =>
    exact fun hw m _ => crosses_free hways .predicate hw (fun _ => rfl) (by simp)
  case action => exact fun hw m _ => crosses_free hways .action hw (fun _ => rfl) (by simp)
  case nothing => exact crosses_point .done
  case call => exact fun hw hc => hcalls _ _ _ hw hc
  case sequence =>
    rintro parts (_ | ⟨g, rest⟩) first last hparts hchained hfirst hlast
    · cases hfirst
    · cases hfirst
      exact crosses_chain hways hparts hchained hlast
  case block => exact fun hparts hjoined => crosses_block hways hparts hjoined
  case optional =>
    intro alternatives f hblock m hm w h
    obtain ⟨u, v, rfl, hu, hv⟩ := hblock m hm w h
    refine ⟨u, v, rfl, ?_, hv⟩
    obtain ⟨body, hmem, hu⟩ := Body.Derives.block_iff.1 hu
    rcases List.mem_append.1 hmem with hmem | hmem
    · exact .present (.block hmem hu)
    · obtain rfl := List.mem_singleton.1 hmem
      cases hu with
      | epsilon => exact .absent
  case star =>
    intro alternatives greediness f body back hbody hentry hstop hback
    refine crosses_loop hways greediness hbody hentry fun m w h => ?_
    obtain ⟨k, hk, h⟩ := hways.of_epsilon h hstop
    obtain ⟨k', hk', h⟩ := hways.of_epsilon h hback
    exact ⟨k', by omega, h⟩
  case plus =>
    intro alternatives greediness f body back hbody hstart hstop hback m hm w h
    rw [hstart] at h
    obtain ⟨u, v, rfl, hu, k, hk, hv⟩ := hbody m hm w h
    obtain ⟨k', hk', hv⟩ := hways.of_epsilon hv hstop
    obtain ⟨u', v', rfl, hu', k'', hk'', hv'⟩ := crosses_loop hways greediness hbody hback
      (fun _ _ h => hways.of_epsilon h hstop) k' (by omega) v hv
    exact ⟨u ++ u', v', (List.append_assoc ..).symm, .atLeastOnce hu hu', k'', by omega, hv'⟩

end Crosses

end AdaptiveLL
