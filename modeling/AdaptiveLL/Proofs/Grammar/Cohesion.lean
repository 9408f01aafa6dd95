import AdaptiveLL.Proofs.Grammar.Assembly
import AdaptiveLL.Proofs.Grammar.Composition

/-!
# Fragments that hold together

A fragment *coheres* if it is a single state or transition, or is put together out of
fragments that cohere as a chain, as alternatives, or as a loop whose body is known
(`Fragment.Coheres`). Whatever bodies lie there, a walk that stays in its rule goes on
from every state inside such a fragment but the last (`Coheres.exists_ways`). It goes on
for ever only if it can cross the body of one of the loops (`Coheres.endsInside`).

Where each fragment is used once, every rule is a fragment that coheres
(`Builder.Defines.hasCohesion`), and a composed one (`Builder.Defines.isComposed`).
-/

namespace AdaptiveLL

open Relation

variable {σ : Type}

namespace Fragment

/-- A fragment is put together so that it is left at its end only, out of fragments of which
    this is so, and the bodies of its loops are among those that are known. -/
inductive Coheres (ways : StateId → Option (List Transition)) (loops : List Fragment) :
    Fragment → Prop
  | point (id : StateId) : Coheres ways loops ⟨id, id⟩
  | step {f : Fragment} {t : Transition} : ways f.start = some [t] → innerStep t = f.stop →
    Coheres ways loops f
  | chain {fs : List Fragment} {first last : Fragment} : (∀ f ∈ fs, Coheres ways loops f) →
    Body.Chained ways fs → fs.head? = some first → fs.getLast? = some last →
    Coheres ways loops ⟨first.start, last.stop⟩
  | join {fs : List Fragment} {f : Fragment} : (∀ g ∈ fs, Coheres ways loops g) →
    Body.IsJoined ways f fs → Coheres ways loops f
  | star {f body : Fragment} {back : StateId} : Coheres ways loops body → body ∈ loops →
    ways f.start = some [⟨body.start, .epsilon⟩, ⟨f.stop, .epsilon⟩] →
    ways body.stop = some [⟨back, .epsilon⟩] → ways back = some [⟨f.start, .epsilon⟩] →
    Coheres ways loops f
  | plus {f body : Fragment} {back : StateId} : Coheres ways loops body → body ∈ loops →
    f.start = body.start → ways body.stop = some [⟨back, .epsilon⟩] →
    ways back = some [⟨body.start, .epsilon⟩, ⟨f.stop, .epsilon⟩] → Coheres ways loops f

variable {ways ways' : StateId → Option (List Transition)} {loops loops' : List Fragment}
  {f : Fragment} {fs : List Fragment} {id : StateId}

/-- A fragment coheres also where its states have the same ways on, but for the targets of
    calls. -/
theorem Coheres.map (link : Transition → Transition)
    (hlink : ∀ t, (∀ callee follow, t.label ≠ .call callee follow) → link t = t)
    (hinner : ∀ t, innerStep (link t) = innerStep t)
    (hways : ∀ id ts, ts ≠ [] → ways id = some ts → ways' id = some (ts.map link))
    (hloops : loops ⊆ loops') (h : Coheres ways loops f) : Coheres ways' loops' f := by
  have empty := Body.ways_of_epsilons link hlink hways
  induction h with
  | point id => exact .point id
  | step hw ht =>
    exact .step (hways _ _ (List.cons_ne_nil _ _) hw) ((hinner _).trans ht)
  | chain _ hc hfirst hlast ih => exact .chain ih (hc.map empty) hfirst hlast
  | join _ hj ih => exact .join ih (hj.map empty)
  | star _ hbody hentry hstop hback ih =>
    exact .star ih (hloops hbody) (empty _ _ (by simp) (by simp) hentry)
      (empty _ _ (by simp) (by simp) hstop) (empty _ _ (by simp) (by simp) hback)
  | plus _ hbody hstart hstop hback ih =>
    exact .plus ih (hloops hbody) hstart (empty _ _ (by simp) (by simp) hstop)
      (empty _ _ (by simp) (by simp) hback)

theorem Coheres.mono (hways : ∀ id ts, ts ≠ [] → ways id = some ts → ways' id = some ts)
    (hloops : loops ⊆ loops') (h : Coheres ways loops f) : Coheres ways' loops' f :=
  h.map (fun t => t) (fun _ _ => rfl) (fun _ => rfl)
    (fun id ts hne hw => by rw [List.map_id']; exact hways id ts hne hw) hloops

/-! ## Inside a fragment -/

/-- From a state one comes to another one in a step that stays in its rule. -/
def Inner (ways : StateId → Option (List Transition)) (id id' : StateId) : Prop :=
  ∃ ts, ways id = some ts ∧ ∃ t ∈ ts, innerStep t = id'

/-- A state is come to from the start of a fragment without passing its end. -/
def Inside (ways : StateId → Option (List Transition)) (f : Fragment) : StateId → Prop :=
  ReflTransGen (fun id id' => id ≠ f.stop ∧ Inner ways id id') f.start

/-- All states inside a fragment are among some that contain its start and are not left but at
    its end. -/
theorem Inside.of_closed {T : StateId → Prop} (hstart : T f.start)
    (hstep : ∀ a b, T a → a ≠ f.stop → Inner ways a b → T b) (h : Inside ways f id) : T id := by
  induction h with
  | refl => exact hstart
  | tail _ hs ih => exact hstep _ _ ih hs.1 hs.2

theorem Inside.next {a b : StateId} (h : Inside ways f a) (hne : a ≠ f.stop)
    (hs : Inner ways a b) : Inside ways f b :=
  ReflTransGen.tail h ⟨hne, hs⟩

theorem inner_of_ways {ts : List Transition} {a b : StateId} (hw : ways a = some ts)
    (h : Inner ways a b) : ∃ t ∈ ts, innerStep t = b := by
  obtain ⟨ts', hw', ht⟩ := h
  rw [hw] at hw'
  cases hw'
  exact ht

/-- The one way on leads to one state. -/
theorem eq_of_inner {t : Transition} {a b : StateId} (hw : ways a = some [t])
    (h : Inner ways a b) : b = innerStep t := by
  obtain ⟨t', ht, rfl⟩ := inner_of_ways hw h
  rw [List.mem_singleton.1 ht]

/-- In a chain, the end of a fragment is that of the chain, or leads to a fragment of it. -/
theorem chained_stop {last g : Fragment} (hc : Body.Chained ways fs)
    (hlast : fs.getLast? = some last) (hg : g ∈ fs) :
    g.stop = last.stop ∨ ∃ g' ∈ fs, ways g.stop = some [⟨g'.start, .epsilon⟩] := by
  induction fs with
  | nil => cases hg
  | cons f rest ih =>
    cases rest with
    | nil =>
      cases hlast
      rw [List.mem_singleton.1 hg]
      exact .inl rfl
    | cons f' rest =>
      rw [List.getLast?_cons_cons] at hlast
      rcases List.mem_cons.1 hg with rfl | hg
      · exact .inr ⟨f', by simp, hc.1⟩
      · obtain he | ⟨g', hg', hw⟩ := ih hc.2 hlast hg
        · exact .inl he
        · exact .inr ⟨g', List.mem_cons_of_mem _ hg', hw⟩

theorem inside_point {a : StateId} (h : Inside ways ⟨a, a⟩ id) : id = a :=
  h.of_closed (T := fun b => b = a) rfl fun _ _ hb hne _ => absurd hb hne

theorem inside_step {t : Transition} (hw : ways f.start = some [t]) (ht : innerStep t = f.stop)
    (h : Inside ways f id) : id = f.start ∨ id = f.stop := by
  refine h.of_closed (T := fun a => a = f.start ∨ a = f.stop) (.inl rfl) ?_
  rintro a b (rfl | rfl) hne hs
  · exact .inr ((eq_of_inner hw hs).trans ht)
  · exact absurd rfl hne

theorem inside_chain {first last : Fragment} (hc : Body.Chained ways fs)
    (hfirst : fs.head? = some first) (hlast : fs.getLast? = some last)
    (h : Inside ways ⟨first.start, last.stop⟩ id) : ∃ g ∈ fs, Inside ways g id := by
  refine h.of_closed (f := ⟨first.start, last.stop⟩) (T := fun id => ∃ g ∈ fs, Inside ways g id)
    ⟨first, List.mem_of_mem_head? hfirst, .refl⟩ ?_
  rintro a b ⟨g, hg, ha⟩ hne hs
  by_cases hstop : a = g.stop
  · subst hstop
    obtain he | ⟨g', hg', hw⟩ := chained_stop hc hlast hg
    · exact absurd he hne
    · rw [eq_of_inner hw hs]
      exact ⟨g', hg', .refl⟩
  · exact ⟨g, hg, ha.next hstop hs⟩

theorem inside_join (hj : Body.IsJoined ways f fs) (h : Inside ways f id) :
    id = f.start ∨ id = f.stop ∨ ∃ g ∈ fs, Inside ways g id := by
  match fs with
  | [g] =>
    obtain rfl : f = g := hj
    exact .inr (.inr ⟨f, by simp, h⟩)
  | g :: g' :: rest =>
    obtain ⟨hstart, hstop⟩ := hj
    refine h.of_closed (T := fun id => id = f.start ∨ id = f.stop ∨
      ∃ k ∈ g :: g' :: rest, Inside ways k id) (.inl rfl) ?_
    rintro a b (rfl | rfl | ⟨k, hk, ha⟩) hne hs
    · obtain ⟨t, ht, rfl⟩ := inner_of_ways hstart hs
      obtain ⟨k, hk, rfl⟩ := List.mem_map.1 ht
      exact .inr (.inr ⟨k, hk, .refl⟩)
    · exact absurd rfl hne
    · by_cases he : a = k.stop
      · subst he
        rw [eq_of_inner (hstop k hk) hs]
        exact .inr (.inl rfl)
      · exact .inr (.inr ⟨k, hk, ha.next he hs⟩)

theorem inside_star {body : Fragment} {back : StateId}
    (hentry : ways f.start = some [⟨body.start, .epsilon⟩, ⟨f.stop, .epsilon⟩])
    (hstop : ways body.stop = some [⟨back, .epsilon⟩])
    (hback : ways back = some [⟨f.start, .epsilon⟩]) (h : Inside ways f id) :
    id = f.start ∨ id = f.stop ∨ id = back ∨ Inside ways body id := by
  refine h.of_closed
    (T := fun id => id = f.start ∨ id = f.stop ∨ id = back ∨ Inside ways body id) (.inl rfl) ?_
  rintro a b (rfl | rfl | rfl | ha) hne hs
  · obtain ⟨t, ht, rfl⟩ := inner_of_ways hentry hs
    rcases List.mem_pair.1 ht with rfl | rfl
    · exact .inr (.inr (.inr .refl))
    · exact .inr (.inl rfl)
  · exact absurd rfl hne
  · exact .inl (eq_of_inner hback hs)
  · by_cases he : a = body.stop
    · subst he
      exact .inr (.inr (.inl (eq_of_inner hstop hs)))
    · exact .inr (.inr (.inr (ha.next he hs)))

theorem inside_plus {body : Fragment} {back : StateId} (hstart : f.start = body.start)
    (hstop : ways body.stop = some [⟨back, .epsilon⟩])
    (hback : ways back = some [⟨body.start, .epsilon⟩, ⟨f.stop, .epsilon⟩])
    (h : Inside ways f id) : id = f.stop ∨ id = back ∨ Inside ways body id := by
  refine h.of_closed (T := fun id => id = f.stop ∨ id = back ∨ Inside ways body id)
    (.inr (.inr (hstart ▸ .refl))) ?_
  rintro a b (rfl | rfl | ha) hne hs
  · exact absurd rfl hne
  · obtain ⟨t, ht, rfl⟩ := inner_of_ways hback hs
    rcases List.mem_pair.1 ht with rfl | rfl
    · exact .inr (.inr .refl)
    · exact .inl rfl
  · by_cases he : a = body.stop
    · subst he
      exact .inr (.inl (eq_of_inner hstop hs))
    · exact .inr (.inr (ha.next he hs))

/-- Where there is a way on from the end of a fragment too, there is one from everywhere in it. -/
theorem exists_ways_of_leadsOn {next : StateId}
    (h : id ≠ f.stop → ∃ t ts, ways id = some (t :: ts))
    (hstop : ways f.stop = some [⟨next, .epsilon⟩]) : ∃ t ts, ways id = some (t :: ts) := by
  by_cases he : id = f.stop
  · subst he
    exact ⟨_, _, hstop⟩
  · exact h he

/-- Inside a fragment that coheres, there is a way on from every state but the last one. -/
theorem Coheres.exists_ways (h : Coheres ways loops f) (hid : Inside ways f id)
    (hne : id ≠ f.stop) : ∃ t ts, ways id = some (t :: ts) := by
  -- A part leads on by itself up to its end, and its end leads on to what follows it.
  induction h generalizing id with
  | point a => exact absurd (inside_point hid) hne
  | @step f t hw ht =>
    rw [(inside_step hw ht hid).resolve_right hne]
    exact ⟨t, [], hw⟩
  | chain _ hc hfirst hlast ih =>
    obtain ⟨g, hg, hin⟩ := inside_chain hc hfirst hlast hid
    obtain he | ⟨g', _, hw⟩ := chained_stop hc hlast hg
    · exact ih g hg hin (he ▸ hne)
    · exact exists_ways_of_leadsOn (ih g hg hin) hw
  | @join fs f _ hj ih =>
    match fs with
    | [g] =>
      obtain rfl : f = g := hj
      exact ih f (by simp) hid hne
    | g :: g' :: rest =>
      obtain rfl | he | ⟨k, hk, hin⟩ := inside_join hj hid
      · exact ⟨_, _, hj.1⟩
      · exact absurd he hne
      · exact exists_ways_of_leadsOn (ih k hk hin) (hj.2 k hk)
  | @star f body back _ _ hentry hstop hback ih =>
    obtain rfl | he | rfl | hin := inside_star hentry hstop hback hid
    · exact ⟨_, _, hentry⟩
    · exact absurd he hne
    · exact ⟨_, _, hback⟩
    · exact exists_ways_of_leadsOn (ih hin) hstop
  | @plus f body back _ _ hstart hstop hback ih =>
    obtain he | rfl | hin := inside_plus hstart hstop hback hid
    · exact absurd he hne
    · exact ⟨_, _, hback⟩
    · exact exists_ways_of_leadsOn (ih hin) hstop

/-! ## Walks inside a fragment -/

section Walks

variable {next : StateId → StateId → Prop}

/-- A walk that is inside a fragment ends, if it does so once it comes to the end of it. -/
def EndsInside (ways : StateId → Option (List Transition)) (next : StateId → StateId → Prop)
    (f : Fragment) : Prop :=
  ∀ id, Inside ways f id → (ReflTransGen next id f.stop → Acc (fun b a => next a b) f.stop) →
    Acc (fun b a => next a b) id

variable (hnext : ∀ a b, next a b → Inner ways a b)

include hnext

theorem acc_of_ways {t : Transition} {a : StateId} (hw : ways a = some [t])
    (h : next a (innerStep t) → Acc (fun b a => next a b) (innerStep t)) :
    Acc (fun b a => next a b) a := by
  refine Acc.intro _ fun b hs => ?_
  obtain rfl := eq_of_inner hw (hnext _ _ hs)
  exact h hs

theorem acc_of_chained {last : Fragment} (hfs : ∀ g ∈ fs, EndsInside ways next g)
    (hc : Body.Chained ways fs) (hlast : fs.getLast? = some last) {g : Fragment} (hg : g ∈ fs)
    (h : ReflTransGen next g.stop last.stop → Acc (fun b a => next a b) last.stop) :
    Acc (fun b a => next a b) g.stop := by
  induction fs generalizing g with
  | nil => cases hg
  | cons f rest ih =>
    cases rest with
    | nil =>
      cases hlast
      obtain rfl := List.mem_singleton.1 hg
      exact h .refl
    | cons f' rest =>
      rw [List.getLast?_cons_cons] at hlast
      obtain ⟨_, hrest⟩ := List.forall_mem_cons.1 hfs
      rcases List.mem_cons.1 hg with rfl | hg
      · refine acc_of_ways hnext hc.1 fun hs => ?_
        refine hrest f' List.mem_cons_self _ .refl fun hcross => ?_
        exact ih hrest hc.2 hlast List.mem_cons_self fun hreach =>
          h (.head hs (hcross.trans hreach))
      · exact ih hrest hc.2 hlast hg h

/-- A walk inside a fragment that coheres ends, unless it can cross the body of a loop or goes
    on behind the fragment. -/
theorem Coheres.endsInside (hloops : ∀ g ∈ loops, ¬ReflTransGen next g.start g.stop)
    (h : Coheres ways loops f) : EndsInside ways next f := by
  induction h with
  | point b =>
    intro a ha hleave
    obtain rfl := inside_point ha
    exact hleave .refl
  | @step f t hw ht =>
    intro a ha hleave
    obtain rfl | rfl := inside_step hw ht ha
    · refine acc_of_ways hnext hw fun hs => ?_
      rw [ht] at hs ⊢
      exact hleave (.single hs)
    · exact hleave .refl
  | @chain fs first last _ hc hfirst hlast ih =>
    intro a ha hleave
    obtain ⟨g, hg, hin⟩ := inside_chain hc hfirst hlast ha
    refine ih g hg a hin fun hcross => ?_
    exact acc_of_chained hnext ih hc hlast hg fun hreach => hleave (hcross.trans hreach)
  | @join fs f _ hj ih =>
    match fs with
    | [g] =>
      obtain rfl : f = g := hj
      exact ih f (by simp)
    | g :: g' :: rest =>
      intro a ha hleave
      -- Behind each of the parts there is only the end of all of them.
      have inside (k : Fragment) (hk : k ∈ g :: g' :: rest) (b : StateId) (hb : Inside ways k b)
          (hab : ReflTransGen next a b) : Acc (fun b a => next a b) b :=
        ih k hk b hb fun hcross => acc_of_ways hnext (hj.2 k hk) fun hs =>
          hleave ((hab.trans hcross).tail hs)
      obtain rfl | rfl | ⟨k, hk, hin⟩ := inside_join hj ha
      · refine Acc.intro _ fun b hs => ?_
        obtain ⟨t, ht, rfl⟩ := inner_of_ways hj.1 (hnext _ _ hs)
        obtain ⟨k, hk, rfl⟩ := List.mem_map.1 ht
        exact inside k hk _ .refl (.single hs)
      · exact hleave .refl
      · exact inside k hk a hin .refl
  | @star f body back _ hbody hentry hstop hback ih =>
    intro a ha hleave
    -- From the entry, the body is not crossed without leaving the walk.
    have entry (hae : ReflTransGen next a f.start) : Acc (fun b a => next a b) f.start := by
      refine Acc.intro _ fun b hs => ?_
      obtain ⟨t, ht, rfl⟩ := inner_of_ways hentry (hnext _ _ hs)
      rcases List.mem_pair.1 ht with rfl | rfl
      · exact ih _ .refl fun hcross => absurd hcross (hloops body hbody)
      · exact hleave (hae.tail hs)
    have turn (hab : ReflTransGen next a back) : Acc (fun b a => next a b) back :=
      acc_of_ways hnext hback fun hs => entry (hab.tail hs)
    obtain rfl | rfl | rfl | hin := inside_star hentry hstop hback ha
    · exact entry .refl
    · exact hleave .refl
    · exact turn .refl
    · exact ih a hin fun hcross => acc_of_ways hnext hstop fun hs => turn (hcross.tail hs)
  | @plus f body back _ hbody hstart hstop hback ih =>
    intro a ha hleave
    -- Once the walk turns back, it does not come through the body again.
    have turn (hab : ReflTransGen next a back) : Acc (fun b a => next a b) back := by
      refine Acc.intro _ fun b hs => ?_
      obtain ⟨t, ht, rfl⟩ := inner_of_ways hback (hnext _ _ hs)
      rcases List.mem_pair.1 ht with rfl | rfl
      · exact ih _ .refl fun hcross => absurd hcross (hloops body hbody)
      · exact hleave (hab.tail hs)
    obtain rfl | rfl | hin := inside_plus hstart hstop hback ha
    · exact hleave .refl
    · exact turn .refl
    · exact ih a hin fun hcross => acc_of_ways hnext hstop fun hs => turn (hcross.tail hs)

end Walks

end Fragment

/-! ## Fragments that are put together -/

namespace Builder

/-- A fragment of a builder coheres. -/
abbrev Coheres (b : Builder σ) (f : Fragment) : Prop :=
  Fragment.Coheres b.ways b.loops f

variable {b b' : Builder σ} {used : List StateId} {f g : Fragment}

/-- A step that uses up ends only leaves the fragments as they are. -/
theorem Yields.coheres (h : b.Yields b' used f) (hused : ∀ id ∈ used, b.ways id = some [])
    (hg : b.Coheres g) : b'.Coheres g := by
  refine hg.mono (fun id ts hne hw => h.ways id ts (fun hid => hne ?_) hw) h.loops
  exact Option.some.inj (hw.symm.trans (hused id hid))

end Builder

namespace Build

open Builder

variable {b b' : Builder σ} {used : List (Fragment × Body σ)} {op : Build σ Fragment}
  {body : Body σ} {f : Fragment}

theorem element_coheres {l : Label} (hl : ∀ id, Fragment.innerStep ⟨id, l⟩ = id)
    (h : element l b = (.ok f, b')) : b'.Coheres f :=
  .step (element_yields h).2 (hl _)

theorem Makes.isStepOn (h : Makes used op body) {own : List Fragment}
    (hused : ∀ p ∈ used, p.1 ∈ own) : IsStepOn own op := by
  have hown : ∀ f ∈ used.map Prod.fst, f ∈ own := by
    intro f hf
    obtain ⟨p, hp, rfl⟩ := List.mem_map.1 hf
    exact hused p hp
  cases h with
  | token type => exact .token type
  | range low high => exact .range low high
  | oneOf types => exact .oneOf types
  | noneOf types => exact .noneOf types
  | wildcard => exact .wildcard
  | epsilon => exact .epsilon
  | call name => exact .call name
  | predicate p => exact .predicate p
  | action a => exact .action a
  | sequence => exact .sequence hown
  | block => exact .block hown
  | optional => exact .optional hown
  | star _ greediness => exact .star greediness hown
  | plus _ greediness => exact .plus greediness hown

/-- The fragment that is made coheres, if those do that it is made of. -/
theorem Makes.coheres (h : Makes used op body) (hop : op b = (.ok f, b'))
    (ho : AreOpen b (used.map Prod.fst)) (hused : ∀ p ∈ used, b.Coheres p.1) : b'.Coheres f := by
  -- The fragments that are used are still what they were, up to the ways from their ends.
  have kept {f' : Fragment} (hyields : b.Yields b' ((used.map Prod.fst).map Fragment.stop) f') :
      ∀ g ∈ used.map Prod.fst, b'.Coheres g := by
    intro g hg
    obtain ⟨p, hp, rfl⟩ := List.mem_map.1 hg
    refine hyields.coheres (fun id hid => ?_) (hused p hp)
    obtain ⟨g, hg, rfl⟩ := List.mem_map.1 hid
    exact ho.ways g hg
  cases h with
  | token type => exact element_coheres (fun _ => rfl) hop
  | range low high => exact element_coheres (fun _ => rfl) (element_of_range hop)
  | oneOf types => exact element_coheres (fun _ => rfl) (element_of_oneOf hop)
  | noneOf types => exact element_coheres (fun _ => rfl) hop
  | wildcard => exact element_coheres (fun _ => rfl) hop
  | epsilon =>
    obtain ⟨start, stop⟩ := f
    obtain rfl : start = stop := (epsilon_yields hop).2
    exact .point start
  | call name =>
    obtain ⟨_, n, _, _, _, hstart⟩ := call_yields hop
    exact .step hstart rfl
  | predicate p =>
    exact element_coheres (b := { b with predicates := b.predicates.push p })
      (l := .predicate b.predicates.size) (fun _ => rfl) hop
  | action a =>
    exact element_coheres (b := { b with actions := b.actions.push a })
      (l := .action b.actions.size) (fun _ => rfl) hop
  | sequence =>
    obtain ⟨hyields, ⟨_, hsame⟩ | ⟨first, last, hfirst, hlast, rfl, hchained⟩⟩ :=
      sequence_yields hop ho
    · obtain ⟨start, stop⟩ := f
      obtain rfl : start = stop := hsame
      exact .point start
    · exact .chain (kept hyields) hchained hfirst hlast
  | block =>
    obtain ⟨hyields, hjoined⟩ := block_yields hop ho
    exact .join (kept hyields) hjoined
  | optional =>
    obtain ⟨hyields, id, hjoined⟩ := optional_yields hop ho
    refine .join (fun g hg => ?_) hjoined
    rcases List.mem_append.1 hg with hg | hg
    · exact kept hyields g hg
    · rw [List.mem_singleton.1 hg]
      exact .point id
  | star =>
    obtain ⟨hyields, body, back, hrecords, hentry, hstop, hback, _⟩ := star_yields hop ho
    exact .star (.join (kept hyields) hrecords.isJoined) hrecords.mem hentry hstop hback
  | plus =>
    obtain ⟨hyields, body, back, hrecords, hstart, hstop, hback, _⟩ := plus_yields hop ho
    exact .plus (.join (kept hyields) hrecords.isJoined) hrecords.mem hstart hstop hback

end Build

namespace Builder

variable {b b' : Builder σ} {pool : List (Fragment × Body σ)} {rules : List (RuleDefinition σ)}

/-- What is left of the fragments that have been put together coheres. -/
theorem Assembles.coheres (h : b.Assembles b' pool) : ∀ p ∈ pool, b'.Coheres p.1 := by
  induction h with
  | nothing => exact nofun
  | @step b₁ b₂ pool used rest f op body hassembles hmakes hperm hop ih =>
    obtain ⟨ho, hlies⟩ := hassembles.holds.of_perm hperm
    intro p hp
    rcases List.mem_cons.1 hp with rfl | hp
    · exact hmakes.coheres hop ho fun p hp => ih p (hperm.mem_iff.1 (List.mem_append_left rest hp))
    · refine (hmakes.yields hop ho hlies).1.coheres (fun id hid => ?_)
        (ih p (hperm.mem_iff.1 (List.mem_append_right used hp)))
      obtain ⟨g, hg, rfl⟩ := List.mem_map.1 hid
      exact ho.ways g hg

/-- A rule that is defined lies between its bounds, as a fragment that coheres. -/
def HasCohesion (b : Builder σ) (bounds : Fragment) : Prop :=
  b.IsEnd bounds.stop ∧ b.Coheres bounds

/-- Every rule that is defined coheres. -/
theorem Defines.hasCohesion (h : b.Defines rules) {n : Nat} {draft : RuleDraft σ}
    {bounds : Fragment} (hdraft : b.rules[n]? = some draft) (hbounds : draft.bounds = some bounds) :
    b.HasCohesion bounds := by
  induction h generalizing n draft bounds with
  | nothing => cases hdraft
  | @rule b b₁ b₂ b₃ rules name signature id pool f body _ hopen hassembles hmem hclose ih =>
    obtain ⟨m, _, _, hrule⟩ := exists_definesRule hopen hassembles hmem hclose
    rcases hrule.known n draft hdraft with rfl | hdraft | hnone
    · cases hrule.rule.symm.trans hdraft
      cases hrule.hasBounds.symm.trans hbounds
      refine ⟨hrule.isEnd, ?_⟩
      -- The rule is the chain of its start, its body and its stop.
      have hbody : b₃.Coheres f := (hassembles.coheres _ hmem).mono hrule.keeps hrule.grows.loops
      have hparts : ∀ g ∈ [⟨bounds.start, bounds.start⟩, f, ⟨bounds.stop, bounds.stop⟩],
          b₃.Coheres g := by
        simp only [List.forall_mem_cons]
        exact ⟨.point _, hbody, .point _, List.forall_mem_nil _⟩
      have hchain := Fragment.Coheres.chain hparts ⟨hrule.start, hrule.stop, trivial⟩ rfl rfl
      exact hchain
    · obtain ⟨hisEnd, hcoheres⟩ := ih hdraft hbounds
      exact ⟨hrule.retains.isEnd _ hisEnd, hcoheres.mono hrule.ways hrule.retains.loops⟩
    · rw [hnone] at hbounds
      cases hbounds

/-- To put bodies together is to compose them. -/
theorem Assembles.isComposed (h : b.Assembles b' pool) {own : List Fragment}
    (hb : b.IsComposed own) :
    ∃ own', b'.IsComposed own' ∧ b'.current = b.current ∧ ∀ p ∈ pool, p.1 ∈ own' := by
  induction h with
  | nothing => exact ⟨own, hb, rfl, nofun⟩
  | step _ hmakes hperm hop ih =>
    obtain ⟨own₁, hb₁, hcurrent, hpool⟩ := ih
    have hstep := hmakes.isStepOn fun p hp =>
      hpool p (hperm.mem_iff.1 (List.mem_append_left _ hp))
    obtain ⟨own₂, hb₂, hcurrent', hown, hmade⟩ := adds_of_isStepOn hstep _ hb₁
    rw [hop] at hb₂ hcurrent' hmade
    refine ⟨own₂, hb₂, hcurrent'.trans hcurrent, List.forall_mem_cons.2 ⟨?_, fun p hp => ?_⟩⟩
    · exact hmade _ rfl (List.mem_singleton.2 rfl)
    · exact hown (hpool p (hperm.mem_iff.1 (List.mem_append_right _ hp)))

/-- To define rules in this way is to compose them. -/
theorem Defines.isComposed (h : b.Defines rules) : ∃ own, b.IsComposed own := by
  induction h with
  | nothing => exact ⟨[], .empty⟩
  | @rule _ _ _ _ _ name signature _ _ _ _ _ hopen hassembles hmem hclose ih =>
    obtain ⟨own, hb⟩ := ih
    have hopened := hb.openRule name signature
    rw [hopen] at hopened
    obtain ⟨own', hb', hcurrent, hpool⟩ := hassembles.isComposed hopened
    have hclosed := hb'.closeRule (hcurrent.trans (Build.current_of_openRule hopen))
      (hpool _ hmem)
    rw [hclose] at hclosed
    exact ⟨[], hclosed⟩

theorem Defines.isComposed_grammar (h : b.Defines rules) {g : Grammar σ}
    (hg : (Build.finish b).1 = .ok g) : g.IsComposed := by
  obtain ⟨own, hb⟩ := h.isComposed
  exact ⟨b, own, hb, hg⟩

end Builder

end AdaptiveLL
