import AdaptiveLL.Proofs.Grammar.Built

/-!
# Layout

A body *lies* in a fragment if the states of the fragment have just the transitions
that the body asks for, apart from the end of the fragment, from which the
surroundings lead on (`Body.Lies`). The transitions of a block lead to its
alternatives, in their order; of the two transitions of a loop the first leads to the
body and the second one out of it. No state of the fragment has any transition
besides, so nothing leads into the midst of another fragment or out of it.

A network is *laid out* for some rules if the body of each lies between the start and
the stop of the rule of its name (`Network.IsLaidOut`).
-/

namespace AdaptiveLL

variable {σ : Type}

/-- The ways on from a state that is not the stop of a rule. -/
def waysFrom (states : Array State) (id : StateId) : Option (List Transition) :=
  (numbered? states id).bind fun s => if s.kind = .ruleStop then none else some s.transitions

/-- In lists that are related element by element, each element is related to one. -/
theorem exists_of_forall₂ {α β : Type} {R : α → β → Prop} {as : List α} {bs : List β}
    (h : List.Forall₂ R as bs) {a : α} (ha : a ∈ as) : ∃ b ∈ bs, R a b := by
  induction h with
  | nil => simp at ha
  | cons hr _ ih =>
    rcases List.mem_cons.1 ha with rfl | ha
    · exact ⟨_, List.mem_cons_self, hr⟩
    · obtain ⟨b, hb, hr⟩ := ih ha
      exact ⟨b, List.mem_cons_of_mem _ hb, hr⟩

namespace Body

/-- The label of the transition that a body is made of that consumes one token. -/
def label? : Body σ → Option Label
  | .token type => some (.atom type)
  | .range low high => some (.range low high)
  | .oneOf types => some (.set (Ascending.ofList types) false)
  | .noneOf types => some (.set (Ascending.ofList types) true)
  | .wildcard => some .wildcard
  | _ => none

variable (ways : StateId → Option (List Transition)) (calls : Transition → String → StateId → Prop)

/-- Each of some fragments leads to the next. -/
def Chained : List Fragment → Prop
  | f :: g :: rest => ways f.stop = some [⟨g.start, .epsilon⟩] ∧ Chained (g :: rest)
  | _ => True

/-- A fragment is one of some alternatives, of which its transitions lead to one each. A
    single one stands for itself. -/
def IsJoined (f : Fragment) : List Fragment → Prop
  | [] => False
  | [g] => f = g
  | gs => ways f.start = some (gs.map fun g => ⟨g.start, .epsilon⟩) ∧
      ∀ g ∈ gs, ways g.stop = some [⟨f.stop, .epsilon⟩]

/-- A body lies in a fragment: apart from the end of the fragment, each state has just the
    transitions that the body asks for. -/
inductive Lies : Body σ → Fragment → Prop
  | element {body : Body σ} {f : Fragment} {l : Label} : body.label? = some l →
    ways f.start = some [⟨f.stop, l⟩] → Lies body f
  | epsilon {id : StateId} : Lies .epsilon ⟨id, id⟩
  | call {name : String} {f : Fragment} {t : Transition} : ways f.start = some [t] →
    calls t name f.stop → Lies (.call name) f
  | predicate {p : Predicate σ} {f : Fragment} {index : Int} :
    ways f.start = some [⟨f.stop, .predicate index⟩] → Lies (.predicate p) f
  | action {a : Action σ} {f : Fragment} {index : Int} :
    ways f.start = some [⟨f.stop, .action index⟩] → Lies (.action a) f
  | nothing {id : StateId} : Lies (.sequence []) ⟨id, id⟩
  | sequence {parts : List (Body σ)} {fs : List Fragment} {first last : Fragment} :
    List.Forall₂ Lies parts fs → Chained ways fs → fs.head? = some first →
    fs.getLast? = some last → Lies (.sequence parts) ⟨first.start, last.stop⟩
  | block {alternatives : List (Body σ)} {fs : List Fragment} {f : Fragment} :
    List.Forall₂ Lies alternatives fs → IsJoined ways f fs → Lies (.block alternatives) f
  | optional {alternatives : List (Body σ)} {f : Fragment} :
    Lies (.block (alternatives ++ [.epsilon])) f → Lies (.optional alternatives) f
  | star {alternatives : List (Body σ)} {greediness : Greediness} {f body : Fragment}
    {back : StateId} : Lies (.block alternatives) body →
    ways f.start = some [⟨body.start, .epsilon⟩, ⟨f.stop, .epsilon⟩] →
    ways body.stop = some [⟨back, .epsilon⟩] → ways back = some [⟨f.start, .epsilon⟩] →
    Lies (.star alternatives greediness) f
  | plus {alternatives : List (Body σ)} {greediness : Greediness} {f body : Fragment}
    {back : StateId} : Lies (.block alternatives) body → f.start = body.start →
    ways body.stop = some [⟨back, .epsilon⟩] →
    ways back = some [⟨body.start, .epsilon⟩, ⟨f.stop, .epsilon⟩] →
    Lies (.plus alternatives greediness) f

variable {ways calls}

/-- Induction along a body that lies in a fragment. -/
@[elab_as_elim]
theorem Lies.induction {P : Body σ → Fragment → Prop} {body : Body σ} {f : Fragment}
    (h : Lies ways calls body f)
    (element : ∀ {body : Body σ} {f : Fragment} {l : Label}, body.label? = some l →
      ways f.start = some [⟨f.stop, l⟩] → P body f)
    (epsilon : ∀ id, P .epsilon ⟨id, id⟩)
    (call : ∀ {name : String} {f : Fragment} {t : Transition}, ways f.start = some [t] →
      calls t name f.stop → P (.call name) f)
    (predicate : ∀ {p : Predicate σ} {f : Fragment} {index : Int},
      ways f.start = some [⟨f.stop, .predicate index⟩] → P (.predicate p) f)
    (action : ∀ {a : Action σ} {f : Fragment} {index : Int},
      ways f.start = some [⟨f.stop, .action index⟩] → P (.action a) f)
    (nothing : ∀ id, P (.sequence []) ⟨id, id⟩)
    (sequence : ∀ {parts : List (Body σ)} {fs : List Fragment} {first last : Fragment},
      List.Forall₂ P parts fs → Chained ways fs → fs.head? = some first →
      fs.getLast? = some last → P (.sequence parts) ⟨first.start, last.stop⟩)
    (block : ∀ {alternatives : List (Body σ)} {fs : List Fragment} {f : Fragment},
      List.Forall₂ P alternatives fs → IsJoined ways f fs → P (.block alternatives) f)
    (optional : ∀ {alternatives : List (Body σ)} {f : Fragment},
      P (.block (alternatives ++ [.epsilon])) f → P (.optional alternatives) f)
    (star : ∀ {alternatives : List (Body σ)} {greediness : Greediness} {f body : Fragment}
      {back : StateId}, P (.block alternatives) body →
      ways f.start = some [⟨body.start, .epsilon⟩, ⟨f.stop, .epsilon⟩] →
      ways body.stop = some [⟨back, .epsilon⟩] → ways back = some [⟨f.start, .epsilon⟩] →
      P (.star alternatives greediness) f)
    (plus : ∀ {alternatives : List (Body σ)} {greediness : Greediness} {f body : Fragment}
      {back : StateId}, P (.block alternatives) body → f.start = body.start →
      ways body.stop = some [⟨back, .epsilon⟩] →
      ways back = some [⟨body.start, .epsilon⟩, ⟨f.stop, .epsilon⟩] →
      P (.plus alternatives greediness) f) : P body f :=
  @Lies.rec σ ways calls (fun body f _ => P body f) (fun bodies fs _ => List.Forall₂ P bodies fs)
    element (epsilon _) call predicate action (nothing _)
    (fun _ hc hf hl ih => sequence ih hc hf hl) (fun _ hj ih => block ih hj)
    (fun _ ih => optional ih) (fun _ h₁ h₂ h₃ ih => star ih h₁ h₂ h₃)
    (fun _ h₁ h₂ h₃ ih => plus ih h₁ h₂ h₃) .nil (fun _ _ h hs => .cons h hs) body f h

section Map

variable {ways' : StateId → Option (List Transition)}
  {calls' : Transition → String → StateId → Prop} {body : Body σ} {f : Fragment}
  {fs : List Fragment}

theorem Chained.map (hways : ∀ id ts, ts ≠ [] → (∀ t ∈ ts, t.label = .epsilon) →
    ways id = some ts → ways' id = some ts) (h : Chained ways fs) : Chained ways' fs := by
  induction fs with
  | nil => trivial
  | cons f rest ih =>
    cases rest with
    | nil => trivial
    | cons g rest => exact ⟨hways _ _ (by simp) (by simp) h.1, ih h.2⟩

theorem IsJoined.map (hways : ∀ id ts, ts ≠ [] → (∀ t ∈ ts, t.label = .epsilon) →
    ways id = some ts → ways' id = some ts) (h : IsJoined ways f fs) : IsJoined ways' f fs := by
  match fs with
  | [_] => exact h
  | _ :: _ :: _ =>
    exact ⟨hways _ _ (by simp) (by simp) h.1, fun g hg => hways _ _ (by simp) (by simp) (h.2 g hg)⟩

theorem label?_ne_call {l : Label} (h : body.label? = some l) (callee : RuleId)
    (follow : StateId) : l ≠ .call callee follow := by
  rintro rfl
  cases body <;> cases h

/-- Where only calls are changed, states with empty ways on have the same ones. -/
theorem ways_of_epsilons (link : Transition → Transition)
    (hlink : ∀ t, (∀ callee follow, t.label ≠ .call callee follow) → link t = t)
    (hways : ∀ id ts, ts ≠ [] → ways id = some ts → ways' id = some (ts.map link))
    (id : StateId) (ts : List Transition) (hne : ts ≠ []) (hts : ∀ t ∈ ts, t.label = .epsilon)
    (h : ways id = some ts) : ways' id = some ts := by
  have hsame : ts.map link = ts.map fun t => t :=
    List.map_congr_left fun t ht => hlink t (by simp [hts t ht])
  rw [hways id ts hne h, hsame, List.map_id']

/-- A body lies in a fragment also where the states of the fragment have the same ways on,
    but for the targets of calls. -/
theorem Lies.map (link : Transition → Transition)
    (hlink : ∀ t, (∀ callee follow, t.label ≠ .call callee follow) → link t = t)
    (hways : ∀ id ts, ts ≠ [] → ways id = some ts → ways' id = some (ts.map link))
    (hcalls : ∀ t name follow, calls t name follow → calls' (link t) name follow)
    (h : Lies ways calls body f) : Lies ways' calls' body f := by
  have single {id target : StateId} {l : Label} (hl : ∀ callee follow, l ≠ .call callee follow)
      (h : ways id = some [⟨target, l⟩]) : ways' id = some [⟨target, l⟩] := by
    rw [hways id _ (List.cons_ne_nil _ _) h, List.map_singleton, hlink _ hl]
  have empty := ways_of_epsilons link hlink hways
  refine h.induction ?element ?epsilon ?call ?predicate ?action ?nothing ?sequence ?block
    ?optional ?star ?plus
  case element => exact fun hl hf => .element hl (single (label?_ne_call hl) hf)
  case epsilon => exact fun _ => .epsilon
  case call =>
    exact fun hf hc => .call (hways _ _ (List.cons_ne_nil _ _) hf) (hcalls _ _ _ hc)
  case predicate => exact fun hf => .predicate (single (by simp) hf)
  case action => exact fun hf => .action (single (by simp) hf)
  case nothing => exact fun _ => .nothing
  case sequence => exact fun ih hc hfirst hlast => .sequence ih (hc.map empty) hfirst hlast
  case block => exact fun ih hj => .block ih (hj.map empty)
  case optional => exact fun ih => .optional ih
  case star =>
    exact fun ih hentry hstop hback => .star ih (empty _ _ (by simp) (by simp) hentry)
      (single (by simp) hstop) (single (by simp) hback)
  case plus =>
    exact fun ih hstart hstop hback => .plus ih hstart (single (by simp) hstop)
      (empty _ _ (by simp) (by simp) hback)

end Map

end Body

/-! ## The ways on from some states -/

section Ways

variable {states : Array State} {s : State} {id : StateId} {ts : List Transition}

theorem waysFrom_natCast (n : Nat) : waysFrom states n =
    states[n]?.bind fun s => if s.kind = .ruleStop then none else some s.transitions := by
  rw [waysFrom, Builder.numbered?_natCast]

theorem waysFrom_eq_some_iff : waysFrom states id = some ts ↔ ∃ (n : Nat) (s : State),
    id = n ∧ states[n]? = some s ∧ s.kind ≠ .ruleStop ∧ s.transitions = ts := by
  constructor
  · intro h
    obtain ⟨s, hs, hw⟩ := Option.bind_eq_some_iff.1 h
    split at hw
    · cases hw
    · next hk =>
      rw [numbered?] at hs
      split at hs
      · cases hs
      · next hpos =>
        exact ⟨id.toNat, s, (Int.toNat_of_nonneg (by omega)).symm, hs, hk, Option.some.inj hw⟩
  · rintro ⟨n, s, rfl, hs, hk, rfl⟩
    rw [waysFrom_natCast, hs, Option.bind_some, if_neg hk]

/-- What is known of the states of all numbers is known of all states. -/
theorem ext_of_natCast {α : Type} {f g : StateId → Option α} (hf : ∀ id < 0, f id = none)
    (hg : ∀ id < 0, g id = none) (h : ∀ n : Nat, f n = g n) : f = g := by
  funext id
  obtain hlt | hge := lt_or_ge id 0
  · rw [hf id hlt, hg id hlt]
  · obtain ⟨n, rfl⟩ := Int.eq_ofNat_of_zero_le hge
    exact h n

theorem waysFrom_of_neg (h : id < 0) : waysFrom states id = none := by
  rw [waysFrom, numbered?, if_pos h, Option.bind_none]

/-- Where the states of the same numbers have the same ways on, that is so of all. -/
theorem waysFrom_ext {ways : StateId → Option (List Transition)} (hneg : ∀ id < 0, ways id = none)
    (h : ∀ n : Nat, waysFrom states n = ways n) : waysFrom states = ways :=
  ext_of_natCast (fun _ => waysFrom_of_neg) hneg h

theorem waysFrom_size : waysFrom states (states.size : Int) = none := by
  rw [waysFrom_natCast, Array.getElem?_eq_none le_rfl, Option.bind_none]

/-- A new state that is no stop has no way on. -/
theorem waysFrom_push (hk : s.kind ≠ .ruleStop) (ht : s.transitions = []) :
    waysFrom (states.push s) = Function.update (waysFrom states) states.size (some []) := by
  refine waysFrom_ext (fun id hid => ?_) fun n => ?_
  · rw [Function.update_of_ne (hid.trans_le (Int.natCast_nonneg _)).ne, waysFrom_of_neg hid]
  · rw [waysFrom_natCast, Array.getElem?_push, Function.update_apply]
    split
    · next hn =>
      rw [hn, if_pos rfl, Option.bind_some, if_neg hk, ht]
    · next hn =>
      rw [if_neg (mt Int.natCast_inj.1 hn), waysFrom_natCast]

theorem waysFrom_push_stop (hk : s.kind = .ruleStop) :
    waysFrom (states.push s) = waysFrom states := by
  refine waysFrom_ext (fun id hid => waysFrom_of_neg hid) fun n => ?_
  rw [waysFrom_natCast, waysFrom_natCast, Array.getElem?_push]
  split
  · next hn =>
    rw [Option.bind_some, if_pos hk, hn, Array.getElem?_eq_none le_rfl, Option.bind_none]
  · rfl

/-- To connect a state is to add a way on. -/
theorem waysFrom_connect {n : Nat} (t : Transition) (h : waysFrom states n = some ts) :
    waysFrom (states.modify n fun s => s.connect t) =
      Function.update (waysFrom states) n (some (ts ++ [t])) := by
  refine waysFrom_ext (fun id hid => ?_) fun m => ?_
  · rw [Function.update_of_ne (hid.trans_le (Int.natCast_nonneg _)).ne, waysFrom_of_neg hid]
  · rw [waysFrom_natCast, Array.getElem?_modify, Function.update_apply]
    split
    · next hm =>
      subst hm
      rw [waysFrom_natCast] at h
      obtain ⟨s, hs, hw⟩ := Option.bind_eq_some_iff.1 h
      split at hw
      · cases hw
      · next hk =>
        cases hw
        rw [if_pos rfl, hs, Option.map_some, Option.bind_some, State.connect, if_neg hk]
    · next hm =>
      rw [if_neg fun h => hm (Int.natCast_inj.1 h).symm, waysFrom_natCast]

/-- A change that keeps the kind of a state and its transitions keeps the ways on. -/
theorem waysFrom_modify {n : Nat} {f : State → State} (hk : ∀ s, (f s).kind = s.kind)
    (ht : ∀ s, (f s).transitions = s.transitions) :
    waysFrom (states.modify n f) = waysFrom states := by
  refine waysFrom_ext (fun id hid => waysFrom_of_neg hid) fun m => ?_
  rw [waysFrom_natCast, waysFrom_natCast, Array.getElem?_modify]
  split
  · cases states[m]? with
    | none => rfl
    | some s => rw [Option.map_some, Option.bind_some, Option.bind_some, hk, ht]
  · rfl

end Ways

/-! ## The layout of a network -/

namespace Network

variable (net : Network)

/-- The ways on from a state that is not the stop of a rule. -/
def ways : StateId → Option (List Transition) :=
  waysFrom net.states

/-- A transition calls the rule of a name, at whose start it leads, and returns to a state. -/
def Calls (t : Transition) (name : String) (follow : StateId) : Prop :=
  ∃ id rule, t.label = .call id follow ∧ net.rule id = .ok rule ∧ rule.name = name ∧
    t.target = rule.start

/-- A body lies in a fragment. -/
abbrev Lies (body : Body σ) (f : Fragment) : Prop :=
  Body.Lies net.ways net.Calls body f

/-- A body lies between the start and the stop of a rule. -/
def LiesBetween (body : Body σ) (rule : Rule) : Prop :=
  ∃ f, net.IsStop rule.stop ∧ net.ways rule.start = some [⟨f.start, .epsilon⟩] ∧
    net.Lies body f ∧ net.ways f.stop = some [⟨rule.stop, .epsilon⟩]

/-- Where names are different, a rule is found by its name. -/
theorem findRule?_of_distinct {net : Network} (h : ∀ (m n : Nat) (r s : Rule), net.rule m = .ok r →
    net.rule n = .ok s → r.name = s.name → m = n) {n : Nat} {rule : Rule}
    (hrule : net.rule n = .ok rule) : net.findRule? rule.name = some (n : Int) := by
  have hget {m : Nat} {r : Rule} : net.rule m = .ok r ↔ net.rules[m]? = some r := by
    rw [Network.rule, Builder.numbered?_natCast]
    cases net.rules[m]? <;> simp
  obtain ⟨hn, hname⟩ := Array.getElem?_eq_some_iff.1 (hget.1 hrule)
  have hfind : net.rules.toList.findIdx? (fun r => r.name == rule.name) = some n := by
    refine List.findIdx?_eq_some_iff_getElem.2 ⟨hn, by simp [hname], fun m hm => ?_⟩
    have hlt : m < net.rules.size := hm.trans hn
    intro hsame
    have he : net.rules[m].name = rule.name := by simpa using hsame
    exact hm.ne (h m n _ _ (hget.2 (Array.getElem?_eq_getElem hlt)) hrule he)
  rw [findRule?, hfind]
  rfl

/-- A network is laid out for some rules: each is found by its name, with its body between its
    start and its stop, and there are no other rules. -/
structure IsLaidOut (net : Network) (rules : List (RuleDefinition σ)) : Prop where
  find : ∀ id rule, net.rule id = .ok rule → net.findRule? rule.name = some id
  known : ∀ id rule, net.rule id = .ok rule → ∃ r ∈ rules, r.name = rule.name
  rule : ∀ r ∈ rules, ∃ id rule, net.rule id = .ok rule ∧ rule.name = r.name ∧
    net.LiesBetween r.body rule

end Network

end AdaptiveLL
