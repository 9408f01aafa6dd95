import AdaptiveLL.Proofs.Grammar.Assembly

/-!
# The loops of a grammar

A builder records the bodies of the loops that are made in it, to check them in the end. If
nothing is left over of what is put together (`Builder.DefinesExactly`), it has recorded just
the loops of the bodies that the rules are defined by (`Builder.DefinesExactly.tallies`).

The construction of some rules comes to a grammar, or to the failure of one of its steps
(`Grammar.Constructs`). That of rules that are given by their bodies is one
(`Grammar.constructs_ofRules`).
-/

namespace AdaptiveLL

open Relation

variable {σ : Type}

/-! ## The parts of a body -/

namespace Body

/-- The bodies that a body is put together out of. -/
def parts : Body σ → List (Body σ)
  | .sequence parts => parts
  | .block alternatives => alternatives
  | .optional alternatives => alternatives
  | .star alternatives _ => alternatives
  | .plus alternatives _ => alternatives
  | _ => []

/-- One body is part of another, or is this itself. -/
def IsPartOf : Body σ → Body σ → Prop :=
  ReflTransGen fun part body => part ∈ body.parts

/-- A body is a star or a plus of some alternatives. -/
def IsLoop (alternatives : List (Body σ)) (body : Body σ) : Prop :=
  ∃ greediness, body = .star alternatives greediness ∨ body = .plus alternatives greediness

/-- Some alternatives are repeated by a star or a plus in a body. -/
def Repeats (body : Body σ) (alternatives : List (Body σ)) : Prop :=
  ∃ loop : Body σ, loop.IsPartOf body ∧ loop.IsLoop alternatives

variable {body part : Body σ} {alternatives : List (Body σ)}

theorem IsLoop.parts (h : body.IsLoop alternatives) : body.parts = alternatives := by
  obtain ⟨_, rfl | rfl⟩ := h <;> rfl

/-- What is repeated in a body is repeated by itself or in one of its parts. -/
theorem repeats_iff : body.Repeats alternatives ↔
    body.IsLoop alternatives ∨ ∃ part ∈ body.parts, part.Repeats alternatives := by
  constructor
  · rintro ⟨loop, hpart, hloop⟩
    obtain rfl | ⟨part, hpart, hmem⟩ := hpart.cases_tail
    · exact .inl hloop
    · exact .inr ⟨part, hmem, loop, hpart, hloop⟩
  · rintro (hloop | ⟨part, hmem, loop, hpart, hloop⟩)
    · exact ⟨body, .refl, hloop⟩
    · exact ⟨loop, hpart.tail hmem, hloop⟩

end Body

namespace Build

open Builder

variable {b b' : Builder σ} {used : List (Fragment × Body σ)} {op : Build σ Fragment}
  {body : Body σ} {f : Fragment}

/-- A body is put together out of those that it is made of. -/
theorem Makes.parts (h : Makes used op body) : body.parts = used.map Prod.snd := by
  cases h <;> rfl

/-- A step makes a loop, or obeys every frame. -/
theorem Makes.obeys_or_isLoop {R : Builder σ → Option BuildError → Builder σ → Prop}
    (frame : IsFrame R) (h : Makes used op body) :
    (Obeys R op ∧ ∀ alternatives, ¬body.IsLoop alternatives) ∨
      ∃ greediness, IsLoop (used.map Prod.fst) greediness op ∧ body.IsLoop body.parts := by
  have other {body : Body σ} (hstar : ∀ as greediness, body ≠ .star as greediness)
      (hplus : ∀ as greediness, body ≠ .plus as greediness) (alternatives : List (Body σ)) :
      ¬body.IsLoop alternatives := by
    rintro ⟨greediness, h | h⟩
    · exact hstar _ _ h
    · exact hplus _ _ h
  cases h with
  | token | noneOf | wildcard =>
    exact .inl ⟨element_obeys frame _, other (by simp) (by simp)⟩
  | range => exact .inl ⟨range_obeys frame _ _, other (by simp) (by simp)⟩
  | oneOf => exact .inl ⟨oneOf_obeys frame _, other (by simp) (by simp)⟩
  | epsilon => exact .inl ⟨epsilon_obeys frame, other (by simp) (by simp)⟩
  | call => exact .inl ⟨call_obeys frame _, other (by simp) (by simp)⟩
  | predicate => exact .inl ⟨predicate_obeys frame _, other (by simp) (by simp)⟩
  | action => exact .inl ⟨action_obeys frame _, other (by simp) (by simp)⟩
  | sequence => exact .inl ⟨sequence_obeys frame _, other (by simp) (by simp)⟩
  | block => exact .inl ⟨block_obeys frame _, other (by simp) (by simp)⟩
  | optional => exact .inl ⟨optional_obeys frame _, other (by simp) (by simp)⟩
  | star parts greediness => exact .inr ⟨greediness, .star, greediness, .inl rfl⟩
  | plus parts greediness => exact .inr ⟨greediness, .plus, greediness, .inr rfl⟩

/-- A loop records its body. -/
theorem IsLoop.records {fs : List Fragment} {greediness : Greediness}
    (h : IsLoop fs greediness op) (hop : op b = (.ok f, b')) (ho : AreOpen b fs) :
    ∃ body, Records b b' fs body := by
  cases h with
  | star =>
    obtain ⟨_, body, _, hrecords, _⟩ := star_yields hop ho
    exact ⟨body, hrecords⟩
  | plus =>
    obtain ⟨_, body, _, hrecords, _⟩ := plus_yields hop ho
    exact ⟨body, hrecords⟩

end Build

/-! ## The loops that are recorded -/

namespace Body

/-- The alternatives that stars and pluses in some bodies repeat. -/
def repeated (bodies : List (Body σ)) : Set (List (Body σ)) :=
  {alternatives | ∃ body ∈ bodies, body.Repeats alternatives}

variable {bodies bodies' : List (Body σ)} {body : Body σ}

theorem repeated_append :
    repeated (bodies ++ bodies') = repeated bodies ∪ repeated bodies' := by
  ext alternatives
  simp [repeated, or_and_right, exists_or]

theorem repeated_perm (h : bodies.Perm bodies') : repeated bodies = repeated bodies' := by
  ext alternatives
  simp [repeated, h.mem_iff]

theorem repeated_singleton (body : Body σ) :
    repeated [body] = {alternatives | body.IsLoop alternatives} ∪ repeated body.parts := by
  ext alternatives
  simp only [repeated, Set.mem_union, Set.mem_ofPred_eq, List.mem_singleton, exists_eq_left]
  exact repeats_iff

end Body

namespace Builder

variable {b b₁ b₂ b₃ b' : Builder σ} {body : Body σ} {f : Fragment} {bodies : List (Body σ)}
  {loops : Set (List (Body σ))} {pool used : List (Fragment × Body σ)} {id : RuleId}
  {name : String} {signature : Signature σ} {rules : List (RuleDefinition σ)}

/-- A body lies in a fragment, whatever leads on from the end of this. -/
def LiesAlone (b : Builder σ) (body : Body σ) (f : Fragment) : Prop :=
  Body.Lies (Function.update b.ways f.stop (some [])) b.Calls body f

theorem LiesAlone.mono (hretains : b.Retains b')
    (hways : ∀ id ts, ts ≠ [] → b.ways id = some ts → b'.ways id = some ts)
    (h : b.LiesAlone body f) : b'.LiesAlone body f := by
  refine lies_of_retains hretains (fun id ts hne hw => ?_) h
  rw [Function.update_apply] at hw ⊢
  split at hw
  · next hid => rwa [if_pos hid]
  · next hid => rw [if_neg hid, hways id ts hne hw]

/-- The bodies of loops that are recorded are those of some loops. -/
structure Tallies (b : Builder σ) (loops : Set (List (Body σ))) : Prop where
  recorded : ∀ alternatives ∈ loops, ∃ f ∈ b.loops, b.LiesAlone (.block alternatives) f
  known : ∀ f ∈ b.loops, ∃ alternatives ∈ loops, b.LiesAlone (.block alternatives) f

theorem Tallies.mono (h : b.Tallies loops) (hretains : b.Retains b')
    (hways : ∀ id ts, ts ≠ [] → b.ways id = some ts → b'.ways id = some ts)
    (hloops : b'.loops = b.loops) : b'.Tallies loops where
  recorded alternatives hmem :=
    (h.recorded alternatives hmem).imp fun _ hf => ⟨hloops ▸ hf.1, hf.2.mono hretains hways⟩
  known f hf :=
    (h.known f (hloops ▸ hf)).imp fun _ ha => ⟨ha.1, ha.2.mono hretains hways⟩

/-- One more loop is recorded. -/
theorem Tallies.insert (h : b.Tallies loops) (hretains : b.Retains b')
    (hways : ∀ id ts, ts ≠ [] → b.ways id = some ts → b'.ways id = some ts)
    (hloops : b'.loops = b.loops ++ [f]) {alternatives : List (Body σ)}
    (hlies : b'.LiesAlone (.block alternatives) f) :
    b'.Tallies ({alternatives} ∪ loops) where
  recorded := by
    rintro as (rfl | hmem)
    · exact ⟨f, by simp [hloops], hlies⟩
    · obtain ⟨g, hg, hlies⟩ := h.recorded as hmem
      exact ⟨g, hloops ▸ List.mem_append_left _ hg, hlies.mono hretains hways⟩
  known g hg := by
    rw [hloops] at hg
    rcases List.mem_append.1 hg with hg | hg
    · obtain ⟨as, hmem, hlies⟩ := h.known g hg
      exact ⟨as, .inr hmem, hlies.mono hretains hways⟩
    · obtain rfl := List.mem_singleton.1 hg
      exact ⟨alternatives, .inl rfl, hlies⟩

/-- A step keeps the ways on, as it uses up only ends that have none. -/
theorem Yields.keeps (h : b.Yields b' ((used.map Prod.fst).map Fragment.stop) f)
    (ho : Build.AreOpen b (used.map Prod.fst)) {id : StateId} {ts : List Transition}
    (hne : ts ≠ []) (hw : b.ways id = some ts) : b'.ways id = some ts := by
  refine h.ways id ts (fun hid => ?_) hw
  obtain ⟨g, hg, rfl⟩ := List.mem_map.1 hid
  rw [ho.ways g hg] at hw
  exact hne (Option.some.inj hw).symm

/-- A loop that is recorded has a body that lies where it is recorded. -/
theorem liesAlone_of_records {g : Fragment} (hrecords : Build.Records b b' (used.map Prod.fst) g)
    (hyields : b.Yields b' ((used.map Prod.fst).map Fragment.stop) f)
    (ho : Build.AreOpen b (used.map Prod.fst)) (hused : ∀ p ∈ used, b.Lies p.2 p.1) :
    b'.LiesAlone (.block (used.map Prod.snd)) g := by
  refine .block ?_ hrecords.joined
  rw [List.forall₂_map_left_iff, List.forall₂_map_right_iff, List.forall₂_same]
  refine fun p hp => lies_of_retains hyields.toRetains (fun id ts hne hw => ?_) (hused p hp)
  have hid : id ≠ g.stop := by
    rintro rfl
    exact hne (hrecords.bare ts hw)
  rw [Function.update_of_ne hid, hyields.keeps ho hne hw]

/-- While bodies are put together, their loops are recorded. -/
theorem Assembles.tallies (h : b.Assembles b' pool) (hb : b.Tallies loops) :
    b'.Tallies (Body.repeated (pool.map Prod.snd) ∪ loops) := by
  induction h with
  | nothing => simpa [Body.repeated] using hb
  | @step b₁ b₂ pool used rest f op body hassembles hmakes hperm hop ih =>
    obtain ⟨ho, hused⟩ := hassembles.holds.of_perm hperm
    have hyields := (hmakes.yields hop ho hused).1
    -- The loops of what is used are those of the parts of what is made.
    have hrest : Body.repeated (pool.map Prod.snd) =
        Body.repeated body.parts ∪ Body.repeated (rest.map Prod.snd) := by
      rw [← Body.repeated_perm (hperm.map _), List.map_append, Body.repeated_append, hmakes.parts]
    have hmade : Body.repeated (((f, body) :: rest).map Prod.snd) ∪ loops =
        {alternatives | body.IsLoop alternatives} ∪
          (Body.repeated (pool.map Prod.snd) ∪ loops) := by
      rw [List.map_cons, ← List.singleton_append, Body.repeated_append, Body.repeated_singleton,
        hrest, Set.union_assoc, Set.union_assoc, Set.union_assoc]
    have hkeeps (id : StateId) (ts : List Transition) (hne : ts ≠ [])
        (hw : b₁.ways id = some ts) : b₂.ways id = some ts := hyields.keeps ho hne hw
    rw [hmade]
    obtain ⟨hobeys, hnot⟩ | ⟨greediness, hloop, hbody⟩ :=
      hmakes.obeys_or_isLoop Build.ignoresLoops_isFrame
    · have hnone : {alternatives | body.IsLoop alternatives} = ∅ := by
        ext alternatives
        simp [hnot alternatives]
      rw [hnone, Set.empty_union]
      exact ih.mono hyields.toRetains hkeeps (hobeys.of_ok hop).1
    · obtain ⟨g, hrecords⟩ := hloop.records hop ho
      have hone : {alternatives | body.IsLoop alternatives} = {used.map Prod.snd} := by
        ext alternatives
        rw [Set.mem_ofPred_eq, Set.mem_singleton_iff, ← hmakes.parts]
        exact ⟨fun h => h.parts.symm, fun h => h ▸ hbody⟩
      rw [hone]
      exact ih.insert hyields.toRetains hkeeps hrecords.loops
        (liesAlone_of_records hrecords hyields ho hused)

/-! ## Rules that are defined by all that is put together -/

/-- The loops that are recorded are those of the bodies of the rules. -/
theorem DefinesExactly.tallies (h : b.DefinesExactly rules) :
    b.Tallies (Body.repeated (rules.map RuleDefinition.body)) := by
  induction h with
  | nothing =>
    constructor
    case recorded =>
      rintro alternatives ⟨body, hbody, _⟩
      cases hbody
    case known =>
      intro f hf
      cases hf
  | @rule b b₁ b₂ b₃ rules r id f _ hopen hassembles hclose ih =>
    obtain ⟨hretains, hways, _⟩ := openRule_spec hopen
    have hopened := ih.mono hretains (fun id ts _ hw => hways id ts hw)
      ((Build.openRule_obeys Build.ignoresLoops_isFrame _ _).of_ok hopen).1
    obtain ⟨_, _, _, hrule⟩ := exists_definesRule hopen hassembles List.mem_cons_self hclose
    have hclosed := (hassembles.tallies hopened).mono hrule.grows.toRetains hrule.keeps
      ((Build.closeRule_obeys Build.ignoresLoops_isFrame _ _).of_ok hclose).1
    rwa [List.map_append, Body.repeated_append, Set.union_comm]

end Builder

/-! ## Constructions -/

/-- On the way from a builder to a body, a step fails that makes part of it. -/
def Builder.Fails (b : Builder σ) (body : Body σ) (e : BuildError) : Prop :=
  ∃ (b' : Builder σ) (pool used rest : List (Fragment × Body σ)) (op : Build σ Fragment)
    (part : Body σ), b.Assembles b' pool ∧ Build.Makes used op part ∧ (used ++ rest).Perm pool ∧
      part.IsPartOf body ∧ (op b').1 = .error e

/-- What the construction of a grammar of some rules comes to: the failure of one of its steps,
    or what it gives in the end. It does not matter in which order the parts of a body are put
    together. -/
inductive Grammar.Constructs (rules : List (RuleDefinition σ)) :
    Except BuildError (Grammar σ) → Prop
  | openRule {b : Builder σ} {done rest : List (RuleDefinition σ)} {r : RuleDefinition σ}
    {e : BuildError} : b.DefinesExactly done → rules = done ++ r :: rest →
    (Build.openRule r.name r.signature b).1 = .error e → Constructs rules (.error e)
  | step {b b₁ : Builder σ} {done rest : List (RuleDefinition σ)} {r : RuleDefinition σ}
    {id : RuleId} {e : BuildError} : b.DefinesExactly done → rules = done ++ r :: rest →
    Build.openRule r.name r.signature b = (.ok id, b₁) → b₁.Fails r.body e →
    Constructs rules (.error e)
  | closeRule {b b₁ b₂ : Builder σ} {done rest : List (RuleDefinition σ)} {r : RuleDefinition σ}
    {id : RuleId} {f : Fragment} {e : BuildError} : b.DefinesExactly done →
    rules = done ++ r :: rest → Build.openRule r.name r.signature b = (.ok id, b₁) →
    b₁.Assembles b₂ [(f, r.body)] → (Build.closeRule id f b₂).1 = .error e →
    Constructs rules (.error e)
  | finish {b : Builder σ} : b.DefinesExactly rules → Constructs rules (Build.finish b).1

section OfRules

variable {b b₁ b₂ : Builder σ} {pool : List (Fragment × Body σ)} {e : BuildError}

theorem Builder.Fails.of_part {part body : Body σ} (hpart : part ∈ body.parts)
    (h : b.Fails part e) : b.Fails body e := by
  obtain ⟨b', pool, used, rest, op, inner, hassembles, hmakes, hperm, hinner, hop⟩ := h
  exact ⟨b', pool, used, rest, op, inner, hassembles, hmakes, hperm, hinner.tail hpart, hop⟩

mutual

/-- If a body cannot be built, that is because of one of its parts. -/
theorem Body.fails_of_build (body : Body σ) {b₁ b₂ : Builder σ} {pool : List (Fragment × Body σ)}
    (h : b.Assembles b₁ pool) (hbuild : body.build b₁ = (.error e, b₂)) : b.Fails body e := by
  have alone {made : Body σ} {op : Build σ Fragment} (hmakes : Build.Makes [] op made)
      (hop : op b₁ = (.error e, b₂)) : b.Fails made e :=
    ⟨b₁, pool, [], pool, op, made, h, hmakes, .refl _, .refl, congrArg Prod.fst hop⟩
  have combine {made : Body σ} {bodies : List (Body σ)} (op : List Fragment → Build σ Fragment)
      (hall : ∀ {b'}, Body.buildAll bodies b₁ = (.error e, b') → ∃ part ∈ bodies, b.Fails part e)
      (hparts : made.parts = bodies)
      (hmakes : ∀ parts : List (Fragment × Body σ), parts.map Prod.snd = bodies →
        Build.Makes parts (op (parts.map Prod.fst)) made)
      (hop : (do op (← Body.buildAll bodies)) b₁ = (.error e, b₂)) : b.Fails made e := by
    obtain herror | ⟨fs, b', hfs, hop⟩ := error_of_bind_apply hop
    · obtain ⟨part, hpart, hfails⟩ := hall herror
      exact hfails.of_part (hparts ▸ hpart)
    · obtain ⟨parts, pool', rfl, hbodies, hassembles, hperm⟩ := Body.assembles_buildAll bodies h hfs
      exact ⟨b', pool', parts, pool, _, made, hassembles, hmakes parts hbodies, hperm, .refl,
        congrArg Prod.fst hop⟩
  match body with
  | .token type => exact alone (.token type) hbuild
  | .range low high => exact alone (.range low high) hbuild
  | .oneOf types => exact alone (.oneOf types) hbuild
  | .noneOf types => exact alone (.noneOf types) hbuild
  | .wildcard => exact alone .wildcard hbuild
  | .epsilon => exact alone .epsilon hbuild
  | .call name => exact alone (.call name) hbuild
  | .predicate p => exact alone (.predicate p) hbuild
  | .action a => exact alone (.action a) hbuild
  | .sequence parts =>
    exact combine Build.sequence (Body.fails_of_buildAll parts h) rfl
      (fun _ he => he ▸ .sequence _) hbuild
  | .block parts =>
    exact combine Build.block (Body.fails_of_buildAll parts h) rfl (fun _ he => he ▸ .block _)
      hbuild
  | .optional parts =>
    exact combine Build.optional (Body.fails_of_buildAll parts h) rfl
      (fun _ he => he ▸ .optional _) hbuild
  | .star parts greediness =>
    exact combine (fun fs => Build.star fs greediness) (Body.fails_of_buildAll parts h) rfl
      (fun _ he => he ▸ .star _ greediness) hbuild
  | .plus parts greediness =>
    exact combine (fun fs => Build.plus fs greediness) (Body.fails_of_buildAll parts h) rfl
      (fun _ he => he ▸ .plus _ greediness) hbuild

theorem Body.fails_of_buildAll (bodies : List (Body σ)) {b₁ b₂ : Builder σ}
    {pool : List (Fragment × Body σ)} (h : b.Assembles b₁ pool)
    (hbuild : Body.buildAll bodies b₁ = (.error e, b₂)) : ∃ body ∈ bodies, b.Fails body e := by
  match bodies with
  | [] => cases hbuild
  | body :: rest =>
    obtain hbody | ⟨f, b', hbody, hbuild⟩ := error_of_bind_apply hbuild
    · exact ⟨body, List.mem_cons_self, Body.fails_of_build body h hbody⟩
    obtain hrest | ⟨fs, b'', _, hbuild⟩ := error_of_bind_apply hbuild
    · obtain ⟨part, hpart, hfails⟩ :=
        Body.fails_of_buildAll rest (Body.assembles_build body h hbody) hrest
      exact ⟨part, List.mem_cons_of_mem _ hpart, hfails⟩
    · cases hbuild

end

namespace Grammar

/-- If the rules that are left cannot be defined, the construction of all of them has failed. -/
theorem constructs_of_define {rules done rest : List (RuleDefinition σ)}
    (hrules : rules = done ++ rest) {b b' : Builder σ} (h : b.DefinesExactly done)
    (hdefine : define rest b = (.error e, b')) : Constructs rules (.error e) := by
  induction rest generalizing b done with
  | nil => cases hdefine
  | cons r rest ih =>
    obtain hrule | ⟨_, b₁, hrule, hrest⟩ := error_of_bind_apply hdefine
    · obtain hopen | ⟨id, c₁, hopen, hrule⟩ := error_of_bind_apply hrule
      · exact .openRule h hrules (congrArg Prod.fst hopen)
      obtain hbody | ⟨f, c₂, hbody, hrule⟩ := error_of_bind_apply hrule
      · exact .step h hrules hopen (r.body.fails_of_build .nothing hbody)
      have hassembles := r.body.assembles_build .nothing hbody
      obtain hclose | ⟨_, c₃, _, hrule⟩ := error_of_bind_apply hrule
      · exact .closeRule h hrules hopen hassembles (congrArg Prod.fst hclose)
      · cases hrule
    · obtain ⟨id, c₁, hopen, hrule⟩ := exists_of_bind_apply hrule
      obtain ⟨f, c₂, hbody, hrule⟩ := exists_of_bind_apply hrule
      obtain ⟨_, c₃, hclose, hrule⟩ := exists_of_bind_apply hrule
      cases hrule
      have hdefined := h.rule hopen (r.body.assembles_build .nothing hbody) hclose
      exact ih (by rw [hrules, List.append_assoc]; rfl) hdefined hrest

/-- The construction of a grammar of rules that are given by their bodies is one. -/
theorem constructs_ofRules (rules : List (RuleDefinition σ)) :
    Constructs rules (ofRules rules) := by
  rcases hdefine : define rules ({} : Builder σ) with ⟨e | ⟨⟩, b⟩
  · have hrules : ofRules rules = .error e := by
      show ((do define rules; Build.finish) ({} : Builder σ)).1 = _
      rw [bind_apply, hdefine]
    rw [hrules]
    exact constructs_of_define (List.nil_append rules).symm .nothing hdefine
  · have hrules : ofRules rules = (Build.finish b).1 := by
      show ((do define rules; Build.finish) ({} : Builder σ)).1 = _
      rw [bind_apply, hdefine]
    rw [hrules]
    exact .finish (definesExactly_define rules .nothing hdefine)

end Grammar

end OfRules

end AdaptiveLL
