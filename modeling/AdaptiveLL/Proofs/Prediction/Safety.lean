import AdaptiveLL.Proofs.Prediction.Validity

/-!
# Predictions are safe

Whatever the automaton of a decision has been grown by, its nodes stand for configurations of
the alternatives that the decision has, under predicates that exist, and at states that exist
if those do that the current invocation and its callers return to (`Automaton.properLaw`). So
every prediction comes to a valid outcome, or is ended by a fault of a predicate or for want of
fuel, and leaves such an automaton (`Setting.run_isSafe`). In this way all caches are kept that
predictions lead to (`Cache.IsReachable.isProper`), and with each of them every prediction is
safe (`Grammar.predictAt_isSafe`).
-/

namespace AdaptiveLL

open Effect

variable {σ : Type} {net : Network} {exit : LoopExit}

/-! ## Frontiers -/

theorem isProper_startFrontier {fuel : Nat} {decision : State} {outer : List StateId} {f : Frontier}
    (h : startFrontier net exit fuel decision outer = .ok f) :
    ∀ c ∈ f.items, c.IsProper net decision := by
  have halt : ∀ c ∈ f.items, decision.HasAlt c.alt := by
    refine forall_startFrontier (fun _ _ hc => hc) (fun c d hf hc => hf.alt ▸ hc) ?_ h
    intro i t ht
    have hi := (List.getElem?_eq_some_iff.1 ht).1
    exact ⟨by dsimp only; omega, by dsimp only; omega⟩
  exact fun c hc => ⟨halt c hc, isOver_startFrontier h c hc⟩

theorem isProper_nextFrontier {fuel : Nat} {type : Int} {decision : State} {f g : Frontier}
    (hf : ∀ c ∈ f.items, c.IsProper net decision)
    (h : nextFrontier net exit fuel f type = .ok g) : ∀ c ∈ g.items, c.IsProper net decision := by
  have halt : ∀ c ∈ g.items, decision.HasAlt c.alt := by
    refine forall_nextFrontier (fun _ _ hc => hc) (fun c d hf hc => hf.alt ▸ hc) ?_
      (fun c hc => (hf c hc).alt) h
    rintro c _ ⟨t, _, _, rfl⟩ hc
    exact hc
  exact fun c hc => ⟨halt c hc, isOver_nextFrontier (fun c hc => (hf c hc).guard) h c hc⟩

/-- The configurations of a frontier stand at states that exist. -/
def Frontier.IsIn (net : Network) (f : Frontier) : Prop :=
  ∀ c ∈ f.items, net.IsIn c.point

/-- Frontiers with the same configurations stand at the same states. -/
theorem Frontier.IsIn.of_same {f g : Frontier} (hg : g.IsIn net) (h : f.same g = true) :
    f.IsIn net := by
  intro c hc
  have hforget := same_iff_forget.1 h
  obtain ⟨d, hd, he⟩ := List.mem_map.1 (hforget ▸ List.mem_map_of_mem hc)
  have hkey : d.toKey = c.toKey := congrArg (fun c => c.toKey) he
  rw [Config.point, ← hkey]
  exact hg d hd

/-! ## Automata -/

/-- A node is what is computed of its frontier, whose configurations make sense at the
    decision. -/
structure Node.IsProper (net : Network) (exit : LoopExit) (decision : State) (n : Node) : Prop where
  eq : { n with edges := [] } = Node.ofFrontier exit n.afterEnd n.frontier
  config : ∀ c ∈ n.frontier.items, c.IsProper net decision

/-- All nodes are proper, and they stand at states that exist if predictions do that start with
    them or come to them. -/
def Automaton.properLaw (net : Network) (exit : LoopExit) (decision : State) : Law where
  node n := n.IsProper net exit decision
  start outer n := n.afterEnd = false ∧
    ((∀ follow ∈ outer, net.HasState follow) → n.frontier.IsIn net)
  edge n type m := m.afterEnd = (type == Token.endOfInput) ∧
    (n.frontier.IsIn net → m.frontier.IsIn net)
  node_edges _ h := ⟨h.eq, h.config⟩
  start_edges _ h := h
  edge_edges _ _ h := h
  start_same _ _ hnend _ hsame h := ⟨hnend, fun houter => (h.2 houter).of_same hsame⟩
  edge_same _ _ hnend hmend hsame h :=
    ⟨hnend.trans (hmend.symm.trans h.1), fun hk => (h.2 hk).of_same hsame⟩

namespace Setting

variable {setting : Setting σ}

/-- The law of the automata that predictions in a setting are made with. -/
abbrev law (setting : Setting σ) : Automaton.Law :=
  Automaton.properLaw setting.grammar.toNetwork setting.exit setting.decision

/-- A fault that ends predictions: if the callers are there to return to, the fuel has run out
    or a predicate has raised it. -/
def MayFail (setting : Setting σ) (fault : Fault) : Prop :=
  (∀ follow ∈ setting.outer, setting.grammar.toNetwork.HasState follow) →
    fault = .outOfFuel ∨ setting.grammar.Raises fault

theorem settle_eq_of_isProper {n : Node}
    (h : n.IsProper setting.grammar.toNetwork setting.exit setting.decision) :
    setting.settle n = setting.settle (.ofFrontier setting.exit n.afterEnd n.frontier) := by
  have hedges : setting.settle n = setting.settle { n with edges := [] } := rfl
  rw [hedges, h.eq]

/-- What a part of a prediction comes to, unless it is ended by a fault; then the automaton is
    still proper. -/
abbrev IsSafeFor {α : Type} (setting : Setting σ) (Q : α → Trial σ → Prop) :
    Except Fault α × Trial σ → Prop :=
  IsSafe Q fun fault trial => setting.MayFail fault ∧ trial.automaton.Obeys setting.law

variable {fuel : Nat} {options : PredictOptions} {trial : Trial σ}
  (hpredicate : ∀ p ∈ setting.grammar.toNetwork.predicates, setting.grammar.HasPredicate p)
  (hnet : setting.grammar.toNetwork.IsClosed) (ha : trial.automaton.Obeys setting.law)

include hpredicate ha

/-- A proper node settles the decision by a valid outcome, if by any. -/
theorem settle_isSafe {n : Node}
    (hn : n.IsProper setting.grammar.toNetwork setting.exit setting.decision) :
    setting.IsSafeFor (fun outcome trial' =>
        (∀ o ∈ outcome, o.IsValid setting.grammar setting.decision) ∧
          trial'.automaton = trial.automaton)
      (Effect.zoom Trial.toHearing (fun hearing trial => { trial with toHearing := hearing })
        (setting.settle n) trial) := by
  rw [settle_eq_of_isProper hn]
  exact .zoom ((settle_gives hpredicate hn.config trial.toHearing).imp
    (fun _ _ hvalid => ⟨hvalid, rfl⟩) fun _ _ hraises => ⟨fun _ => .inr hraises, ha⟩)

include hnet

/-- From a proper node on, a prediction comes to a valid outcome. -/
theorem follow_isSafe (tokens : List Token) {i : Nat} {n : Node} (stop lookahead : Nat)
    (hn : trial.automaton.nodes[i]? = some n)
    (hin : (∀ follow ∈ setting.outer, setting.grammar.toNetwork.HasState follow) →
      n.frontier.IsIn setting.grammar.toNetwork) :
    setting.IsSafeFor (fun r trial' => r.1.IsValid setting.grammar setting.decision ∧
        trial'.automaton.Obeys setting.law)
      (setting.follow fuel options tokens i stop lookahead trial) := by
  induction tokens generalizing trial i n stop lookahead with
  | nil =>
    rw [follow, bind_apply, get_apply]
    dsimp only
    rw [Automaton.node_eq hn]
    refine (settle_isSafe hpredicate ha (ha.node i n hn)).bind ?_
    rintro outcome trial' ⟨hvalid, hsame⟩
    rw [← hsame] at ha
    split
    · next o => exact ⟨hvalid o rfl, ha⟩
    split
    · exact ⟨trivial, ha⟩
    · exact ⟨fun _ => .inl rfl, ha⟩
  | cons token rest ih =>
    rw [follow, bind_apply, get_apply]
    dsimp only
    rw [Automaton.node_eq hn]
    refine (settle_isSafe hpredicate ha (ha.node i n hn)).bind ?_
    rintro outcome trial' ⟨hvalid, hsame⟩
    have hproper := ha.node i n hn
    rw [← hsame] at ha hn
    split
    · next o => exact ⟨hvalid o rfl, ha⟩
    split
    · exact ⟨trivial, ha⟩
    obtain ⟨fault, hf, hnext⟩ | ⟨j, a, m, hnext, ha', hm, _, hedge⟩ :=
      next_obeys fuel trial' ha hn token.type fun f hf =>
        ⟨⟨rfl, isProper_nextFrontier hproper.config hf⟩, rfl,
          fun hc => isIn_nextFrontier hnet hc hf⟩
    · rw [bind_apply, hnext]
      exact ⟨fun houter => .inl (nextFrontier_needsFuelOnly hnet fuel _ (hin houter) fault hf), ha⟩
    · rw [bind_apply, hnext]
      exact ih ha' token.index (lookahead + 1) hm fun houter => hedge (hin houter)

/-- A prediction comes to a valid outcome, unless it is ended by a fault, and leaves a proper
    automaton. -/
theorem run_isSafe (hdecision : ∀ t ∈ setting.decision.transitions,
      setting.grammar.toNetwork.HasState t.target) :
    setting.IsSafeFor (fun r trial' => r.1.IsValid setting.grammar setting.decision ∧
        trial'.automaton.Obeys setting.law)
      (setting.run fuel options trial) := by
  have htargets (houter : ∀ follow ∈ setting.outer, setting.grammar.toNetwork.HasState follow) :
      ∀ t ∈ setting.decision.transitions,
        setting.grammar.toNetwork.IsIn ⟨t.target, setting.outer⟩ :=
    fun t ht => ⟨hdecision t ht, houter⟩
  rw [run, bind_apply]
  obtain ⟨fault, hf, hstart⟩ | ⟨i, a, n, hstart, ha', hn, _, hin⟩ :=
    start_obeys fuel trial ha fun f hf => ⟨⟨rfl, isProper_startFrontier hf⟩, rfl,
      fun houter => isIn_startFrontier hnet (htargets houter) hf⟩
  · rw [hstart]
    exact ⟨fun houter =>
      .inl (startFrontier_needsFuelOnly hnet fuel (htargets houter) fault hf), ha⟩
  · rw [hstart]
    exact follow_isSafe hpredicate hnet ha' _ _ _ hn hin

end Setting

/-! ## Caches -/

/-- Every decision has an automaton, which is proper. -/
def Cache.IsProper (g : Grammar σ) (cache : Cache) : Prop :=
  cache.Keeps g fun _ s exit a => a.Obeys (Automaton.properLaw g.toNetwork exit s)

/-- A fault that the interpreter of a grammar may end by: the fuel has run out, or a predicate,
    an action or a default has raised it. -/
def Grammar.MayFail (g : Grammar σ) (fault : Fault) : Prop :=
  fault = .outOfFuel ∨ g.Raises fault

namespace Grammar

variable {g : Grammar σ} (hg : g.IsSound) (hnet : g.toNetwork.IsClosed) {id : StateId}
  {input : Input} {stack : Stack} {fuel : Nat} {options : PredictOptions} {host : σ}

include hg

theorem IsSound.hasPredicate : ∀ p ∈ g.toNetwork.predicates, g.HasPredicate p := by
  rintro p ⟨id, ⟨target, label⟩, ht, rfl⟩
  exact hg.allows ht

include hnet

theorem run_isSafe {setting : Setting σ} (h : g.setting id input stack = .ok setting)
    {a : Automaton} (ha : a.Obeys setting.law) (fuel : Nat) (options : PredictOptions) (host : σ) :
    setting.IsSafeFor (fun r trial' => r.1.IsValid g setting.decision ∧
        trial'.automaton.Obeys setting.law)
      (setting.run fuel options { automaton := a, host }) := by
  obtain ⟨rfl, hs, _⟩ := setting_eq_ok h
  exact Setting.run_isSafe hg.hasPredicate hnet ha fun t ht => (hnet id _ hs t ht).1

/-- A prediction leaves all automata of a cache proper, even if a fault ends it. -/
theorem isProper_predictAt {cache : Cache} (h : cache.IsProper g) :
    (g.predictAt fuel options id input stack (cache, host)).2.1.IsProper g := by
  refine Cache.Keeps.predictAt hg h fun setting a hs ha => ?_
  obtain ⟨rfl, _⟩ := setting_eq_ok hs
  have hrun := run_isSafe hg hnet hs ha fuel options host
  rcases hr : setting.run fuel options { automaton := a, host } with ⟨fault | r, trial⟩ <;>
    rw [hr] at hrun
  · exact hrun.2
  · exact hrun.2

variable {cache : Cache} (h : cache.IsProper g) {s : State} (hs : g.state id = .ok s)

include h hs

/-- With a proper cache, a prediction at a decision comes to a valid outcome for its rule, unless
    it is ended by a fault of a predicate or for want of fuel. -/
theorem predictAt_isSafe (hd : s.decision.isSome = true) :
    IsSafe (fun p r => p.outcome.IsValid g s ∧ p.rule = s.rule ∧ r.1.IsProper g)
      (fun fault r => ((∀ follow ∈ stack.context, g.toNetwork.HasState follow) →
        g.MayFail fault) ∧ r.1.IsProper g)
      (g.predictAt fuel options id input stack (cache, host)) := by
  have hafter : (g.predictAt fuel options id input stack (cache, host)).2.1.IsProper g :=
    isProper_predictAt hg hnet h
  obtain ⟨number, hn⟩ := Option.isSome_iff_exists.1 hd
  obtain ⟨setting, hset, rfl⟩ := exists_setting hg hs hn input stack
  obtain ⟨rfl, _, hnumber, hexit, houter, _⟩ := setting_eq_ok hset
  obtain ⟨a, ha, hproper⟩ := h.exists_automaton hg hs hnumber hexit
    (Automaton.obeys_empty _ _ _) options
  have hrun := run_isSafe hg hnet hset hproper fuel options host
  rw [predictAt_of_ok hset ha] at hafter ⊢
  rcases hr : setting.run fuel options { automaton := a, host } with ⟨fault | r, trial⟩ <;>
    rw [hr] at hrun hafter
  · exact ⟨fun hstack => hrun.1 (houter ▸ hstack), hafter⟩
  · exact ⟨hrun.1, rfl, hafter⟩

theorem isValid_of_predictAt {p : Prediction}
    (hp : (g.predictAt fuel options id input stack (cache, host)).1 = .ok p) :
    p.outcome.IsValid g s := by
  have hd : s.decision.isSome = true := by
    cases hset : g.setting id input stack with
    | error fault =>
      rw [predictAt_of_error hset] at hp
      cases hp
    | ok setting =>
      obtain ⟨_, hs', hn, _⟩ := setting_eq_ok hset
      obtain rfl := Except.ok.inj (hs.symm.trans hs')
      rw [hn]
      rfl
  exact ((predictAt_isSafe hg hnet h hs hd).of_ok hp).1

end Grammar

/-- Every cache that predictions lead to is proper. -/
theorem Cache.IsReachable.isProper {g : Grammar σ} {cache : Cache}
    {admits : StateId → Stack → Prop} (hg : g.IsSound) (hnet : g.toNetwork.IsClosed)
    (h : cache.IsReachable g admits) : cache.IsProper g := by
  induction h with
  | new => exact keeps_ofNetwork g fun _ _ _ _ _ => Automaton.obeys_empty _ _ _
  | predict fuel options id input stack host _ _ ih => exact Grammar.isProper_predictAt hg hnet ih

end AdaptiveLL
