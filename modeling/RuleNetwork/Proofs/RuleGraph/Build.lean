import RuleNetwork.Complexity
import RuleNetwork.DecisionGraph
import RuleNetwork.Proofs.Graph.Depths
import RuleNetwork.Proofs.RuleGraph.Table

/-!
The rule graph of a sound grammar, the complexity of its rules and the surroundings of its decisions are
found without fail. What the graph marks as reached is what chains of calls from the roots lead to.
-/

set_option autoImplicit false

namespace RuleNetwork

open Network Relation

namespace Digraph

variable {α : Type} [DecidableEq α] [Hashable α] {g : Digraph α}

theorem mem_reach_roots {roots : List α} {b : α} :
    b ∈ (g.reach roots).toList ↔ ∃ a ∈ roots, ReflTransGen g.Edge a b := by
  have hu : ∀ x ∈ roots ++ g.nodes, ∀ y ∈ g.successors x, y ∈ roots ++ g.nodes :=
    fun x _ y hy => List.mem_append_right _ (Edge.right hy)
  have hb : (roots ++ g.nodes).length ≤ g.bound + roots.length := by
    rw [List.length_append, length_nodes]
    omega
  exact Search.mem_closure_iff hu (fun a ha => List.mem_append_left _ ha) hb

/-- Depths are found if every node with successors is asked for. -/
theorem depths_yields {order : List α} (h : ∀ e ∈ g.rows.entries, e.1 ∈ order) :
    Yields (g.depths order) fun _ => True := by
  obtain ⟨hpart, hmem⟩ := partition_components (g := g) order
  obtain ⟨l, depth, hl, -⟩ := depthsOf_ok hpart fun {a b} hab => by
    obtain ⟨l, hl, -⟩ := edge_iff.1 hab
    exact ⟨(hmem a).2 ⟨a, h _ hl, .refl⟩, (hmem b).2 ⟨a, h _ hl, .single hab⟩⟩
  exact .of_ok hl trivial

end Digraph

theorem mapError_yields {α ε ε' : Type} {x : Except ε α} {P : α → Prop} (h : Yields x P)
    (f : ε → ε') : Yields (x.mapError f) P := by
  obtain ⟨a, rfl, ha⟩ := h
  exact .ok ha

namespace DecisionGraph.Draft

/-- Edges followed admit the states that they lead to, and no others. -/
theorem mem_follow {names : Array String} {source s : Int} {edges : List (Transition × Int)}
    {d : Draft} (h : s ∈ (edges.foldl (follow names source) d).states.toList) :
    s ∈ d.states.toList ∨ ∃ e ∈ edges, e.2 = s := by
  induction edges generalizing d with
  | nil => exact .inl h
  | cons e edges ih =>
    rw [List.foldl_cons] at h
    obtain h | ⟨e', he', hs⟩ := ih h
    · have hone : s ∈ d.states.toList ∨ e.2 = s := by
        simp only [follow] at h
        split at h
        · exact .inl h
        · split at h
          · exact .inl h
          · exact ((OrderedSet.mem_toList_insert _ _ _).1 h).imp id Eq.symm
      exact hone.imp id fun hs => ⟨e, List.mem_cons_self .., hs⟩
    · exact .inr ⟨e', List.mem_cons_of_mem _ he', hs⟩

end DecisionGraph.Draft

namespace Grammar

variable {g : Grammar}

/-- A rule that the grammar has is found by its name. -/
theorem exists_named {name : String} (h : g.hasRule name = true) :
    ∃ r ∈ g.ruleList, r.name = name ∧ g.ruleIndex name = .ok r.index := by
  obtain ⟨r, hfind⟩ : ∃ r, g.rules.find? (fun r => r.name == name) = some r := by
    rw [← Option.isSome_iff_exists, Array.find?_isSome]
    exact Array.any_eq_true'.1 h
  refine ⟨r, Array.mem_toList_iff.2 (Array.mem_of_find?_eq_some hfind),
    by simpa using Array.find?_some hfind, ?_⟩
  unfold ruleIndex
  rw [hfind]

theorem ruleIndex_yields {name : String} (h : g.hasRule name = true) :
    Yields (g.ruleIndex name) g.Numbers := by
  obtain ⟨r, hr, -, hindex⟩ := exists_named h
  exact ⟨r.index, hindex, r, hr, rfl⟩

theorem averageAlternatives_error {l : List RuleComplexity} {f : Fault}
    (h : averageAlternatives l = .error f) : f = .quotientTooLarge := by
  unfold averageAlternatives at h
  split at h
  · cases h
  · simp only at h
    split at h
    · cases h
    · cases h
      rfl

theorem hasRule_name {r : Rule} (hr : r ∈ g.ruleList) : g.hasRule r.name = true := by
  simp only [hasRule, Array.any_eq_true']
  exact ⟨r, Array.mem_toList_iff.1 hr, by simp⟩

/-- A rule graph was made from the call table, the entry rules and the roots of a grammar. -/
structure GraphOf (g : Grammar) (entries : List Int) (f : GraphFacts) : Prop where
  grammar : f.grammar = g
  filled : g.callTable = .ok f.table
  table : f.table.Lists g g.ruleList
  order : f.order = g.ruleList.map Rule.index
  roots : f.roots = g.roots entries
  recursive : f.recursive = f.table.recursive f.order
  reached : f.reached = f.table.graph.reach (g.roots entries)

namespace Sound

variable (hg : g.Sound)
include hg

theorem rule_named {name : String} (hn : g.hasRule name = true) :
    Yields (g.rule name) fun r => r ∈ g.ruleList ∧ r.name = name := by
  obtain ⟨r, hr, hname, hindex⟩ := exists_named hn
  refine exists_bind hindex ?_
  obtain ⟨k, hk⟩ := Array.mem_iff_getElem?.1 (Array.mem_toList_iff.1 hr)
  have hget : Position.get? g.rules r.index = some r := by
    rw [hg.index hk, Position.get?, Position.resolve_of_lt (Array.getElem?_eq_some_iff.1 hk).1]
    exact hk
  simp only [hget]
  exact ⟨r, rfl, hr, hname⟩

theorem rule_yields {name : String} (hn : g.hasRule name = true) :
    Yields (g.rule name) (· ∈ g.ruleList) :=
  (hg.rule_named hn).mono fun _ h => h.1

/-- Where names are not shared, a rule is the one of its name. -/
theorem rule_name (hnames : (g.ruleList.map Rule.name).Nodup) {r : Rule} (hr : r ∈ g.ruleList) :
    g.rule r.name = .ok r := by
  obtain ⟨r', hrule, hr', hname⟩ := hg.rule_named (hasRule_name hr)
  obtain rfl := List.inj_on_of_nodup_map hnames hr' hr hname
  exact hrule

/-- The entry rules asked for are found if they are declared; the default ones always are. -/
theorem entries_yields {asked : List String} (hasked : ∀ name ∈ asked, g.hasRule name = true) :
    Yields ((g.entriesOr asked).mapM g.ruleIndex) fun l => ∀ i ∈ l, g.Numbers i := by
  refine .mapM_all fun name hn => ruleIndex_yields ?_
  unfold entriesOr defaultEntryRules at hn
  split at hn
  · split at hn
    · obtain ⟨r, hr, rfl⟩ := List.mem_map.1 hn
      exact hasRule_name (List.mem_of_mem_filter (List.mem_of_mem_take hr))
    · exact hg.entry name hn
  · exact hasked name hn

theorem ruleGraph_yields {asked : List String} (hasked : ∀ name ∈ asked, g.hasRule name = true) :
    Yields (g.ruleGraph asked) fun graph => ∃ entries f,
      (g.entriesOr asked).mapM g.ruleIndex = .ok entries ∧ g.GraphOf entries f ∧
        graph = f.graph (g.entriesOr asked) := by
  obtain ⟨entries, hentries, -⟩ := hg.entries_yields hasked
  obtain ⟨table, htable, hlists⟩ := hg.callTable_yields
  have hnum : ∀ i, g.Numbers i ↔ i ∈ g.ruleList.map Rule.index := fun i => List.mem_map.symm
  have hstray : table.strayCallee? (g.ruleList.map Rule.index) = none := by
    refine List.find?_eq_none.2 fun c hc => ?_
    obtain ⟨a, -, hc⟩ := List.mem_flatMap.1 hc
    obtain ⟨ha, hcalls⟩ := hlists.mem_calleesOf.1 hc
    simpa using (hnum c).1 (hg.numbers_of_callsRule ha hcalls)
  have hdepths : Yields ((table.graph.depths (g.ruleList.map Rule.index)).mapError Fault.missingKey)
      fun _ => True := by
    refine mapError_yields (Digraph.depths_yields fun e he => ?_) _
    obtain ⟨hn, -⟩ := hlists.rows ((OrderedMap.get?_eq_some_iff _).2 he)
    exact (hnum e.1).1 hn
  unfold ruleGraph
  refine exists_bind hentries (exists_bind htable ?_)
  simp only [hstray]
  exact hdepths.bind fun depths _ => .ok ⟨entries, _, hentries, ⟨rfl, htable, hlists, rfl, rfl, rfl, rfl⟩, rfl⟩

theorem decisionStates_yields {r : Rule} (hr : r ∈ g.ruleList) :
    Yields (g.decisionStates r) fun _ => True := by
  refine (hg.walk_yields ⟨r, hr, rfl⟩).bind fun states hstates => ?_
  exact (Yields.mapM fun s hs => hg.state_yields (hstates s hs)).bind fun _ _ => .ok trivial

/-- Only a mean that is too large can keep the complexity from being found. -/
theorem complexity_error {asked : List String} (hasked : ∀ name ∈ asked, g.hasRule name = true)
    {f : Fault} (hf : g.complexity asked = .error f) : f = .quotientTooLarge := by
  obtain ⟨graph, hgraph, -⟩ := hg.ruleGraph_yields hasked
  obtain ⟨rules, hrules, -⟩ := Yields.mapM (l := g.ruleList) (R := fun _ _ => True)
    (f := fun r => do return (r.name, ← g.ruleComplexity graph r)) fun r hr =>
      ((hg.decisionStates_yields hr).bind fun _ _ => .ok trivial).bind
        fun _ (_ : True) => .ok trivial
  unfold complexity complexityIn at hf
  rw [hgraph] at hf
  simp only [bind, Except.bind] at hrules hf
  rw [hrules] at hf
  cases h : averageAlternatives (OrderedMap.ofList rules).values with
  | error f' =>
    simp only [h] at hf
    cases hf
    exact averageAlternatives_error h
  | ok q =>
    simp only [h] at hf
    cases hf

/-- A decision is at a state that is there, of a rule that is there. -/
theorem decision_state {d : Decision} (hd : d ∈ g.decisions) :
    ∃ st, g.network.state d.state = .ok st ∧ st.rule = d.rule := by
  obtain ⟨i, hi, rfl⟩ := List.mem_mapIdx.1 hd
  have hmem := List.mem_of_mem_filter (List.getElem_mem hi)
  obtain ⟨k, hk⟩ := Array.mem_iff_getElem?.1 (Array.mem_toList_iff.1 hmem)
  have hstate := state_eq_ok.2 (Position.forward?_eq_some.2 ⟨k, rfl, hk⟩)
  refine ⟨_, ?_, rfl⟩
  rw [(hg.state hstate).id]
  exact hstate

theorem decision_has {d : Decision} (hd : d ∈ g.decisions) : g.network.Has d.state := by
  obtain ⟨st, hst, -⟩ := hg.decision_state hd
  exact ⟨st, hst⟩

theorem decision_numbers {d : Decision} (hd : d ∈ g.decisions) : g.Numbers d.rule := by
  obtain ⟨st, hst, hrule⟩ := hg.decision_state hd
  rw [← hrule]
  exact hg.numbers_owner hst

theorem grow_yields (bound i : Nat) {d : DecisionGraph.Draft}
    (hd : ∀ s ∈ d.states.toList, g.network.Has s) :
    Yields (DecisionGraph.Draft.grow g bound i d) fun d => ∀ s ∈ d.states.toList, g.network.Has s := by
  induction bound generalizing i d with
  | zero => exact .ok hd
  | succ bound ih =>
    unfold DecisionGraph.Draft.grow
    rw [OrderedSet.get?_eq]
    cases hs : d.states.toList[i]? with
    | none => exact .ok hd
    | some s =>
      refine (hg.edges_yields (hd s (List.mem_of_getElem? hs))).bind fun edges hedges =>
        ih (i + 1) fun s' hs' => ?_
      obtain hs' | ⟨e, he, rfl⟩ := DecisionGraph.Draft.mem_follow hs'
      · exact hd s' hs'
      · exact (hedges e he).2

theorem ruleDecisions_yields {name : String} (hn : g.hasRule name = true) :
    Yields (g.ruleDecisions name) fun _ => True := by
  refine (ruleIndex_yields hn).bind fun index _ => (Yields.mapM (R := fun _ _ => True)
    fun d hd => ?_).bind fun _ _ => .ok trivial
  have hd := List.mem_of_mem_filter hd
  have hstart : ∀ s ∈ (OrderedSet.ofList [d.state]).toList, g.network.Has s := fun s hs => by
    rw [List.mem_singleton.1 ((OrderedSet.mem_toList_ofList _ _).1 hs)]
    exact hg.decision_has hd
  refine (hg.ruleAt_yields (hg.decision_numbers hd)).bind fun r _ =>
    (hg.grow_yields _ 0 hstart).bind fun draft hdraft =>
      (Yields.mapM (R := fun _ _ => True) fun s hs => ?_).bind fun _ _ => .ok trivial
  exact (hg.state_yields (hdraft s hs)).bind fun _ _ => .ok trivial

end Sound

end Grammar

end RuleNetwork
