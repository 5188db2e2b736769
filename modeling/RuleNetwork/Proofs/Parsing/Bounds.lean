import RuleNetwork.Proofs.LeftRecursion.Leftmost
import RuleNetwork.Proofs.Parsing.Totality
import RuleNetwork.Proofs.RuleGraph.Build

/-!
The analyses of a grammar bound what its parses do. A parse visits no rule that the call graph does not
lead to from its start rule, whether it accepts its input or not, and finds no left-recursive group but of
rules that lead back to themselves by leftmost calls.
-/

set_option autoImplicit false

namespace RuleNetwork

open Network Relation

namespace Grammar

/-- A visit is at a state that a walk in some rule comes to, and a chain of calls leads to this rule from
the given one. -/
def Called (g : Grammar) (i : Nat) (v : Visit) : Prop :=
  ∃ j < g.rules.size, g.network.InRule j v.state ∧ ReflTransGen g.CallsRule i j

namespace Proper

variable {g : Grammar} (hg : g.Proper)
include hg

theorem callsRule_of_calls {i : Nat} (hi : i < g.rules.size) {s id callee follow : Int}
    {t : Transition} (hs : g.network.InRule i s) (hc : g.network.Calls s id t callee follow) :
    g.CallsRule i callee := by
  obtain ⟨l, hl, hmem⟩ := hg.calls_ok hi
  obtain ⟨hk, hrule, -⟩ := Transition.of_call? hc.2
  exact ⟨l, hl, t, (hmem t).2 ⟨hk, s, id, hs, hc.1⟩, hrule⟩

theorem closed_called (types : List String) {i : Nat} (hi : i < g.rules.size) :
    g.network.Closed types (startState i) (g.Called i) where
  start := ⟨i, hi, .refl, .refl⟩
  read := by
    rintro s id o k k' t ⟨j, hj, hin, hcalled⟩ ht hr
    exact ⟨j, hj, hin.tail ⟨id, t, ht, Transition.next_of_ne hr.kind_ne⟩, hcalled⟩
  enter := by
    rintro s id callee follow o k t ⟨j, hj, hin, hcalled⟩ hc
    obtain ⟨j', hj', rfl, htarget, -⟩ :=
      hg.network.of_calls hc (hg.network.owns_of_inRule hj hin)
    refine ⟨j', hj', ?_, hcalled.tail (hg.callsRule_of_calls hj hin hc)⟩
    rw [htarget]
    exact .refl
  resume := by
    rintro s id callee follow z o k k' t ⟨j, hj, hin, hcalled⟩ hc - - -
    exact ⟨j, hj, hin.tail ⟨id, t, hc.1, Transition.next_of_call? hc.2⟩, hcalled⟩

/-- A rule that a run comes to is called from the rule that the run starts with. -/
theorem called_of_reaches {types : List String} {i : Nat} (hi : i < g.rules.size) {v : Visit}
    (h : g.network.Reaches types (startState i) v) {r : Int} (ho : g.network.Owns r v.state) :
    ReflTransGen g.CallsRule i r := by
  obtain ⟨j, hj, hin, hcalled⟩ := (hg.closed_called types hi).of_reaches hg.network hi h
  rwa [ho.unique (hg.network.owns_of_inRule hj hin)]

end Proper

end Grammar

namespace CallTable.Lists

variable {t : CallTable} {g : Grammar} (h : t.Lists g g.ruleList) (hg : g.Sound)
include h hg

/-- Chains of calls from a rule are paths in the call graph. -/
theorem path_of_called {a b : Int} (ha : g.Numbers a) (hab : ReflTransGen g.CallsRule a b) :
    ReflTransGen t.graph.Edge a b :=
  (reflTransGen_inside (P := g.Numbers) (fun ha hcalls =>
    ⟨h.mem_calleesOf.2 ⟨ha, hcalls⟩, hg.numbers_of_callsRule ha hcalls⟩) ha hab).1

end CallTable.Lists

/-- What is marked as not reached from an entry rule is called by no chain from it. -/
theorem Grammar.GraphOf.isReached_of_called {g : Grammar} (hg : g.Sound) {entries : List Int}
    {f : GraphFacts} (h : g.GraphOf entries f) {a : Int} (hentry : a ∈ entries) (ha : g.Numbers a)
    {r : Rule} (hr : ReflTransGen g.CallsRule a r.index) : f.isReached r = true := by
  unfold GraphFacts.isReached
  rw [h.reached, OrderedSet.contains_iff, Digraph.mem_reach_roots]
  exact ⟨a, List.mem_append_left _ hentry, h.table.path_of_called hg ha hr⟩

theorem GraphFacts.exists_rule_of_node (f : GraphFacts) {entries : List String} {k : Nat}
    {node : RuleNode} (h : (f.graph entries).nodes[k]? = some node) :
    ∃ r, f.grammar.rules[k]? = some r ∧ node = f.node r := by
  have hmap : (f.graph entries).nodes = f.grammar.rules.toList.map f.node := rfl
  rw [hmap, List.getElem?_map, Option.map_eq_some_iff] at h
  obtain ⟨r, hr, rfl⟩ := h
  exact ⟨r, by rwa [← Array.getElem?_toList], rfl⟩

/-- A rule that a parse visits is called, by a chain of calls, from its start rule. -/
theorem ParseTables.Parsed.called_of_visited {g : Grammar} (hg : g.Proper) {p : ParseTables}
    (hp : ofGrammar g = .ok p) {i : Nat} (hi : i < g.rules.size) {tokens : TokenStream}
    {x : Execution} {c : Chart} {u : OrderedSet Visit} {m : Groups} {n : Counts} {t : Ties}
    (h : p.Parsed i tokens x c u m n t) {a : Int} (ha : a ∈ x.visitedRules) :
    ReflTransGen g.CallsRule i a := by
  obtain ⟨hrules, -⟩ := (Traces.tells_of_execution h.execution).coverage
  have hnoted := h.noted hg hp hi
  obtain ⟨l, hl, -, hmem⟩ := hnoted.rulesVisited_ok
  rw [hrules] at hl
  obtain rfl := Except.ok.inj hl
  obtain ⟨v, hv, ho⟩ := (hmem a).1 ha
  have hreach := (hnoted.ties.recognizes.contains v).1 (hnoted.ties.contains hv)
  have hnet := h.network_eq hg hp hi
  unfold Chart.network at hnet
  rw [h.network_eq hg hp hi] at ho
  rw [hnet] at hreach
  exact hg.called_of_reaches hi hreach ho

/-- The analyses of a built grammar bound every parse from every declared rule. Whether a parse accepts
its input or not, each rule that it visits is reached in the call graph from the start rule, so none is a
rule whose node is marked as unreachable. And whatever visits of its chart are asked for groups, the rules
in a group lead back to themselves by leftmost calls; without such rules there is no group. -/
theorem analyses_bound_parses {b b' : Builder} {g : Grammar}
    (hb : Builder.build.run.run b = (.ok g, b')) {name : String} (hn : b.declares name = true) :
    ∃ r graph table a, g.rule name = .ok r ∧ g.ruleGraph [name] = .ok graph ∧
      graph.nodes.map RuleNode.name = g.ruleList.map Rule.name ∧
      graph.unreachableRules = (graph.nodes.filter fun node => !node.reachable).map RuleNode.name ∧
      g.callTable = .ok table ∧ LeftRecursion.ofGrammar g true = .ok a ∧
      ∃ p, ParseTables.ofGrammar g = .ok p ∧ ∀ tokens, ∃ x c u m n t,
        p.Parsed r.index tokens x c u m n t ∧ (p.parse r.index tokens).run none = .ok (x, none) ∧
        (∀ granted y left, (p.parse r.index tokens).run granted = .ok (y, left) → y = x) ∧
        (∀ k ∈ x.visitedRules, ReflTransGen (fun i j => j ∈ table.calleesOf i) r.index k) ∧
        (∀ (k : Nat) (node : RuleNode), graph.nodes[k]? = some node → node.reachable = false →
          Int.ofNat k ∉ x.visitedRules) ∧
        (∀ v ∈ u.toList, c.contains v = true) ∧
        ∀ asked : OrderedSet Visit, (∀ v ∈ asked.toList, c.contains v = true) →
          ∃ found, c.groups asked = .ok found ∧
            (∀ v k, found.group? v = some k → TransGen a.Leftmost v.rule v.rule) ∧
            ((∀ i, ¬ TransGen a.Leftmost i i) → ∀ v, found.group? v = none) := by
  have hg := Builder.proper_of_build hb
  have hhas := Builder.hasRule_of_build hb
  have hsound := hg.sound fun name hn => (hhas name).trans ((Builder.build_ok hb).2.2.1 name hn)
  have hknown : ∀ n ∈ [name], g.hasRule n = true := fun n hmem => by
    rw [List.mem_singleton.1 hmem]
    exact (hhas name).trans hn
  obtain ⟨i, r, hr, -, hindex, hrule⟩ := hg.rule_of_hasRule ((hhas name).trans hn)
  have hi := (Array.getElem?_eq_some_iff.1 hr).1
  have hri := (hg.rule hr).1
  have hnumbers : g.Numbers i := ⟨r, Array.mem_toList_iff.2 (Array.mem_of_getElem? hr), hri⟩
  obtain ⟨graph, hgraph, entries, f, hentries, hof, hfacts⟩ := hsound.ruleGraph_yields hknown
  obtain ⟨table, htable, hlists⟩ := hsound.callTable_yields
  obtain ⟨a, ha, hverified⟩ := hg.leftRecursion_ok
  have hentry : Int.ofNat i ∈ entries := (mem_of_mapM hentries).2 ⟨name, List.mem_singleton_self _, hindex⟩
  obtain ⟨p, hp⟩ := ParseTables.exists_tables hg
  refine ⟨r, graph, table, a, hrule, hgraph, ?_, ?_, htable, ha, p, hp, fun tokens => ?_⟩
  · rw [hfacts]
    simp [GraphFacts.graph, GraphFacts.node, hof.grammar, Function.comp_def]
  · rw [hfacts]
    simp [GraphFacts.graph, GraphFacts.namesWhere, GraphFacts.node, List.filter_map, Function.comp_def]
  obtain ⟨x, c, u, m, n, t, hparsed, hrun, hunique⟩ := ParseTables.parse_ok hg hp hi tokens
  obtain ⟨hix, hgrammar, hrec⟩ := hparsed.recognizes hg hp hi
  rw [hri]
  refine ⟨x, c, u, m, n, t, hparsed, hrun, hunique, fun k hk => ?_, fun k node hk hoff hvisited => ?_,
    fun v hv => ?_, fun asked hasked => ?_⟩
  · exact hlists.path_of_called hsound hnumbers (hparsed.called_of_visited hg hp hi hk)
  · rw [hfacts] at hk
    obtain ⟨s, hs, rfl⟩ := f.exists_rule_of_node hk
    have hindex : s.index = k := hsound.index (by rwa [← hof.grammar])
    have hcalled := hparsed.called_of_visited hg hp hi hvisited
    have hreached := hof.isReached_of_called hsound hentry hnumbers (r := s) (by rwa [hindex])
    exact Bool.false_ne_true (hoff.symm.trans hreached)
  · rw [← hparsed.chart_eq]
    exact (hparsed.noted hg hp hi).ties.contains (by rwa [hparsed.useful_eq])
  · rw [← hgrammar, ← hix] at hverified
    obtain ⟨found, hfound, hgroup⟩ := hrec.leftRecursive_of_group hverified hasked
    refine ⟨found, hfound, hgroup, fun hnone v => ?_⟩
    cases hv : found.group? v with
    | none => rfl
    | some k => exact absurd (hgroup v k hv) (hnone _)

/-- A parse of brackets, be they closed or not, visits rules that the row of brackets leads to. -/
theorem brackets_bounded : ∃ g b' p r table x, Builder.build.run.run Builder.brackets = (.ok g, b') ∧
    ParseTables.ofGrammar g = .ok p ∧ g.rule "row" = .ok r ∧ g.callTable = .ok table ∧
      (p.parse r.index (.ofTypes ["'('", "'('"])).run none = .ok (x, none) ∧
      ∀ k ∈ x.visitedRules, ReflTransGen (fun i j => j ∈ table.calleesOf i) r.index k := by
  have hb : Builder.build.run.run Builder.brackets = (.ok _, _) := rfl
  have hrow : Builder.brackets.declares "row" = true := by decide
  obtain ⟨r, graph, table, a, hr, -, -, -, htable, -, p, hp, hparse⟩ := analyses_bound_parses hb hrow
  obtain ⟨x, -, -, -, -, -, -, hrun, -, hvisited, -⟩ := hparse (.ofTypes ["'('", "'('"])
  exact ⟨_, _, p, r, table, x, hb, hp, hr, htable, hrun, hvisited⟩

end RuleNetwork
