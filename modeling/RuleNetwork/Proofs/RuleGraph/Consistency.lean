import RuleNetwork.Proofs.RuleGraph.Cycles
import RuleNetwork.Proofs.Validation.Sufficiency

/-!
The views of a rule graph describe one relation. Callees, callers, edges, recursive rules, rules reached
and rules unused are found by separate loops over the call table; told by names, each of them says of the
calls of the graph what its name says, and the counts add up.
-/

set_option autoImplicit false

namespace RuleNetwork

open Network Relation

/-- A sum of counts, row by row or column by column. -/
theorem sum_length_filter_comm {α β : Type} (l : List α) (m : List β) (p : α → β → Bool) :
    (l.map fun a => (m.filter (p a)).length).sum = (m.map fun b => (l.filter (p · b)).length).sum := by
  induction l with
  | nil => simp
  | cons a l ih =>
    have hrow : ∀ m : List β, (m.filter (p a)).length = (m.map fun b => if p a b then 1 else 0).sum := by
      intro m
      induction m with
      | nil => rfl
      | cons b m ihm => cases hp : p a b <;> simp [hp, ihm, Nat.add_comm]
    have hcons : ∀ b, ((a :: l).filter (p · b)).length =
        (if p a b then 1 else 0) + (l.filter (p · b)).length := by
      intro b
      cases hp : p a b <;> simp [hp, Nat.add_comm]
    simp only [List.map_cons, List.sum_cons, ih, hrow, hcons, List.sum_map_add]

namespace RuleGraph

/-- A rule at which a derivation may begin: an entry rule, or a lexer rule that is no fragment. -/
def IsRoot (graph : RuleGraph) (name : String) : Prop :=
  name ∈ graph.entryRules ∨ ∃ n ∈ graph.nodes, n.name = name ∧ n.kind = .lexer

end RuleGraph

/-- A walk in the one rule comes by a call of the other. -/
def Grammar.CallsNamed (g : Grammar) (caller callee : String) : Prop :=
  ∃ r ∈ g.ruleList, ∃ r' ∈ g.ruleList, r.name = caller ∧ r'.name = callee ∧
    ∃ s out t, g.network.WalksTo r.start s ∧ g.network.outgoing s = .ok out ∧ t ∈ out ∧
      t.kind = .ruleCall ∧ t.rule = some r'.index

/-- The views of a rule graph agree with each other and with the calls of the grammar. -/
structure RuleGraph.Consistent (graph : RuleGraph) (g : Grammar) : Prop where
  nodes : graph.nodes.map (fun n => (n.name, n.kind)) = g.ruleList.map fun r => (r.name, r.kind)
  edges : ∀ a b, graph.Calls a b ↔ g.CallsNamed a b
  distinct : (graph.edges.map fun e => (e.caller, e.callee)).Nodup
  calls : ∀ n ∈ graph.nodes, ∀ b, b ∈ n.calls ↔ graph.Calls n.name b
  calledBy : ∀ n ∈ graph.nodes, ∀ a, a ∈ n.calledBy ↔ graph.Calls a n.name
  reachable : ∀ n ∈ graph.nodes, n.reachable = true ↔
    ∃ root, graph.IsRoot root ∧ ReflTransGen graph.Calls root n.name
  unreachable : graph.unreachableRules = (graph.nodes.filter fun n => !n.reachable).map RuleNode.name
  unused : ∀ x, x ∈ graph.unusedRules ↔ x ∈ graph.nodes.map RuleNode.name ∧ ¬ graph.IsRoot x ∧
    ∀ a, graph.Calls a x → a = x
  unused_unreachable : ∀ x ∈ graph.unusedRules, x ∈ graph.unreachableRules
  recursive : ∀ x, x ∈ graph.recursiveRules ↔ TransGen graph.Calls x x
  sites : ∃ calls, g.allCalls = .ok calls ∧ (graph.edges.map CallEdge.sites).sum = calls.length
  fanIn : graph.fanIn.entries = graph.nodes.map fun n => (n.name, n.calledBy.length)
  fanOut : graph.fanOut.entries = graph.nodes.map fun n => (n.name, n.calls.length)
  sum_fanIn : graph.fanIn.values.sum = graph.edges.length
  sum_fanOut : graph.fanOut.values.sum = graph.edges.length

theorem GraphFacts.length_edges (f : GraphFacts) :
    f.edges.length = (f.order.map fun a => (f.table.calleesOf a).length).sum := by
  simp only [edges, List.length_flatMap, List.length_map]

namespace Grammar

variable {g : Grammar}

theorem ruleIndex_eq_ok (hnames : (g.ruleList.map Rule.name).Nodup) {name : String} {i : Int} :
    g.ruleIndex name = .ok i ↔ ∃ r ∈ g.ruleList, r.name = name ∧ r.index = i := by
  constructor
  · intro hi
    unfold ruleIndex at hi
    split at hi
    · rename_i r hr
      exact ⟨r, Array.mem_toList_iff.2 (Array.mem_of_find?_eq_some hr), by simpa using Array.find?_some hr,
        Except.ok.inj hi⟩
    · cases hi
  · rintro ⟨r, hr, rfl, rfl⟩
    obtain ⟨r', hr', hname, hindex⟩ := exists_named (hasRule_name hr)
    rw [hindex, List.inj_on_of_nodup_map hnames hr' hr hname]

namespace GraphOf

variable {entries : List Int} {f : GraphFacts} (h : g.GraphOf entries f) (names : List String)
include h

theorem nodes_eq : (f.graph names).nodes = g.ruleList.map f.node := by
  rw [← h.grammar]
  rfl

theorem namesWhere_eq (p : Rule → Bool) : f.namesWhere p = (g.ruleList.filter p).map Rule.name := by
  rw [← h.grammar]
  rfl

theorem forall_nodes {P : RuleNode → Prop} :
    (∀ n ∈ (f.graph names).nodes, P n) ↔ ∀ r ∈ g.ruleList, P (f.node r) := by
  rw [h.nodes_eq, List.forall_mem_map]

theorem mem_callers {r : Rule} {i : Int} : i ∈ f.callers r ↔ f.table.graph.Edge i r.index := by
  unfold GraphFacts.callers CallTable.callersOf
  rw [List.mem_filter, List.contains_iff_mem, h.mem_order]
  exact ⟨And.right, fun hi => ⟨(h.edge_iff.1 hi).1, hi⟩⟩

theorem isReached_iff {r : Rule} :
    f.isReached r = true ↔ ∃ i ∈ f.roots, ReflTransGen f.table.graph.Edge i r.index := by
  rw [GraphFacts.isReached, h.reached, OrderedSet.contains_iff, Digraph.mem_reach_roots, ← h.roots]

theorem isUnused_iff {r : Rule} : f.isUnused r = true ↔
    (∀ i, f.table.graph.Edge i r.index → i = r.index) ∧ r.index ∉ f.roots := by
  simp only [GraphFacts.isUnused, Bool.and_eq_true, List.all_eq_true, beq_iff_eq, h.mem_callers,
    Bool.not_eq_true', List.contains_eq_mem, decide_eq_false_iff_not]

variable (hg : g.Sound)
include hg

theorem counts : f.table.Counts g g.ruleList := hg.counts_callTable h.filled

theorem nodup_calleesOf {a : Int} (ha : a ∈ f.order) : (f.table.calleesOf a).Nodup := by
  obtain ⟨r, hr, rfl⟩ := h.mem_order.1 ha
  obtain ⟨l, -, hcallees, -⟩ := h.counts hg r hr
  rw [hcallees]
  exact OrderedSet.nodup_toList _

theorem nodup_order : f.order.Nodup := h.order ▸ hg.nodup_indices

omit hg in
/-- Each edge is counted once with its caller. -/
theorem sum_callees : (g.ruleList.map fun r => (f.table.calleesOf r.index).length).sum = f.edges.length := by
  rw [f.length_edges, h.order, List.map_map]
  rfl

/-- Each edge is counted once with its callee. -/
theorem sum_callers : (g.ruleList.map fun r => (f.callers r).length).sum = f.edges.length := by
  have hcolumns := sum_length_filter_comm f.order f.order fun b c => (f.table.calleesOf c).contains b
  have hrows : ∀ a ∈ f.order,
      (f.order.filter fun b => (f.table.calleesOf a).contains b).length = (f.table.calleesOf a).length := by
    intro a ha
    refine List.Perm.length_eq ((List.perm_ext_iff_of_nodup ((h.nodup_order hg).filter _)
      (h.nodup_calleesOf hg ha)).2 fun b => ?_)
    rw [List.mem_filter, List.contains_iff_mem]
    exact ⟨And.right, fun hb => ⟨h.mem_order.2 (h.numbers_of_edge hg a b hb).2, hb⟩⟩
  rw [List.map_congr_left hrows, ← f.length_edges] at hcolumns
  rw [← hcolumns, h.order, List.map_map, ← h.order]
  rfl

theorem sum_edges : ∃ calls, g.allCalls = .ok calls ∧
    (f.edges.map CallEdge.sites).sum = calls.length := by
  obtain ⟨calls, hcalls, hlength⟩ := hg.sum_sites h.filled
  refine ⟨calls, hcalls, ?_⟩
  rw [hlength, GraphFacts.edges, h.order]
  simp only [List.flatMap_def, List.map_flatten, List.sum_flatten, List.map_map, Function.comp_def]

variable (hnames : (g.ruleList.map Rule.name).Nodup)
include hnames

theorem calls_from_iff {r : Rule} (hr : r ∈ g.ruleList) {y : String} :
    (f.graph names).Calls r.name y ↔ ∃ j ∈ f.table.calleesOf r.index, g.nameOf j = y := by
  rw [h.calls_iff_edge, ← hg.nameOf_index hr]
  constructor
  · rintro ⟨i, j, hij, hi, rfl⟩
    rw [← hg.nameOf_inj hnames i r.index (h.numbers_of_edge hg i j hij).1 ⟨r, hr, rfl⟩ hi]
    exact ⟨j, hij, rfl⟩
  · rintro ⟨j, hj, rfl⟩
    exact ⟨r.index, j, hj, rfl, rfl⟩

theorem calls_to_iff {r : Rule} (hr : r ∈ g.ruleList) {x : String} :
    (f.graph names).Calls x r.name ↔ ∃ i, f.table.graph.Edge i r.index ∧ g.nameOf i = x := by
  rw [h.calls_iff_edge, ← hg.nameOf_index hr]
  constructor
  · rintro ⟨i, j, hij, rfl, hj⟩
    rw [← hg.nameOf_inj hnames j r.index (h.numbers_of_edge hg i j hij).2 ⟨r, hr, rfl⟩ hj]
    exact ⟨i, hij, rfl⟩
  · rintro ⟨i, hi, rfl⟩
    exact ⟨i, r.index, hi, rfl, rfl⟩

/-- No two edges join the same rules. -/
theorem nodup_pairs : (f.edges.map fun e => (e.caller, e.callee)).Nodup := by
  have hnum : ∀ a ∈ f.order, g.Numbers a := fun a => h.mem_order.1
  have hcallee : ∀ a, ∀ b ∈ f.table.calleesOf a, g.Numbers b := fun a b hb =>
    (h.numbers_of_edge hg a b hb).2
  simp only [GraphFacts.edges, List.map_flatMap, List.map_map, Function.comp_def, h.grammar]
  refine List.nodup_flatMap.2 ⟨fun a ha => ?_, ?_⟩
  · refine (h.nodup_calleesOf hg ha).map_on fun b hb c hc heq => ?_
    exact hg.nameOf_inj hnames b c (hcallee a b hb) (hcallee a c hc) (Prod.mk.inj heq).2
  · refine (h.nodup_order hg).imp_of_mem fun {a b} ha hb hne p hp hq => ?_
    obtain ⟨c, -, rfl⟩ := List.mem_map.1 hp
    obtain ⟨d, -, heq⟩ := List.mem_map.1 hq
    exact hne (hg.nameOf_inj hnames b a (hnum b hb) (hnum a ha) (Prod.mk.inj heq).1).symm

section Roots

variable (hentries : names.mapM g.ruleIndex = .ok entries)
include hentries

omit hg in
theorem mem_roots_iff {i : Int} : i ∈ f.roots ↔
    ∃ r ∈ g.ruleList, r.index = i ∧ (r.name ∈ names ∨ r.kind = .lexer) := by
  have hentry : i ∈ entries ↔ ∃ r ∈ g.ruleList, r.index = i ∧ r.name ∈ names := by
    rw [mem_of_mapM hentries]
    constructor
    · rintro ⟨name, hname, hi⟩
      obtain ⟨r, hr, rfl, hindex⟩ := (ruleIndex_eq_ok hnames).1 hi
      exact ⟨r, hr, hindex, hname⟩
    · rintro ⟨r, hr, hindex, hname⟩
      exact ⟨r.name, hname, (ruleIndex_eq_ok hnames).2 ⟨r, hr, rfl, hindex⟩⟩
  have hlexer : i ∈ (g.ruleList.filter fun r => r.kind == .lexer).map Rule.index ↔
      ∃ r ∈ g.ruleList, r.index = i ∧ r.kind = .lexer := by
    simp only [List.mem_map, List.mem_filter, beq_iff_eq]
    exact ⟨fun ⟨r, ⟨hr, hk⟩, hi⟩ => ⟨r, hr, hi, hk⟩, fun ⟨r, hr, hi, hk⟩ => ⟨r, ⟨hr, hk⟩, hi⟩⟩
  rw [h.roots, Grammar.roots, List.mem_append, List.mem_filter, hlexer, Bool.not_eq_true', List.contains_eq_mem,
    decide_eq_false_iff_not, or_and_left, and_iff_left (em _), hentry, ← exists_or]
  simp only [← and_or_left]

theorem isRoot_iff {x : String} :
    (f.graph names).IsRoot x ↔ ∃ r ∈ g.ruleList, r.name = x ∧ r.index ∈ f.roots := by
  unfold RuleGraph.IsRoot
  rw [h.nodes_eq]
  constructor
  · rintro (hx | ⟨n, hn, rfl, hk⟩)
    · obtain ⟨i, -, hi⟩ := exists_of_mapM hentries hx
      obtain ⟨r, hr, rfl, -⟩ := (ruleIndex_eq_ok hnames).1 hi
      exact ⟨r, hr, rfl, (h.mem_roots_iff names hnames hentries).2 ⟨r, hr, rfl, .inl hx⟩⟩
    · obtain ⟨r, hr, rfl⟩ := List.mem_map.1 hn
      exact ⟨r, hr, rfl, (h.mem_roots_iff names hnames hentries).2 ⟨r, hr, rfl, .inr hk⟩⟩
  · rintro ⟨r, hr, rfl, hroot⟩
    obtain ⟨r', hr', hindex, hx | hk⟩ := (h.mem_roots_iff names hnames hentries).1 hroot
    · obtain rfl := List.inj_on_of_nodup_map hg.nodup_indices hr' hr hindex
      exact .inl hx
    · obtain rfl := List.inj_on_of_nodup_map hg.nodup_indices hr' hr hindex
      exact .inr ⟨f.node r', List.mem_map_of_mem hr', rfl, hk⟩

/-- The rules reached are those that chains of calls from the roots lead to. -/
theorem reachable_iff {r : Rule} (hr : r ∈ g.ruleList) : f.isReached r = true ↔
    ∃ root, (f.graph names).IsRoot root ∧ ReflTransGen (f.graph names).Calls root r.name := by
  have hcalls : (f.graph names).Calls = g.Between f.table.graph.Edge := by
    funext x y
    exact propext (h.calls_iff_edge names)
  rw [h.isReached_iff, hcalls, ← hg.nameOf_index hr]
  constructor
  · rintro ⟨i, hi, hpath⟩
    obtain ⟨r₀, hr₀, rfl, -⟩ := (h.mem_roots_iff names hnames hentries).1 hi
    refine ⟨_, (h.isRoot_iff names hg hnames hentries).2 ⟨r₀, hr₀, rfl, hi⟩, ?_⟩
    rw [← hg.nameOf_index hr₀]
    exact hpath.lift g.nameOf fun a b hab => ⟨a, b, hab, rfl, rfl⟩
  · rintro ⟨root, hroot, hpath⟩
    obtain ⟨r₀, hr₀, rfl, hi⟩ := (h.isRoot_iff names hg hnames hentries).1 hroot
    rw [← hg.nameOf_index hr₀] at hpath
    obtain ⟨j, hj, hname, hpath⟩ := exists_reflTransGen_of_map (h.numbers_of_edge hg)
      (hg.nameOf_inj hnames) ⟨r₀, hr₀, rfl⟩ hpath
    rw [hg.nameOf_inj hnames j r.index hj ⟨r, hr, rfl⟩ hname] at hpath
    exact ⟨r₀.index, hi, hpath⟩

/-- A rule is unused if it is no root and nothing but itself calls it. -/
theorem unused_iff {r : Rule} (hr : r ∈ g.ruleList) : f.isUnused r = true ↔
    ¬ (f.graph names).IsRoot r.name ∧ ∀ a, (f.graph names).Calls a r.name → a = r.name := by
  have hroot : r.index ∈ f.roots ↔ (f.graph names).IsRoot r.name := by
    rw [h.isRoot_iff names hg hnames hentries]
    constructor
    · exact fun hi => ⟨r, hr, rfl, hi⟩
    · rintro ⟨r', hr', hname, hi⟩
      rwa [← List.inj_on_of_nodup_map hnames hr' hr hname]
  rw [h.isUnused_iff, hroot, and_comm]
  refine and_congr_right fun _ => ⟨fun hself a ha => ?_, fun hself i hi => ?_⟩
  · obtain ⟨i, hi, rfl⟩ := (h.calls_to_iff names hg hnames hr).1 ha
    rw [hself i hi, hg.nameOf_index hr]
  · have hname := hself _ ((h.calls_to_iff names hg hnames hr).2 ⟨i, hi, rfl⟩)
    rw [← hg.nameOf_index hr] at hname
    exact hg.nameOf_inj hnames i r.index (h.numbers_of_edge hg i _ hi).1 ⟨r, hr, rfl⟩ hname

theorem mem_unusedRules_iff {x : String} : x ∈ (f.graph names).unusedRules ↔
    x ∈ (f.graph names).nodes.map RuleNode.name ∧ ¬ (f.graph names).IsRoot x ∧
      ∀ a, (f.graph names).Calls a x → a = x := by
  have hlist : (f.graph names).unusedRules = (g.ruleList.filter f.isUnused).map Rule.name :=
    h.namesWhere_eq f.isUnused
  rw [hlist, h.nodes_eq, List.map_map, List.mem_map, List.mem_map]
  constructor
  · rintro ⟨r, hr, rfl⟩
    obtain ⟨hr, hunused⟩ := List.mem_filter.1 hr
    exact ⟨⟨r, hr, rfl⟩, (h.unused_iff names hg hnames hentries hr).1 hunused⟩
  · rintro ⟨⟨r, hr, rfl⟩, hunused⟩
    exact ⟨r, List.mem_filter.2 ⟨hr, (h.unused_iff names hg hnames hentries hr).2 hunused⟩, rfl⟩

/-- Nothing leads to a rule that is unused, for its one caller would be the rule itself. -/
theorem unreachable_of_unused {x : String} (hx : x ∈ (f.graph names).unusedRules) :
    x ∈ (f.graph names).unreachableRules := by
  obtain ⟨hnode, hroot, hself⟩ := (h.mem_unusedRules_iff names hg hnames hentries).1 hx
  rw [h.nodes_eq, List.map_map] at hnode
  obtain ⟨r, hr, rfl⟩ := List.mem_map.1 hnode
  have hlist : (f.graph names).unreachableRules = (g.ruleList.filter fun r => !f.isReached r).map Rule.name :=
    h.namesWhere_eq _
  rw [hlist]
  refine List.mem_map.2 ⟨r, List.mem_filter.2 ⟨hr, ?_⟩, rfl⟩
  rw [Bool.not_eq_true', Bool.eq_false_iff]
  intro hreached
  obtain ⟨root, hroot', hpath⟩ := (h.reachable_iff names hg hnames hentries hr).1 hreached
  have hsame : root = r.name := by
    refine ReflTransGen.head_induction_on hpath rfl fun {a c} hac _ hc => ?_
    rw [hc] at hac
    exact hself a hac
  rw [hsame] at hroot'
  exact hroot hroot'

end Roots

omit hg in
theorem perRule_entries {count : Rule → Nat} :
    (f.perRule count).entries = g.ruleList.map fun r => (r.name, count r) := by
  unfold GraphFacts.perRule
  rw [h.grammar]
  refine OrderedMap.entries_ofList ?_
  rwa [List.map_map]

omit hg in
theorem perRule_values {count : Rule → Nat} : (f.perRule count).values = g.ruleList.map count := by
  rw [OrderedMap.values, h.perRule_entries hnames, List.map_map]
  rfl

end GraphOf

namespace Sound

variable (hg : g.Sound)
include hg

theorem callsNamed_iff {a b : String} : g.CallsNamed a b ↔ g.Between g.CallsRule a b := by
  constructor
  · rintro ⟨r, hr, r', hr', rfl, rfl, s, out, t, hs, hout, ht, hk, hrule⟩
    obtain ⟨l, hl, hmem⟩ := hg.mem_calls_iff hr
    exact ⟨r.index, r'.index, ⟨l, hl, t, (hmem t).2 ⟨hk, s, out, hs, hout, ht⟩, hrule⟩,
      hg.nameOf_index hr, hg.nameOf_index hr'⟩
  · rintro ⟨i, j, hij, rfl, rfl⟩
    obtain ⟨r, hr, rfl⟩ := hg.numbers_caller hij
    obtain ⟨r', hr', rfl⟩ := hg.numbers_of_callsRule ⟨r, hr, rfl⟩ hij
    obtain ⟨l, hl, t, ht, hrule⟩ := hij
    obtain ⟨hk, s, out, hs, hout, ht⟩ := ((hg.mem_calls_iff hr).of_eq hl t).1 ht
    exact ⟨r, hr, r', hr', (hg.nameOf_index hr).symm, (hg.nameOf_index hr').symm, s, out, t, hs, hout,
      ht, hk, hrule⟩

end Sound

/-- The rule graph of a grammar without errors, seen from declared entry rules, is consistent. -/
theorem ruleGraph_consistent {v : Validation} (hv : g.validation = .ok v) (hfatal : v.fatal = [])
    {asked : List String} (hasked : ∀ name ∈ asked, g.hasRule name = true) :
    ∃ graph, g.ruleGraph asked = .ok graph ∧ graph.entryRules = g.entriesOr asked ∧
      graph.Consistent g := by
  have hclean := (Validation.fatal_eq_nil_iff hv).1 hfatal
  have hg := sound_of_clean hclean
  have hnames := nodup_names_of_clean hclean
  obtain ⟨graph, hgraph, entries, f, hentries, h, rfl⟩ := hg.ruleGraph_yields hasked
  refine ⟨_, hgraph, rfl, ?_⟩
  generalize g.entriesOr asked = names at *
  have hcalled := fun a b => (h.calls_iff names hg (x := a) (y := b)).trans hg.callsNamed_iff.symm
  exact {
    nodes := by
      rw [h.nodes_eq, List.map_map]
      rfl
    edges := hcalled
    distinct := h.nodup_pairs hg hnames
    calls := (h.forall_nodes names).2 fun r hr b => by
      rw [GraphFacts.node, h.calls_from_iff names hg hnames hr, List.mem_map, h.grammar]
    calledBy := (h.forall_nodes names).2 fun r hr a => by
      rw [GraphFacts.node, h.calls_to_iff names hg hnames hr, List.mem_map, h.grammar]
      simp only [h.mem_callers]
    reachable := (h.forall_nodes names).2 fun r hr => h.reachable_iff names hg hnames hentries hr
    unreachable := by
      rw [h.nodes_eq, List.filter_map, List.map_map]
      exact h.namesWhere_eq _
    unused := fun x => h.mem_unusedRules_iff names hg hnames hentries
    unused_unreachable := fun x => h.unreachable_of_unused names hg hnames hentries
    recursive := fun x => h.mem_recursiveRules_iff names hg hnames
    sites := h.sum_edges hg
    fanIn := by
      rw [h.nodes_eq, List.map_map]
      refine (h.perRule_entries hnames).trans (List.map_congr_left fun r _ => ?_)
      simp [GraphFacts.node]
    fanOut := by
      rw [h.nodes_eq, List.map_map]
      refine (h.perRule_entries hnames).trans (List.map_congr_left fun r _ => ?_)
      simp [GraphFacts.node]
    sum_fanIn := (congrArg List.sum (h.perRule_values hnames)).trans (h.sum_callers hg)
    sum_fanOut := (congrArg List.sum (h.perRule_values hnames)).trans h.sum_callees }

end Grammar

/-- A rule that is called in two places, and one that only calls itself. -/
def Builder.twice : Builder where
  name := "twice"
  rules := [
    { name := "s", kind := .parser, body := some (.sequence [.call "t", .call "t"]) },
    { name := "t", kind := .parser, body := some (.token ["'x'"]) },
    { name := "u", kind := .parser,
      body := some (.choice [.sequence [.token ["'x'"], .call "u"], .call "t"]) }]

theorem twice_consistent : ∃ g b' v graph, Builder.build.run.run Builder.twice = (.ok g, b') ∧
    g.validation = .ok v ∧ v.fatal = [] ∧ g.hasRule "s" = true ∧ g.ruleGraph ["s"] = .ok graph ∧
      graph.entryRules = ["s"] ∧ graph.Consistent g := by
  obtain ⟨g, b', hb⟩ : ∃ g b', Builder.build.run.run Builder.twice = (.ok g, b') := ⟨_, _, rfl⟩
  obtain ⟨v, hv, hfatal⟩ := Grammar.exists_validation (g := g) (by cases hb; decide)
    (by cases hb; decide +kernel)
  have hs : g.hasRule "s" = true := by
    cases hb
    decide +kernel
  obtain ⟨graph, hgraph, hentries, hconsistent⟩ := Grammar.ruleGraph_consistent hv hfatal
    fun name (hn : name ∈ ["s"]) => by rwa [List.mem_singleton.1 hn]
  exact ⟨g, b', v, graph, hb, hv, hfatal, hs, hgraph, hentries, hconsistent⟩

end RuleNetwork
