import RuleNetwork.Proofs.Graph.Components
import RuleNetwork.Proofs.Graph.Cycles
import RuleNetwork.Proofs.RuleGraph.Build

/-!
The recursive rules and the cycles of a rule graph. A rule is marked as recursive just if calls lead
back to it. The cycles listed are closed walks of calls, and they meet every closed walk of calls, so
each recursive rule is mutually recursive with the rules of a cycle listed.
-/

set_option autoImplicit false

namespace RuleNetwork

open Relation

/-- A rule graph has an edge from a caller to a callee. -/
def RuleGraph.Calls (graph : RuleGraph) (caller callee : String) : Prop :=
  ∃ e ∈ graph.edges, e.caller = caller ∧ e.callee = callee

namespace CallTable

variable {t : CallTable} {order : List Int}

theorem mem_recursive_iff {i : Int} (hi : i ∈ order) :
    i ∈ t.recursive order ↔ TransGen t.graph.Edge i i := by
  obtain ⟨hpart, hall⟩ := Digraph.partition_components (g := t.graph) order
  have hloop : ∀ c ∈ t.graph.components order, i ∈ c →
      (TransGen t.graph.Edge i i ↔ 1 < c.length ∨ t.graph.Edge i i) := fun c hc hic =>
    Digraph.transGen_self_iff (hpart.component c hc).2.1 hic ((hpart.component c hc).2.2 i hic)
  have hcond : ∀ c : List Int, (1 < c.length || (t.calleesOf i).contains i) = true ↔
      1 < c.length ∨ t.graph.Edge i i := fun c => by
    rw [Bool.or_eq_true, decide_eq_true_iff, List.contains_iff_mem]
    rfl
  unfold recursive
  rw [List.mem_flatMap]
  constructor
  · rintro ⟨c, hc, hic⟩
    obtain ⟨hic, hlisted⟩ := List.mem_filter.1 hic
    exact (hloop c hc hic).2 ((hcond c).1 hlisted)
  · intro hcycle
    obtain ⟨c, hc, hic⟩ := List.mem_flatten.1 ((hall i).2 ⟨i, hi, .refl⟩)
    exact ⟨c, hc, List.mem_filter.2 ⟨hic, (hcond c).2 ((hloop c hc hic).1 hcycle)⟩⟩

end CallTable

namespace Grammar

variable {g : Grammar}

/-- Steps between rules, told by their names. -/
def Between (g : Grammar) (step : Int → Int → Prop) : String → String → Prop :=
  Relation.Map step g.nameOf g.nameOf

namespace Sound

variable (hg : g.Sound)
include hg

theorem numbers_caller {i j : Int} (h : g.CallsRule i j) : g.Numbers i := by
  obtain ⟨l, hl, -⟩ := h
  obtain ⟨ts, hts, -⟩ := bind_eq_ok.1 hl
  obtain ⟨states, hstates, -⟩ := bind_eq_ok.1 hts
  obtain ⟨r, hr, -⟩ := bind_eq_ok.1 hstates
  exact ⟨r, hg.mem_of_ruleAt hr⟩

theorem nameOf_index {r : Rule} (hr : r ∈ g.ruleList) : g.nameOf r.index = r.name := by
  obtain ⟨k, hk⟩ := Array.mem_iff_getElem?.1 (Array.mem_toList_iff.1 hr)
  rw [nameOf, Position.forward?_eq_some.2 ⟨k, hg.index hk, hk⟩]
  rfl

theorem nameOf_inj (hnames : (g.ruleList.map Rule.name).Nodup) (i j : Int) (hi : g.Numbers i)
    (hj : g.Numbers j) (h : g.nameOf i = g.nameOf j) : i = j := by
  obtain ⟨r, hr, rfl⟩ := hi
  obtain ⟨s, hs, rfl⟩ := hj
  rw [hg.nameOf_index hr, hg.nameOf_index hs] at h
  rw [List.inj_on_of_nodup_map hnames hr hs h]

end Sound

namespace GraphOf

variable {entries : List Int} {f : GraphFacts} (h : g.GraphOf entries f) (asked : List String)
include h

theorem edge_iff {i j : Int} : f.table.graph.Edge i j ↔ g.Numbers i ∧ g.CallsRule i j :=
  h.table.mem_calleesOf

theorem mem_order {i : Int} : i ∈ f.order ↔ g.Numbers i := by
  rw [h.order, List.mem_map]
  rfl

theorem calls_iff_edge {x y : String} :
    (f.graph asked).Calls x y ↔ g.Between f.table.graph.Edge x y := by
  constructor
  · rintro ⟨e, he, rfl, rfl⟩
    obtain ⟨i, -, he⟩ := List.mem_flatMap.1 he
    obtain ⟨j, hij, rfl⟩ := List.mem_map.1 he
    exact ⟨i, j, hij, h.grammar ▸ rfl, h.grammar ▸ rfl⟩
  · rintro ⟨i, j, hij, rfl, rfl⟩
    refine ⟨⟨g.nameOf i, g.nameOf j, f.table.sitesOf i j⟩, List.mem_flatMap.2 ⟨i, ?_, ?_⟩, rfl, rfl⟩
    · exact h.mem_order.2 (h.edge_iff.1 hij).1
    · exact List.mem_map.2 ⟨j, hij, by rw [h.grammar]⟩

theorem cycles_eq :
    (f.graph asked).cycles = (f.table.graph.cycles f.order).map (List.map g.nameOf) := by
  rw [← h.grammar]
  rfl

variable (hg : g.Sound) (hnames : (g.ruleList.map Rule.name).Nodup)
include hg

theorem numbers_of_edge (i j : Int) (hij : f.table.graph.Edge i j) : g.Numbers i ∧ g.Numbers j := by
  obtain ⟨hi, hcalls⟩ := h.edge_iff.1 hij
  exact ⟨hi, hg.numbers_of_callsRule hi hcalls⟩

theorem calls_iff {x y : String} : (f.graph asked).Calls x y ↔ g.Between g.CallsRule x y := by
  have hedge : f.table.graph.Edge = g.CallsRule := by
    funext i j
    exact propext (h.edge_iff.trans (and_iff_right_iff_imp.2 hg.numbers_caller))
  rw [h.calls_iff_edge, hedge]

include hnames

/-- The cycles listed are closed walks of calls, and they meet every closed walk of calls. -/
theorem meets_cycles : Meets (f.graph asked).Calls (f.graph asked).cycles := by
  have hcalls : (f.graph asked).Calls = g.Between f.table.graph.Edge := by
    funext x y
    exact propext (h.calls_iff_edge asked)
  have hedge : Meets f.table.graph.Edge (f.table.graph.cycles f.order) :=
    Digraph.meets_cycles fun hij => h.mem_order.2 (h.edge_iff.1 hij).1
  rw [hcalls, h.cycles_eq]
  exact hedge.map (h.numbers_of_edge hg) (hg.nameOf_inj hnames)

/-- The recursive rules are those that calls lead back to. -/
theorem mem_recursiveRules_iff {x : String} :
    x ∈ (f.graph asked).recursiveRules ↔ TransGen (f.graph asked).Calls x x := by
  have hrule : ∀ r ∈ g.ruleList, f.isRecursive r = true ↔ TransGen f.table.graph.Edge r.index r.index :=
    fun r hr => by
      rw [GraphFacts.isRecursive, h.recursive, List.contains_iff_mem]
      exact CallTable.mem_recursive_iff (h.mem_order.2 ⟨r, hr, rfl⟩)
  have hlist : (f.graph asked).recursiveRules = (g.ruleList.filter f.isRecursive).map Rule.name := by
    rw [← h.grammar]
    rfl
  rw [hlist, List.mem_map]
  constructor
  · rintro ⟨r, hr, rfl⟩
    obtain ⟨hr, hrec⟩ := List.mem_filter.1 hr
    rw [← hg.nameOf_index hr]
    exact ((hrule r hr).1 hrec).lift g.nameOf fun i j hij => (h.calls_iff_edge asked).2 ⟨i, j, hij, rfl, rfl⟩
  · intro hloop
    have hnamed : TransGen (g.Between f.table.graph.Edge) x x :=
      hloop.lift id fun _ _ => (h.calls_iff_edge asked).1
    obtain ⟨i, j, hi, hj, rfl, hname, hij⟩ :=
      exists_transGen_of_map (h.numbers_of_edge hg) (hg.nameOf_inj hnames) hnamed
    obtain rfl := hg.nameOf_inj hnames j i hj hi hname
    obtain ⟨r, hr, rfl⟩ := hi
    exact ⟨r, List.mem_filter.2 ⟨hr, (hrule r hr).2 hij⟩, (hg.nameOf_index hr).symm⟩

end GraphOf

end Grammar

end RuleNetwork
