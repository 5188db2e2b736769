import RuleNetwork.Proofs.Grammar.Declarations
import RuleNetwork.Proofs.Layout.Compilation
import RuleNetwork.Proofs.LeftRecursion.Leftmost
import RuleNetwork.Proofs.LeftRecursion.Report
import RuleNetwork.Proofs.RuleGraph.Cycles

/-!
The cycles reported of a built grammar: those of its rule graph, and those of leftmost calls between
its parser rules. Every recursive rule is mutually recursive with the rules of a cycle reported, and
rules that call each other lie together on one. A recursive rule need not lie on a cycle reported: an
exploration that comes to it late finds its callees finished and closes no cycle through it.
-/

set_option autoImplicit false

namespace RuleNetwork

open Relation

namespace LeftRecursion

variable {a : LeftRecursion}

/-- A leftmost call from a parser rule to another one. -/
def CallsOther (a : LeftRecursion) (i j : Int) : Prop :=
  i ≠ j ∧ i ∈ a.grammar.parserRules.map Rule.index ∧ j ∈ a.grammar.parserRules.map Rule.index ∧
    a.Leftmost i j

theorem graph_edges (hg : a.grammar.Sound) (hverified : a.verified = true) :
    Yields (a.graph (a.grammar.parserRules.map Rule.index)) fun d => ∀ i j, d.Edge i j ↔
      i ∈ a.grammar.parserRules.map Rule.index ∧ j ∈ a.grammar.parserRules.map Rule.index ∧
        a.Leftmost i j := by
  have hnum : ∀ i ∈ a.grammar.parserRules.map Rule.index, a.grammar.Numbers i :=
    fun i hi => numbers_of_parserRules hi
  generalize a.grammar.parserRules.map Rule.index = order at *
  have hrow : ∀ i ∈ order, ∃ l, a.calleesOf order i = .ok l ∧ ∀ j, j ∈ l ↔ j ∈ order ∧ a.Leftmost i j := by
    intro i hi
    obtain ⟨l, hl, -⟩ := leftmostCalls_yields hg (hnum i hi)
    refine ⟨_, bind_eq_ok.2 ⟨l, hl, rfl⟩, fun j => ?_⟩
    rw [List.mem_filter, List.contains_iff_mem, and_comm]
    refine and_congr_right fun _ => ⟨fun hj => ⟨l, hl, hj⟩, fun ⟨l', hl', hj⟩ => ?_⟩
    rw [hl] at hl'
    cases hl'
    exact hj
  obtain ⟨rows, hrows⟩ := exists_mapM (l := order) (f := fun i => do return (i, ← a.calleesOf order i))
    fun i hi => (hrow i hi).elim fun l hl => ⟨(i, l), bind_eq_ok.2 ⟨l, hl.1, rfl⟩⟩
  have hmem : ∀ i l, (i, l) ∈ rows ↔ i ∈ order ∧ a.calleesOf order i = .ok l := fun i l => by
    rw [mem_of_mapM hrows]
    constructor
    · rintro ⟨i', hi', heq⟩
      obtain ⟨l', hl', heq⟩ := bind_eq_ok.1 heq
      cases heq
      exact ⟨hi', hl'⟩
    · exact fun ⟨hi, hl⟩ => ⟨i, hi, bind_eq_ok.2 ⟨l, hl, rfl⟩⟩
  have hagree : ∀ e ∈ rows, ∀ e' ∈ rows, e.1 = e'.1 → e.2 = e'.2 := fun e he e' he' heq => by
    have hl := ((hmem e.1 e.2).1 he).2
    rw [heq, ((hmem e'.1 e'.2).1 he').2] at hl
    exact (Except.ok.inj hl).symm
  unfold graph
  rw [if_pos hverified]
  refine exists_bind hrows ⟨_, rfl, fun i j => ?_⟩
  rw [Digraph.edge_iff]
  simp only [Digraph.ofRows, ← OrderedMap.get?_eq_some_iff, OrderedMap.get?_ofList_iff hagree, hmem]
  constructor
  · rintro ⟨l, ⟨hi, hl⟩, hj⟩
    obtain ⟨l', hl', hiff⟩ := hrow i hi
    rw [hl] at hl'
    cases hl'
    exact ⟨hi, (hiff j).1 hj⟩
  · rintro ⟨hi, hj⟩
    obtain ⟨l, hl, hiff⟩ := hrow i hi
    exact ⟨l, ⟨hi, hl⟩, (hiff j).2 hj⟩

/-- The cycles reported with verification meet every closed walk of leftmost calls between different
parser rules. -/
theorem indirect_meets (hg : a.grammar.Sound) (hnames : (a.grammar.ruleList.map Rule.name).Nodup)
    (hverified : a.verified = true) :
    Yields a.indirect (Meets (a.grammar.Between a.CallsOther)) := by
  refine (graph_edges hg hverified).bind fun d hedge => .ok ?_
  have hmeets : Meets a.CallsOther ((d.cycles (a.grammar.parserRules.map Rule.index)).filter
      fun c => 1 < c.length) := by
    have hsteps : a.CallsOther = fun i j => i ≠ j ∧ d.Edge i j := by
      funext i j
      exact propext (and_congr_right fun _ => (hedge i j).symm)
    rw [hsteps]
    exact (Digraph.meets_cycles fun {i j} hij => ((hedge i j).1 hij).1).several
  exact hmeets.map (fun i j hij => ⟨numbers_of_parserRules hij.2.1, numbers_of_parserRules hij.2.2.1⟩)
    (hg.nameOf_inj hnames)

theorem ofGrammar_verified {g : Grammar} (h : ofGrammar g true = .ok a) :
    a.grammar = g ∧ a.verified = true := by
  obtain ⟨n, -, h⟩ := bind_eq_ok.1 h
  cases h
  exact ⟨rfl, rfl⟩

theorem cycles_report {report : LeftRecursionReport} (h : a.report = .ok report) :
    a.indirect = .ok report.cycles := by
  obtain ⟨rules, -, h⟩ := bind_eq_ok.1 h
  obtain ⟨cycles, hcycles, h⟩ := bind_eq_ok.1 h
  cases h
  exact hcycles

end LeftRecursion

namespace Builder

variable {g : Grammar} {b' : Builder}

/-- The cycles reported of what is built from declarations, when the entry rules asked for are declared.
The recursive rules are those that calls lead back to. The cycles of the rule graph are closed walks of
calls and meet every closed walk of calls; so each recursive rule is mutually recursive with all rules of
a cycle listed, and rules that call each other lie together on one. It is the same with the cycles of
leftmost calls between different parser rules, where there is a report on them: there is one just if
every level that a guard names is short enough to be read. -/
theorem cycles_of_build {name : String} {entryRules : List String} {steps : List Step}
    (h : build.run.run (afterAll { name, entryRules } steps) = (.ok g, b')) {asked : List String}
    (hasked : ∀ n ∈ asked, (afterAll { name, entryRules } steps).declares n = true) :
    ∃ graph a, g.ruleGraph asked = .ok graph ∧ LeftRecursion.ofGrammar g true = .ok a ∧
      (∀ x y, graph.Calls x y ↔ g.Between g.CallsRule x y) ∧
      (∀ x, x ∈ graph.recursiveRules ↔ TransGen graph.Calls x x) ∧
      Meets graph.Calls graph.cycles ∧
      (∀ x ∈ graph.recursiveRules, ∃ c ∈ graph.cycles, ∀ y ∈ c,
        TransGen graph.Calls x y ∧ TransGen graph.Calls y x) ∧
      (∀ x y, graph.Calls x y → graph.Calls y x → Together graph.cycles x y) ∧
      Reads (g.leftRecursion true) g.NamesLevel ∧
      ∀ report, g.leftRecursion true = .ok report → Meets (g.Between a.CallsOther) report.cycles ∧
        (∀ x, TransGen (g.Between a.CallsOther) x x → ∃ c ∈ report.cycles, ∀ y ∈ c,
          TransGen (g.Between a.CallsOther) x y ∧ TransGen (g.Between a.CallsOther) y x) ∧
        ∀ x y, g.Between a.CallsOther x y → g.Between a.CallsOther y x →
          Together report.cycles x y := by
  have hordered := ordered_afterAll (ordered_new name entryRules) steps
  generalize afterAll { name, entryRules } steps = b at *
  have hg := proper_of_build h
  have hhas := hasRule_of_build h
  have hsound := hg.sound fun n hn => (hhas n).trans ((build_ok h).2.2.1 n hn)
  have hnames : (g.ruleList.map Rule.name).Nodup := hordered.nodup_of_build h
  obtain ⟨graph, hgraph, entries, f, -, hof, rfl⟩ :=
    hsound.ruleGraph_yields fun n hn => (hhas n).trans (hasked n hn)
  obtain ⟨a, ha, -⟩ := hg.leftRecursion_ok
  obtain ⟨rfl, hverified⟩ := LeftRecursion.ofGrammar_verified ha
  have hcycles := hof.meets_cycles (a.grammar.entriesOr asked) hsound hnames
  have hrecursive := fun x => hof.mem_recursiveRules_iff (a.grammar.entriesOr asked) hsound hnames (x := x)
  refine ⟨_, a, hgraph, ha, fun x y => hof.calls_iff (a.grammar.entriesOr asked) hsound, hrecursive,
    hcycles, fun x hx => hcycles.exists_connected ((hrecursive x).1 hx),
    fun x y => hcycles.together_of_steps, hsound.leftRecursion_reads true, fun report hreport => ?_⟩
  obtain ⟨a', ha', hreport⟩ := bind_eq_ok.1 hreport
  obtain rfl := Except.ok.inj (ha.symm.trans ha')
  have hleft : Meets (a.grammar.Between a.CallsOther) report.cycles :=
    (LeftRecursion.indirect_meets hsound hnames hverified).of_eq (LeftRecursion.cycles_report hreport)
  exact ⟨hleft, fun x => hleft.exists_connected, fun x y => hleft.together_of_steps⟩

/-- Three rules that call each other, the third one called second by the first. -/
def knot : List Step := [
  .rule "a" (.choice [.sequence [.call "b", .token ["'x'"]], .sequence [.call "c", .token ["'y'"]]]) none,
  .rule "b" (.choice [.sequence [.call "a", .token ["'z'"]], .token ["'w'"]]) none,
  .rule "c" (.sequence [.call "b", .token ["'v'"]]) none]

theorem knot_table (h : build.run.run (afterAll { name := "knot", entryRules := [] } knot) = (.ok g, b'))
    {t : CallTable} (ht : g.callTable = .ok t) :
    t.graph = .ofRows [(0, [1, 2]), (1, [0]), (2, [1])] := by
  have hentries : g.callTable.map (fun t => t.callees.entries) = .ok [(0, [1, 2]), (1, [0]), (2, [1])] := by
    rw [Grammar.callTable_eq]
    cases h
    decide +kernel
  rw [ht] at hentries
  obtain ⟨⟨rows, hrows⟩, sites⟩ := t
  cases hentries
  rfl

/-- The first two of the three rules lie on a cycle listed, the third one on none. It is recursive, and
mutually recursive with both. -/
theorem knot_cycles : ∃ g b' graph,
    build.run.run (afterAll { name := "knot", entryRules := [] } knot) = (.ok g, b') ∧
      g.ruleGraph [] = .ok graph ∧ graph.cycles = [["a", "b"]] ∧ "c" ∈ graph.recursiveRules ∧
      ∃ c ∈ graph.cycles, ∀ y ∈ c, TransGen graph.Calls "c" y ∧ TransGen graph.Calls y "c" := by
  obtain ⟨g, b', h⟩ : ∃ g b', build.run.run (afterAll { name := "knot", entryRules := [] } knot) =
    (.ok g, b') := ⟨_, _, rfl⟩
  obtain ⟨graph, -, hgraph, -, -, hrecursive, -, hconnected, -⟩ :=
    cycles_of_build h fun n hn => absurd hn List.not_mem_nil
  have hsound := (proper_of_build h).sound fun n hn =>
    (hasRule_of_build h n).trans ((build_ok h).2.2.1 n hn)
  obtain ⟨-, hgraph', entries, f, -, hof, rfl⟩ :=
    hsound.ruleGraph_yields fun n hn => absurd hn List.not_mem_nil
  cases hgraph.symm.trans hgraph'
  have htable := knot_table h hof.filled
  obtain ⟨hnames, horder⟩ : [0, 1, 2].map g.nameOf = ["a", "b", "c"] ∧
      g.ruleList.map Rule.index = [0, 1, 2] := by
    cases h
    exact ⟨rfl, rfl⟩
  simp only [List.map_cons, List.map_nil, List.cons.injEq, and_true] at hnames
  obtain ⟨ha, hb, hc⟩ := hnames
  have hcalls : ∀ {i j : Int}, j ∈ f.table.graph.successors i →
      (f.graph (g.entriesOr [])).Calls (g.nameOf i) (g.nameOf j) :=
    fun hij => (hof.calls_iff_edge _).2 ⟨_, _, hij, rfl, rfl⟩
  rw [htable] at hcalls
  have hcb := @hcalls 2 1 (by decide)
  have hba := @hcalls 1 0 (by decide)
  have hac := @hcalls 0 2 (by decide)
  rw [ha, hc] at hac
  rw [hb, ha] at hba
  rw [hc, hb] at hcb
  have hloop := ((TransGen.single hcb).tail hba).tail hac
  refine ⟨g, b', _, h, hgraph, ?_, (hrecursive "c").2 hloop, hconnected "c" ((hrecursive "c").2 hloop)⟩
  rw [hof.cycles_eq, hof.order, horder, htable, Digraph.cycles_triangle, List.map_singleton,
    List.map_cons, List.map_singleton, ha, hb]

end Builder

end RuleNetwork
