import RuleNetwork.Proofs.RuleGraph.Consistency
import RuleNetwork.Proofs.Text.Dot
import RuleNetwork.RuleGraph.Rendering

/-!
The rule graph as a drawing. Every rule is stated as a node and every pair of caller and callee as an
edge, in the order of the graph. Names are put between quotes as they are, so the text is read back as the
graph just if all of them are plain.
-/

set_option autoImplicit false

namespace RuleNetwork

open Dot

def RuleNode.style (n : RuleNode) : String := if n.unused then "dashed,filled" else "filled"

def RuleNode.statement (n : RuleNode) : Statement :=
  .node n.name [("fillcolor", n.color), ("shape", n.shape), ("style", n.style)]

def CallEdge.statement (e : CallEdge) : Statement := .edge e.caller e.callee []

namespace RuleGraph

/-- What the text of a graph is to state. -/
def drawing (g : RuleGraph) : List Statement :=
  .setting "rankdir" "LR" ::
    .defaults "node" [("shape", "box"), ("style", "rounded"), ("fontname", "Arial")] ::
    (g.nodes.map RuleNode.statement ++ g.edges.map CallEdge.statement)

theorem nodes_drawing (g : RuleGraph) : g.drawing.filterMap Statement.node? = g.nodes.map RuleNode.name := by
  have hnodes : Statement.node? ∘ RuleNode.statement = some ∘ RuleNode.name := rfl
  have hedges : Statement.node? ∘ CallEdge.statement = fun _ => none := rfl
  rw [drawing, List.filterMap_cons_none rfl, List.filterMap_cons_none rfl, List.filterMap_append,
    List.filterMap_map, List.filterMap_map, hnodes, hedges, List.filterMap_eq_map, List.filterMap_none,
    List.append_nil]

theorem edges_drawing (g : RuleGraph) :
    g.drawing.filterMap Statement.edge? = g.edges.map fun e => (e.caller, e.callee) := by
  have hnodes : Statement.edge? ∘ RuleNode.statement = fun _ => none := rfl
  have hedges : Statement.edge? ∘ CallEdge.statement = fun e => some (e.caller, e.callee) := rfl
  rw [drawing, List.filterMap_cons_none rfl, List.filterMap_cons_none rfl, List.filterMap_append,
    List.filterMap_map, List.filterMap_map, hnodes, hedges, List.filterMap_none, List.nil_append,
    List.filterMap_eq_map']

end RuleGraph

/-- Every line is closed by a line end. -/
theorem toList_linesText {l : List String} (hl : l ≠ []) :
    (RuleGraph.linesText l).toList = l.flatMap fun s => s.toList ++ ['\n'] := by
  obtain ⟨s, l, rfl⟩ := List.exists_cons_of_ne_nil hl
  clear hl
  rw [RuleGraph.linesText, String.toList_append, String.toList_intercalate]
  induction l generalizing s with
  | nil => simp
  | cons s' l ih =>
    rw [List.map_cons, List.map_cons, List.intercalate_cons_cons, List.flatMap_cons, ← ih s']
    simp

namespace RuleNode

/-- What follows the name in the line of a node. -/
def afterName (n : RuleNode) : List Char :=
  s!" [fillcolor=\"{n.color}\", shape={n.shape}, style=\"{n.style}\"];\n".toList

def attributeLexemes (n : RuleNode) : List Lexeme :=
  [.mark '[', .word "fillcolor", .mark '=', .quoted n.color, .mark ',', .word "shape", .mark '=',
    .word n.shape, .mark ',', .word "style", .mark '=', .quoted n.style, .mark ']']

theorem dotLine_eq (n : RuleNode) :
    n.dotLine.toList ++ ['\n'] = [' ', ' '] ++ '"' :: (n.name.toList ++ '"' :: n.afterName) := by
  simp only [dotLine, afterName, style, String.toList_append, List.append_assoc]
  rfl

theorem walk_afterName (n : RuleNode) :
    walk .gap n.afterName = some (n.attributeLexemes ++ [semicolon], .gap) := by
  unfold afterName attributeLexemes color shape style
  cases n.kind <;> cases n.unused <;> cases n.recursive <;> decide +kernel

theorem walk_dotLine {n : RuleNode} (h : Plain n.name) :
    walk .gap (n.dotLine.toList ++ ['\n']) =
      some (.quoted n.name :: n.attributeLexemes ++ [semicolon], .gap) := by
  rw [n.dotLine_eq, walk_append_of (x := [' ', ' ']) rfl, walk_plain h, n.walk_afterName]
  rfl

theorem statement?_lexemes (n : RuleNode) :
    statement? (.quoted n.name :: n.attributeLexemes) = some n.statement := by
  unfold attributeLexemes RuleNode.statement shape
  cases n.kind <;> rfl

theorem semicolon_notMem (n : RuleNode) : semicolon ∉ Lexeme.quoted n.name :: n.attributeLexemes := by
  simp [semicolon, attributeLexemes]

/-- The lines of the nodes are read back as the nodes just if their names are plain. -/
theorem body_dotLines {nodes : List RuleNode} {rest : List Char} {l : List Statement} :
    body ((nodes.flatMap fun n => n.dotLine.toList ++ ['\n']) ++ rest) =
        some (nodes.map RuleNode.statement ++ l) ↔
      (∀ n ∈ nodes, Plain n.name) ∧ body rest = some l := by
  induction nodes with
  | nil => simp
  | cons n nodes ih =>
    rw [List.flatMap_cons, List.append_assoc, List.map_cons, List.cons_append, List.forall_mem_cons, and_assoc,
      ← ih]
    have hline (hn : Plain n.name) := body_append (walk_dotLine hn) n.semicolon_notMem n.statement?_lexemes
      ((nodes.flatMap fun n => n.dotLine.toList ++ ['\n']) ++ rest)
    constructor
    · intro h
      have hn : Plain n.name := by
        rw [n.dotLine_eq, List.append_assoc, body_gap rfl, List.cons_append, List.append_assoc] at h
        exact plain_of_body h
      rw [hline hn] at h
      obtain ⟨l', hl', heq⟩ := Option.map_eq_some_iff.1 h
      exact ⟨hn, hl'.trans (congrArg some (List.cons.inj heq).2)⟩
    · rintro ⟨hn, h⟩
      rw [hline hn, h]
      rfl

end RuleNode

namespace CallEdge

def dotLine (e : CallEdge) : String := s!"  \"{e.caller}\" -> \"{e.callee}\";"

theorem dotLine_eq (e : CallEdge) : e.dotLine.toList ++ ['\n'] = [' ', ' '] ++ '"' :: (e.caller.toList ++
    '"' :: (" -> ".toList ++ '"' :: (e.callee.toList ++ '"' :: ";\n".toList))) := by
  simp only [dotLine, String.toList_append, List.append_assoc]
  rfl

theorem walk_dotLine {e : CallEdge} (hcaller : Plain e.caller) (hcallee : Plain e.callee) :
    walk .gap (e.dotLine.toList ++ ['\n']) =
      some ([.quoted e.caller, .arrow, .quoted e.callee] ++ [semicolon], .gap) := by
  rw [e.dotLine_eq, walk_append_of (x := [' ', ' ']) rfl, walk_plain hcaller,
    walk_append_of (x := " -> ".toList) rfl, walk_plain hcallee]
  rfl

theorem body_dotLines {edges : List CallEdge} (h : ∀ e ∈ edges, Plain e.caller ∧ Plain e.callee)
    (rest : List Char) : body ((edges.flatMap fun e => e.dotLine.toList ++ ['\n']) ++ rest) =
      (body rest).map (edges.map CallEdge.statement ++ ·) := by
  induction edges with
  | nil => simp
  | cons e edges ih =>
    obtain ⟨⟨hcaller, hcallee⟩, hedges⟩ := List.forall_mem_cons.1 h
    rw [List.flatMap_cons, List.append_assoc, body_append (walk_dotLine hcaller hcallee) (by simp [semicolon]) rfl,
      ih hedges]
    cases body rest <;> rfl

end CallEdge

namespace RuleGraph

/-- The lines of the text, in front of those of the nodes, between them and those of the edges, and at
the end. -/
theorem toList_toDot (g : RuleGraph) : g.toDot.toList = "digraph CallGraph \x7b\n".toList ++
    ("  rankdir=LR;\n".toList ++ ("  node [shape=box, style=rounded, fontname=\"Arial\"];\n".toList ++ (['\n'] ++
      ((g.nodes.flatMap fun n => n.dotLine.toList ++ ['\n']) ++ (['\n'] ++
        ((g.edges.flatMap fun e => e.dotLine.toList ++ ['\n']) ++ "\x7d\n".toList)))))) := by
  rw [toDot, toList_linesText (by simp [dotHeader])]
  simp only [List.flatMap_append, List.flatMap_map, List.append_assoc]
  rfl

/-- The text of a graph is read back as the graph just if the names of its nodes are plain. -/
theorem read_toDot_iff {g : RuleGraph} (hcaller : ∀ e ∈ g.edges, e.caller ∈ g.nodes.map RuleNode.name)
    (hcallee : ∀ e ∈ g.edges, e.callee ∈ g.nodes.map RuleNode.name) :
    read g.toDot = some g.drawing ↔ ∀ n ∈ g.nodes, Plain n.name := by
  have hedges (hplain : ∀ n ∈ g.nodes, Plain n.name) : body (['\n'] ++
      ((g.edges.flatMap fun e => e.dotLine.toList ++ ['\n']) ++ "\x7d\n".toList)) =
        some (g.edges.map CallEdge.statement) := by
    have hends : ∀ e ∈ g.edges, Plain e.caller ∧ Plain e.callee := fun e he =>
      ⟨List.forall_mem_map.2 hplain _ (hcaller e he), List.forall_mem_map.2 hplain _ (hcallee e he)⟩
    have hclose : body "\x7d\n".toList = some [] := rfl
    rw [body_gap rfl, CallEdge.body_dotLines hends, hclose, Option.map_some, List.append_nil]
  rw [read_eq_body g.toList_toDot rfl rfl, body_append (g := [.word "rankdir", .mark '=', .word "LR"]) rfl
      (by decide) rfl, body_append (g := .word "node" :: [.mark '[', .word "shape", .mark '=', .word "box",
      .mark ',', .word "style", .mark '=', .word "rounded", .mark ',', .word "fontname", .mark '=',
      .quoted "Arial", .mark ']']) rfl (by decide) rfl, body_gap rfl, Option.map_map, Option.map_eq_some_iff]
  constructor
  · rintro ⟨l, hl, heq⟩
    obtain ⟨-, heq⟩ := List.cons.inj heq
    obtain ⟨-, rfl⟩ := List.cons.inj heq
    exact (RuleNode.body_dotLines.1 hl).1
  · intro hplain
    exact ⟨_, RuleNode.body_dotLines.2 ⟨hplain, hedges hplain⟩, rfl⟩

end RuleGraph

namespace Grammar

variable {g : Grammar}

theorem GraphOf.names_of_edge {entries : List Int} {f : GraphFacts} (h : g.GraphOf entries f) (hg : g.Sound)
    (names : List String) {e : CallEdge} (he : e ∈ (f.graph names).edges) :
    e.caller ∈ (f.graph names).nodes.map RuleNode.name ∧ e.callee ∈ (f.graph names).nodes.map RuleNode.name := by
  obtain ⟨i, j, hij, hi, hj⟩ := (h.calls_iff_edge names).1 ⟨e, he, rfl, rfl⟩
  obtain ⟨⟨r, hr, rfl⟩, ⟨r', hr', rfl⟩⟩ := h.numbers_of_edge hg i j hij
  rw [hg.nameOf_index hr] at hi
  rw [hg.nameOf_index hr'] at hj
  rw [h.nodes_eq, List.map_map]
  exact ⟨List.mem_map.2 ⟨r, hr, hi⟩, List.mem_map.2 ⟨r', hr', hj⟩⟩

/-- The drawing of a grammar without errors states each rule as a node and each pair of caller and callee
as an edge, and its text is read back as this drawing just if the names of the rules are plain. -/
theorem drawing_reads_back {v : Validation} (hv : g.validation = .ok v) (hfatal : v.fatal = [])
    {asked : List String} (hasked : ∀ name ∈ asked, g.hasRule name = true) :
    ∃ graph, g.ruleGraph asked = .ok graph ∧
      (read graph.toDot = some graph.drawing ↔ ∀ r ∈ g.ruleList, Plain r.name) ∧
      graph.drawing.filterMap Statement.node? = g.ruleList.map Rule.name ∧
      graph.drawing.filterMap Statement.edge? = graph.edges.map (fun e => (e.caller, e.callee)) ∧
      (graph.drawing.filterMap Statement.edge?).Nodup ∧
      ∀ a b, (a, b) ∈ graph.drawing.filterMap Statement.edge? ↔ g.CallsNamed a b := by
  have hclean := (Validation.fatal_eq_nil_iff hv).1 hfatal
  have hg := sound_of_clean hclean
  have hnames := nodup_names_of_clean hclean
  obtain ⟨graph, hgraph, entries, f, -, h, rfl⟩ := hg.ruleGraph_yields hasked
  refine ⟨_, hgraph, ?_, ?_, RuleGraph.edges_drawing _, ?_, fun a b => ?_⟩
  all_goals generalize g.entriesOr asked = names
  · rw [RuleGraph.read_toDot_iff (fun e he => (h.names_of_edge hg names he).1)
      fun e he => (h.names_of_edge hg names he).2, h.forall_nodes]
    rfl
  · rw [RuleGraph.nodes_drawing, h.nodes_eq, List.map_map]
    rfl
  · rw [RuleGraph.edges_drawing]
    exact h.nodup_pairs hg hnames
  · rw [RuleGraph.edges_drawing, hg.callsNamed_iff, ← h.calls_iff names hg]
    simp [RuleGraph.Calls]

end Grammar

/-- One rule, of any name. -/
def Builder.single (name : String) : Builder where
  name := "single"
  rules := [{ name, kind := .parser, body := some (.token ["'x'"]) }]

/-- A name of letters is read back. A name with a quote is not, though the grammar has no errors. -/
theorem single_drawings :
    (∃ g b' graph, Builder.build.run.run (Builder.single "ab") = (.ok g, b') ∧ g.ruleGraph [] = .ok graph ∧
      read graph.toDot = some graph.drawing) ∧
    ∃ g b' graph, Builder.build.run.run (Builder.single "a\"b") = (.ok g, b') ∧ g.ruleGraph [] = .ok graph ∧
      read graph.toDot ≠ some graph.drawing := by
  constructor
  · obtain ⟨g, b', hb⟩ : ∃ g b', Builder.build.run.run (Builder.single "ab") = (.ok g, b') := ⟨_, _, rfl⟩
    obtain ⟨v, hv, hfatal⟩ := Grammar.exists_validation (g := g) (by cases hb; decide)
      (by cases hb; decide +kernel)
    obtain ⟨graph, hgraph, hread, -⟩ := Grammar.drawing_reads_back hv hfatal (List.forall_mem_nil _)
    refine ⟨g, b', graph, hb, hgraph, hread.2 ?_⟩
    cases hb
    decide
  · obtain ⟨g, b', hb⟩ : ∃ g b', Builder.build.run.run (Builder.single "a\"b") = (.ok g, b') := ⟨_, _, rfl⟩
    obtain ⟨v, hv, hfatal⟩ := Grammar.exists_validation (g := g) (by cases hb; decide)
      (by cases hb; decide +kernel)
    obtain ⟨graph, hgraph, hread, -⟩ := Grammar.drawing_reads_back hv hfatal (List.forall_mem_nil _)
    refine ⟨g, b', graph, hb, hgraph, fun h => absurd (hread.1 h) ?_⟩
    cases hb
    decide

end RuleNetwork
