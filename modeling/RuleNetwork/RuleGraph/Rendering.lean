import RuleNetwork.RuleGraph.Basic

/-!
The rule graph as text for two diagram languages. Colours tell unused rules first, then recursive
ones, then the kinds.
-/

set_option autoImplicit false

namespace RuleNetwork

namespace RuleNode

def shape (n : RuleNode) : String :=
  match n.kind with
  | .parser => "box"
  | .lexer => "ellipse"
  | .fragment => "diamond"

def color (n : RuleNode) : String :=
  if n.unused then "lightgray"
  else if n.recursive then "lightyellow"
  else
    match n.kind with
    | .parser => "lightblue"
    | .lexer => "lightgreen"
    | .fragment => "lightyellow"

def dotLine (n : RuleNode) : String :=
  let style := if n.unused then "dashed,filled" else "filled"
  s!"  \"{n.name}\" [fillcolor=\"{n.color}\", shape={n.shape}, style=\"{style}\"];"

/-- A name for the diagram language, made of its plain letters and digits. -/
def plainName (n : RuleNode) : String :=
  String.ofList (n.name.toList.map fun c => if c.isAlphanum then c else '_')

def mark (n : RuleNode) : String :=
  (if n.recursive then "⟳ " else "") ++ (if n.unused then "✗ " else "")

/-- The position keeps two names apart that look alike when made plain. -/
def mermaidText (n : RuleNode) (position : Nat) : String :=
  s!"r{position}_{n.plainName}[\"{n.mark}{n.name}\"]"

end RuleNode

namespace RuleGraph

def dotHeader : List String :=
  ["digraph CallGraph \x7b", "  rankdir=LR;",
    "  node [shape=box, style=rounded, fontname=\"Arial\"];", ""]

def linesText (lines : List String) : String := "\n".intercalate lines ++ "\n"

def toDot (g : RuleGraph) : String :=
  linesText (dotHeader ++ g.nodes.map RuleNode.dotLine ++ [""] ++
    g.edges.map (fun e => s!"  \"{e.caller}\" -> \"{e.callee}\";") ++ ["\x7d"])

/-- How each rule is written; the last of several rules with one name counts. -/
def labels (g : RuleGraph) : OrderedMap String String :=
  .ofList (g.nodes.mapIdx fun i n => (n.name, n.mermaidText i))

/-- The edges between rules of the graph. -/
def inner (g : RuleGraph) : List (CallEdge × String × String) :=
  g.edges.filterMap fun e => do return (e, ← g.labels.get? e.caller, ← g.labels.get? e.callee)

/-- A rule without edges stands alone. -/
def toMermaid (g : RuleGraph) : String :=
  let connected (name : String) := g.inner.any fun (e, _) => e.caller == name || e.callee == name
  linesText ("graph LR" :: g.inner.map (fun (_, a, b) => s!"  {a} --> {b}") ++
    (g.nodes.filter fun n => !connected n.name).map fun n => "  " ++ (g.labels.get? n.name).getD "")

end RuleGraph

end RuleNetwork
