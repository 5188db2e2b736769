import RuleNetwork.Grammar.Walk
import RuleNetwork.Report

/-!
The surroundings of a decision: the first states that a breadth-first walk from it meets, up to a
limit, and the edges between them.
-/

set_option autoImplicit false

namespace RuleNetwork

structure GraphNode where
  id : Int
  label : String
  kind : StateKind
  isDecision : Bool := false
  deriving DecidableEq, Repr, Inhabited

structure GraphEdge where
  source : Int
  target : Int
  label : String
  deriving DecidableEq, Repr, Inhabited

structure DecisionGraph where
  ruleName : String
  decision : Int
  state : Int
  alternatives : Nat
  nodes : List GraphNode := []
  edges : List GraphEdge := []
  truncated : Bool := false
  deriving DecidableEq, Repr, Inhabited

namespace DecisionGraph

/-- The largest number of states shown. -/
def stateLimit : Nat := 20

/-- The states admitted so far and the edges between them. -/
structure Draft where
  states : OrderedSet Int
  edges : List GraphEdge := []
  truncated : Bool := false

namespace Draft

/-- An edge to a state beyond the limit is left out. -/
def follow (names : Array String) (source : Int) (d : Draft) (edge : Transition × Int) : Draft :=
  let (t, target) := edge
  let line : GraphEdge := ⟨source, target, t.label names⟩
  if d.states.contains target then { d with edges := d.edges ++ [line] }
  else if stateLimit ≤ d.states.size then { d with truncated := true }
  else { d with states := d.states.insert target, edges := d.edges ++ [line] }

def grow (g : Grammar) : Nat → Nat → Draft → Except Fault Draft
  | 0, _, d => .ok d
  | bound + 1, i, d =>
    match d.states.get? i with
    | none => .ok d
    | some s => do
      let edges ← g.network.edges s
      grow g bound (i + 1) (edges.foldl (follow g.ruleNames s) d)

end Draft

def nodeLabel (rule : String) (decision : Option Decision) (s : State) (id : Int) : String :=
  match decision, s.kind with
  | some d, _ => s!"Decision {d.id}"
  | none, .ruleStart => s!"{rule} start"
  | none, .ruleStop => s!"{rule} stop"
  | none, _ => s!"s{id}"

/-- Of several decisions at one state the last counts. -/
def node (g : Grammar) (rule : String) (id : Int) : Except Fault GraphNode := do
  let s ← g.network.state id
  let decision := g.decisions.reverse.find? fun d => d.state == id
  return ⟨id, nodeLabel rule decision s id, s.kind, decision.isSome⟩

def ofDecision (g : Grammar) (d : Decision) : Except Fault DecisionGraph := do
  let rule := (← g.ruleAt d.rule).name
  let draft ← Draft.grow g (stateLimit + 1) 0 { states := .ofList [d.state] }
  let nodes ← draft.states.toList.mapM (node g rule)
  return ⟨rule, d.id, d.state, d.alternatives, nodes, draft.edges, draft.truncated⟩

def escaped (s : String) : String :=
  String.ofList (s.toList.flatMap fun c => if c = '\\' ∨ c = '"' then ['\\', c] else [c])

def nodeLine (g : DecisionGraph) (n : GraphNode) : String :=
  if n.id = g.state then
    s!"  s{n.id} [label=\"Decision {g.decision}\", shape=diamond, style=filled, fillcolor=yellow];"
  else
    let shape := if n.kind = .ruleStop then ", shape=doublecircle" else ""
    s!"  s{n.id} [label=\"{escaped n.label}\"{shape}];"

def edgeLine (e : GraphEdge) : String :=
  s!"  s{e.source} -> s{e.target} [label=\"{escaped e.label}\"];"

def toDot (g : DecisionGraph) : String :=
  "\n".intercalate
    ([s!"digraph Decision_{g.decision} \x7b", "  rankdir=LR;", "  node [shape=box, style=rounded];", ""] ++
      g.nodes.map g.nodeLine ++ [""] ++ g.edges.map edgeLine ++ ["\x7d"]) ++ "\n"

end DecisionGraph

/-- The graphs of all decisions of one rule. -/
structure RuleDecisions where
  ruleName : String := ""
  graphs : List DecisionGraph := []
  deriving Inhabited

def Grammar.ruleDecisions (g : Grammar) (rule : String) : Except Fault RuleDecisions := do
  let index ← g.ruleIndex rule
  let own := g.decisions.filter fun d => d.rule == index
  return ⟨rule, ← own.mapM (DecisionGraph.ofDecision g)⟩

open Json in
def GraphNode.toJson (n : GraphNode) : Json :=
  .obj [("id", .int n.id), ("label", .str n.label), ("kind", .str n.kind.name),
    ("is_decision", .bool n.isDecision)]

def GraphEdge.toJson (e : GraphEdge) : Json :=
  .obj [("source", .int e.source), ("target", .int e.target), ("label", .str e.label)]

open Json in
def DecisionGraph.toJson (g : DecisionGraph) : Json :=
  .obj [("rule_name", .str g.ruleName), ("decision_number", .int g.decision),
    ("state_number", .int g.state), ("alternative_count", ofNat g.alternatives),
    ("nodes", ofList GraphNode.toJson g.nodes), ("edges", ofList GraphEdge.toJson g.edges),
    ("state_count", ofNat g.nodes.length), ("transition_count", ofNat g.edges.length),
    ("truncated", .bool g.truncated), ("dot_format", .str g.toDot)]

open Json in
instance : Fields RuleDecisions where
  fields r :=
    [("rule_name", .str r.ruleName), ("total_decisions", ofNat r.graphs.length),
      ("decisions", ofList DecisionGraph.toJson r.graphs)]

end RuleNetwork
