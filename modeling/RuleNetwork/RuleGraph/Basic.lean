import RuleNetwork.Container.OrderedMap
import RuleNetwork.Grammar.Basic
import RuleNetwork.Report

/-!
The rule graph: who calls whom, which rules recurse, which are never used and which no entry leads
to.
-/

set_option autoImplicit false

namespace RuleNetwork

structure RuleNode where
  name : String
  kind : RuleKind
  calls : List String := []
  calledBy : List String := []
  depth : Nat := 0
  recursive : Bool := false
  unused : Bool := false
  reachable : Bool := true
  deriving DecidableEq, Repr, Inhabited

/-- A caller, a callee, and in how many places the one calls the other. -/
structure CallEdge where
  caller : String
  callee : String
  sites : Nat := 1
  deriving DecidableEq, Repr, Inhabited

/-- A closed walk, written with its first rule repeated at the end. -/
def closedPath (rules : List String) : String := " -> ".intercalate (rules ++ rules.take 1)

structure RuleGraph where
  grammarName : String := ""
  entryRules : List String := []
  nodes : List RuleNode := []
  edges : List CallEdge := []
  cycles : List (List String) := []
  unusedRules : List String := []
  unreachableRules : List String := []
  recursiveRules : List String := []
  fanIn : OrderedMap String Nat := ∅
  fanOut : OrderedMap String Nat := ∅
  depths : OrderedMap String Nat := ∅
  totalRules : Nat := 0

instance : Inhabited RuleGraph := ⟨{}⟩

namespace RuleGraph

def node? (g : RuleGraph) (name : String) : Option RuleNode := g.nodes.find? fun n => n.name == name

def callees (g : RuleGraph) (name : String) : List String := ((g.node? name).map RuleNode.calls).getD []

end RuleGraph

open Json in
def RuleNode.toJson (n : RuleNode) : Json :=
  .obj [("rule_name", .str n.name), ("type", .str n.kind.name), ("calls", ofStrings n.calls),
    ("called_by", ofStrings n.calledBy), ("depth", ofNat n.depth), ("recursive", .bool n.recursive),
    ("unused", .bool n.unused), ("reachable", .bool n.reachable)]

def CallEdge.toJson (e : CallEdge) : Json :=
  .obj [("caller", .str e.caller), ("callee", .str e.callee), ("call_sites", .ofNat e.sites)]

def countsJson (m : OrderedMap String Nat) : Json := .obj (m.entries.map fun (k, n) => (k, .ofNat n))

open Json in
instance : Fields RuleGraph where
  fields g :=
    [("grammar_name", .str g.grammarName), ("entry_rules", ofStrings g.entryRules),
      ("nodes", ofList RuleNode.toJson g.nodes), ("edges", ofList CallEdge.toJson g.edges),
      ("cycles", ofList (fun c => .obj [("rules", ofStrings c)]) g.cycles),
      ("unused_rules", ofStrings g.unusedRules), ("unreachable_rules", ofStrings g.unreachableRules),
      ("recursive_rules", ofStrings g.recursiveRules), ("fan_in", countsJson g.fanIn),
      ("fan_out", countsJson g.fanOut), ("depths", countsJson g.depths),
      ("total_rules", ofNat g.totalRules)]

end RuleNetwork
