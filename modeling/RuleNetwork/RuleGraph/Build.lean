import RuleNetwork.Grammar.Walk
import RuleNetwork.Graph.Depths
import RuleNetwork.Graph.Digraph
import RuleNetwork.RuleGraph.Basic

/-!
Building the rule graph from the call table. Entry rules and lexer rules are its roots: a lexer rule
is driven by the token scan, not by a caller. A rule is unused if it is no root and only itself calls
it.

Which rules call which: the distinct callees of every rule in the order of discovery, and how often
each pair of caller and callee meets.
-/

set_option autoImplicit false

namespace RuleNetwork

structure CallTable where
  callees : OrderedMap Int (List Int) := ∅
  sites : OrderedMap (Int × Int) Nat := ∅

namespace CallTable

def calleesOf (t : CallTable) (rule : Int) : List Int := (t.callees.get? rule).getD []

def sitesOf (t : CallTable) (caller callee : Int) : Nat := (t.sites.get? (caller, callee)).getD 0

def graph (t : CallTable) : Digraph Int := ⟨t.callees⟩

/-- Counts one call; a callee not met before is listed. -/
def note (caller : Int) (row : List Int × OrderedMap (Int × Int) Nat) (callee : Int) :
    List Int × OrderedMap (Int × Int) Nat :=
  match row.2.get? (caller, callee) with
  | some n => (row.1, row.2.put (caller, callee) (n + 1))
  | none => (row.1 ++ [callee], row.2.put (caller, callee) 1)

def addRule (g : Grammar) (t : CallTable) (r : Rule) : Except Fault CallTable := do
  let callees := (← g.calls r.index).filterMap Transition.rule
  callees.forM fun c => do
    let _ ← g.ruleAt c
  let (row, sites) := callees.foldl (note r.index) ([], t.sites)
  .ok ⟨t.callees.put r.index row, sites⟩

end CallTable

/-- A call to a rule that is not there is refused. -/
def Grammar.callTable (g : Grammar) : Except Fault CallTable :=
  g.ruleList.foldlM (CallTable.addRule g) {}

namespace Grammar

/-- The name of a rule, empty where there is none. -/
def nameOf (g : Grammar) (rule : Int) : String :=
  ((Position.forward? g.rules rule).map Rule.name).getD ""

/-- Entry rules first, then the lexer rules that are none. -/
def roots (g : Grammar) (entries : List Int) : List Int :=
  entries ++ ((g.ruleList.filter fun r => r.kind == .lexer).map Rule.index).filter
    fun i => !entries.contains i

end Grammar

namespace CallTable

variable (t : CallTable)

def callersOf (order : List Int) (rule : Int) : List Int :=
  order.filter fun c => (t.calleesOf c).contains rule

/-- A callee that is the number of no rule. -/
def strayCallee? (order : List Int) : Option Int :=
  (order.flatMap t.calleesOf).find? fun c => !order.contains c

/-- The rules that a chain of calls leads back to. -/
def recursive (order : List Int) : List Int :=
  (t.graph.components order).flatMap fun c =>
    c.filter fun i => 1 < c.length || (t.calleesOf i).contains i

end CallTable

/-- All that a rule's node is made from. -/
structure GraphFacts where
  grammar : Grammar
  table : CallTable
  order : List Int
  roots : List Int
  reached : OrderedSet Int
  recursive : List Int
  depths : List (Int × Nat)

namespace GraphFacts

variable (f : GraphFacts)

def callers (r : Rule) : List Int := f.table.callersOf f.order r.index

def depthOf (r : Rule) : Nat := ((f.depths.find? fun e => e.1 == r.index).map Prod.snd).getD 0

def isUnused (r : Rule) : Bool :=
  (f.callers r).all (· == r.index) && !f.roots.contains r.index

def isRecursive (r : Rule) : Bool := f.recursive.contains r.index

def isReached (r : Rule) : Bool := f.reached.contains r.index

def node (r : Rule) : RuleNode where
  name := r.name
  kind := r.kind
  calls := (f.table.calleesOf r.index).map f.grammar.nameOf
  calledBy := (f.callers r).map f.grammar.nameOf
  depth := f.depthOf r
  recursive := f.isRecursive r
  unused := f.isUnused r
  reachable := f.isReached r

def edges : List CallEdge :=
  f.order.flatMap fun a => (f.table.calleesOf a).map fun b =>
    ⟨f.grammar.nameOf a, f.grammar.nameOf b, f.table.sitesOf a b⟩

def perRule (count : Rule → Nat) : OrderedMap String Nat :=
  .ofList (f.grammar.ruleList.map fun r => (r.name, count r))

def namesWhere (p : Rule → Bool) : List String := (f.grammar.ruleList.filter p).map Rule.name

def graph (entries : List String) : RuleGraph where
  grammarName := f.grammar.name
  entryRules := entries
  nodes := f.grammar.ruleList.map f.node
  edges := f.edges
  cycles := (f.table.graph.cycles f.order).map fun c => c.map f.grammar.nameOf
  unusedRules := f.namesWhere f.isUnused
  unreachableRules := f.namesWhere fun r => !f.isReached r
  recursiveRules := f.namesWhere f.isRecursive
  fanIn := f.perRule fun r => (f.callers r).length
  fanOut := f.perRule fun r => (f.table.calleesOf r.index).length
  depths := f.perRule f.depthOf
  totalRules := f.grammar.rules.size

end GraphFacts

/-- The rule graph as seen from some entry rules; with none given, from the default ones. -/
def Grammar.ruleGraph (g : Grammar) (asked : List String) : Except Fault RuleGraph := do
  let entries := g.entriesOr asked
  let indices ← entries.mapM g.ruleIndex
  let table ← g.callTable
  let order := g.ruleList.map Rule.index
  if let some c := table.strayCallee? order then throw (.missingKey c)
  let roots := g.roots indices
  let depths ← (table.graph.depths order).mapError Fault.missingKey
  let facts : GraphFacts :=
    ⟨g, table, order, roots, table.graph.reach roots, table.recursive order, depths⟩
  return facts.graph entries

end RuleNetwork
