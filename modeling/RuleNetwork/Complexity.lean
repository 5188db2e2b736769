import RuleNetwork.Number.Binary64
import RuleNetwork.RuleGraph.Build

/-!
Complexity of rules. A rule's score adds up its alternatives, twice its decisions, the rules it calls,
and a surcharge if it recurses.
-/

set_option autoImplicit false

namespace RuleNetwork

structure RuleComplexity where
  name : String
  kind : RuleKind
  alternatives : Int
  decisions : Nat
  widest : Nat
  depth : Nat
  fanIn : Nat
  fanOut : Nat
  recursive : Bool
  deriving DecidableEq, Repr, Inhabited

namespace RuleComplexity

def recursionSurcharge : Int := 3

def score (c : RuleComplexity) : Int :=
  c.alternatives + 2 * c.decisions + c.fanOut + if c.recursive then recursionSurcharge else 0

/-- Higher scores first, and among equals by name. -/
def outranks (a b : RuleComplexity) : Bool :=
  b.score < a.score || (a.score == b.score && decide (a.name ≤ b.name))

end RuleComplexity

structure ComplexityReport where
  rules : OrderedMap String RuleComplexity := ∅
  average : Number.Binary64 := .zero false

instance : Inhabited ComplexityReport := ⟨{}⟩

namespace ComplexityReport

variable (r : ComplexityReport)

def count (kind : RuleKind) : Nat := (r.rules.values.filter fun c => c.kind == kind).length

def decisions : Nat := (r.rules.values.map RuleComplexity.decisions).foldr (· + ·) 0

def deepest : Nat := (r.rules.values.map RuleComplexity.depth).foldl max 0

/-- How many rules are named as the most complex ones. -/
def shown : Nat := 5

def mostComplex : List String :=
  ((r.rules.values.mergeSort RuleComplexity.outranks).take shown).map RuleComplexity.name

end ComplexityReport

namespace Grammar

/-- The decision states of a rule, nearest to its start first. -/
def decisionStates (g : Grammar) (r : Rule) : Except Fault (List State) := do
  return (← (← g.walk r.index).mapM g.network.state).filter fun s => s.kind == .decision

/-- A rule that the graph lacks calls nothing and is called by nothing. -/
def ruleComplexity (g : Grammar) (graph : RuleGraph) (r : Rule) : Except Fault RuleComplexity := do
  let states ← g.decisionStates r
  let node := graph.node? r.name
  return {
    name := r.name
    kind := r.kind
    alternatives := max r.alternatives 1
    decisions := states.length
    widest := (states.map fun s => s.transitions.length).foldl max 0
    depth := (node.map RuleNode.depth).getD 0
    fanIn := (node.map fun n => n.calledBy.length).getD 0
    fanOut := (node.map fun n => n.calls.length).getD 0
    recursive := node.any RuleNode.recursive }

/-- The mean number of alternatives, rounded to two places. -/
def averageAlternatives (rules : List RuleComplexity) : Except Fault Number.Binary64 :=
  if rules.isEmpty then .ok (.zero false)
  else
    let alternatives := (rules.map RuleComplexity.alternatives).foldr (· + ·) 0
    match Number.Binary64.ofQuotient? alternatives rules.length with
    | some q => .ok (q.roundPlaces 2)
    | none => .error .quotientTooLarge

/-- Of several rules with one name the last counts. -/
def complexityIn (g : Grammar) (graph : RuleGraph) : Except Fault ComplexityReport := do
  let rules ← g.ruleList.mapM fun r => do return (r.name, ← g.ruleComplexity graph r)
  let rules := OrderedMap.ofList rules
  return ⟨rules, ← averageAlternatives rules.values⟩

def complexity (g : Grammar) (asked : List String) : Except Fault ComplexityReport := do
  g.complexityIn (← g.ruleGraph asked)

end Grammar

open Json in
def RuleComplexity.toJson (c : RuleComplexity) : Json :=
  .obj [("rule_name", .str c.name), ("type", .str c.kind.name), ("alternatives", .int c.alternatives),
    ("decision_points", ofNat c.decisions), ("max_decision_alternatives", ofNat c.widest),
    ("depth", ofNat c.depth), ("fan_in", ofNat c.fanIn), ("fan_out", ofNat c.fanOut),
    ("recursive", .bool c.recursive), ("score", .int c.score)]

open Json in
instance : Fields ComplexityReport where
  fields r :=
    [("total_rules", ofNat r.rules.values.length), ("parser_rules", ofNat (r.count .parser)),
      ("lexer_rules", ofNat (r.count .lexer)), ("fragment_rules", ofNat (r.count .fragment)),
      ("avg_alternatives_per_rule", .real r.average), ("total_decision_points", ofNat r.decisions),
      ("max_rule_depth", ofNat r.deepest),
      ("rule_metrics", .obj (r.rules.entries.map fun (k, c) => (k, c.toJson))),
      ("most_complex", ofStrings r.mostComplex)]

end RuleNetwork
