import RuleNetwork.Chart.Index
import RuleNetwork.Lookahead.Analysis
import RuleNetwork.Parsing.Execution
import RuleNetwork.Parsing.Ties
import RuleNetwork.Sample.Token
import RuleNetwork.Text.Quoted
import Std.Data.HashMap

/-!
A parse that tells what it went through. An alternative is viable at a visit if a derivation takes it
there. A decision has to look no further than one token if that token is in the lookahead of one
alternative only; if not, it looks up to the end of its rule.

What every parse with a grammar needs, built once: the edges read backwards, and the decisions by state.
How text is cut into tokens is no part of it.
-/

set_option autoImplicit false

namespace RuleNetwork

structure ParseTables where
  grammar : Grammar
  index : ChartIndex
  decisionAt : Std.HashMap Int Decision

namespace ParseTables

def ofGrammar (g : Grammar) : Except Fault ParseTables := do
  let index ← ChartIndex.ofGrammar g
  return ⟨g, index, g.decisions.foldl (fun m d => m.insert d.state d) ∅⟩

variable (p : ParseTables)

/-- The state of the outermost decision of a rule with several alternatives; it has the lowest number
among the rule's decisions. -/
def outerDecision? (rule : Int) : Option Int :=
  if p.grammar.ruleList.any fun r => r.index == rule && 2 ≤ r.alternatives then
    (p.decisionAt.toList.filterMap fun (s, d) => if d.rule = rule then some s else none).min?
  else none

end ParseTables

/-- A useful visit at a decision. -/
structure DecisionVisit where
  visit : Visit
  decision : Decision
  viable : List Nat
  /-- The furthest end of the invocation. -/
  stop : Nat

/-- How far a decision had to look at one visit. -/
structure Look where
  decision : Nat
  distance : Nat
  fallback : Bool

/-- The alternatives that tie at one visit. -/
structure Tie where
  decision : Decision
  start : Nat
  stop : Nat
  alternatives : List Nat

/-- All that one parse leaves behind. -/
structure Traces where
  tables : ParseTables
  tokens : TokenStream
  ties : Ties
  visits : List Visit

namespace Traces

variable (x : Traces)

def chart : Chart := x.ties.chart

def network : Network := x.tables.grammar.network

def rulesVisited : Except Fault (List Int) := do
  let rules ← x.visits.mapM fun v => do return (← x.network.state v.state).rule
  return (OrderedSet.ofList rules).toList.mergeSort fun a b => decide (a ≤ b)

/-- The furthest end of every invocation that ends. -/
def invocationEnds : Except Fault (Std.HashMap Invocation Nat) :=
  x.visits.foldlM (fun ends v => do
    let s ← x.network.state v.state
    let i : Invocation := ⟨s.rule, v.origin⟩
    return if s.kind == .ruleStop then ends.insert i (max (ends.getD i v.position) v.position) else ends) ∅

def isViable (v : Visit) (t : Transition) : Except Fault Bool := do
  match t.kind with
  | .terminal =>
    let matched := (x.chart.types[v.position]?).any t.tokens.contains
    return matched && x.ties.useful.contains ⟨t.target, v.origin, v.position + 1⟩
  | .ruleCall =>
    match t.call? with
    | none => return false
    | some (callee, follow) =>
      let stop ← x.chart.index.stopOf callee
      return ((List.range x.chart.columns.size).drop v.position).any fun m =>
        x.ties.useful.contains ⟨follow, v.origin, m⟩ && x.ties.useful.contains ⟨stop, v.position, m⟩
  | .epsilon | .predicate => return x.ties.useful.contains ⟨t.target, v.origin, v.position⟩

/-- The numbers of the viable alternatives, counted from 1. -/
def viable (v : Visit) : Except Fault (List Nat) := do
  let flags ← (← x.network.outgoing v.state).mapM (x.isViable v)
  return (flags.mapIdx fun i ok => if ok then some (i + 1) else none).filterMap id

def decisionVisits : Except Fault (List DecisionVisit) := do
  let ends ← x.invocationEnds
  let found ← x.visits.mapM fun v => do
    match x.tables.decisionAt[v.state]? with
    | none => return none
    | some d => return some ⟨v, d, ← x.viable v, ends.getD ⟨d.rule, v.origin⟩ x.chart.furthest⟩
  return found.filterMap id

def tokenAt (position : Nat) : String := (x.chart.types[position]?).getD endOfInput

/-- How many alternatives the token at a position leaves. -/
def candidates (sets : List LookaheadSet) (position : Nat) : Nat :=
  (sets.filter fun s => s.dynamic || s.contains (x.tokenAt position)).length

def look (sets : List LookaheadSet) (d : DecisionVisit) : Look :=
  if x.candidates sets d.visit.position ≤ 1 then ⟨d.decision.id, 1, false⟩
  else ⟨d.decision.id, max 1 (d.stop - d.visit.position), true⟩

/-- The lookahead of every decision met, as seen from the rule that the parse starts at. -/
def lookaheads (found : List DecisionVisit) : Except Fault (Std.HashMap Nat (List LookaheadSet)) := do
  if found.isEmpty then return ∅
  let start := (← x.tables.grammar.ruleAt x.chart.startRule).name
  let a ← Lookahead.ofGrammar x.tables.grammar [start] false
  found.foldlM (fun known d => do
    if known.contains d.decision.id then return known
    return known.insert d.decision.id (← a.lookaheads (← a.decision d.decision.id))) ∅

def addLook (s : DecisionStats) (l : Look) : DecisionStats where
  decision := s.decision
  invocations := s.invocations + 1
  totalLook := s.totalLook + l.distance
  maxLook := max s.maxLook l.distance
  fallbacks := s.fallbacks + if l.fallback then 1 else 0

/-- The looks of each decision added up. -/
def stats (looks : List Look) : List DecisionStats :=
  let ids := (OrderedSet.ofList (looks.map Look.decision)).toList.mergeSort
  ids.map fun (id : Nat) =>
    (looks.filter fun l => l.decision == id).foldl addLook { decision := (id : Int) }

/-- The span of a tie ends with the last token of the invocation, if that is not before its start. -/
def tie? (d : DecisionVisit) : Except Fault (Option Tie) := do
  if d.viable.length < 2 then return none
  let tied ← x.ties.tied d.visit d.viable
  let stop := max d.visit.position (min (d.stop - 1) (x.tokens.size - 1))
  return if tied.isEmpty then none else some ⟨d.decision, d.visit.position, stop, tied⟩

/-- Ties of one decision at one position are told as one. -/
def event (ties : List Tie) (id start : Nat) : Except Fault AmbiguityEvent := do
  let own := ties.filter fun t => t.decision.id == id && t.start == start
  let rule := ((own.head?).map fun t => t.decision.rule).getD 0
  let alternatives := (OrderedSet.ofList (own.flatMap Tie.alternatives)).toList.mergeSort
  return {
    decision := id
    ruleName := (← x.tables.grammar.ruleAt rule).name
    alternatives := alternatives.map Int.ofNat
    start := start
    stop := ((own.map Tie.stop).foldl max 0 : Nat)
    exact := x.chart.isAccepted }

def pairOrder (a b : Nat × Nat) : Bool := a.1 < b.1 || (a.1 == b.1 && a.2 ≤ b.2)

def events (ties : List Tie) : Except Fault (List AmbiguityEvent) :=
  let keys := (OrderedSet.ofList (ties.map fun t => (t.decision.id, t.start))).toList.mergeSort pairOrder
  keys.mapM fun k => x.event ties k.1 k.2

/-- The alternatives taken at the outermost decisions; a rule without such a decision has one. -/
def alternatives (rules : List Int) (found : List DecisionVisit) : List (Int × List Int) :=
  let outer := found.filter fun d => x.tables.outerDecision? d.decision.rule == some d.visit.state
  let ofRule (rule : Int) : List Int :=
    let taken := (outer.filter fun d => d.decision.rule == rule).flatMap DecisionVisit.viable
    ((OrderedSet.ofList taken).toList.mergeSort).map Int.ofNat
  let decided := (OrderedSet.ofList (outer.map fun d => d.decision.rule)).toList.filterMap fun r =>
    if (ofRule r).isEmpty then none else some (r, ofRule r)
  let plain := (rules.filter fun r => (x.tables.outerDecision? r).isNone).map fun r => (r, [1])
  (decided ++ plain).mergeSort fun a b => decide (a.1 ≤ b.1)

def noViable (t : Token) : String :=
  "no viable alternative at input " ++ Text.quoted t.text ++ s!" (line {t.line}, column {t.column})"

def execution : Except Fault Execution := do
  let rules ← x.rulesVisited
  let found ← x.decisionVisits
  let sets ← x.lookaheads found
  let ties := (← found.mapM x.tie?).filterMap id
  let looks := found.map fun d => x.look (sets.getD d.decision.id []) d
  let offending := x.tokens.tokenAt x.chart.furthest
  let accepted := x.chart.isAccepted
  return {
    outcome := if accepted then .succeeded
      else if 0 < x.chart.furthest then .failedRecoverable else .failedFatal
    tokenCount := x.tokens.size
    decisions := stats looks
    events := ← x.events ties
    visitedRules := rules
    visitedAlternatives := x.alternatives rules found
    errorMessage := if accepted then none else some (noViable offending)
    errorToken := if accepted then none else some offending.index }

end Traces

/-- Parses tokens from a rule on. -/
def ParseTables.parse (p : ParseTables) (rule : Int) (tokens : TokenStream) : Cancellable Execution := do
  let _ ← (p.grammar.ruleAt rule : Except Fault Rule)
  let chart ← (Chart.recognize p.index tokens.types rule).run
  let useful ← (chart.useful chart.seeds).run
  let ties ← Ties.ofChart chart useful
  let traces : Traces := ⟨p, tokens, ties, useful.toList.mergeSort Visit.precedes⟩
  (traces.execution : Except Fault Execution)

end RuleNetwork
