import RuleNetwork.Ambiguity.Report
import RuleNetwork.Grammar.Walk
import RuleNetwork.Parsing.Engine
import RuleNetwork.Sample.Seconds

/-!
Samples surveyed together. Each counts in the order of its number, whichever came to an end first.

One sample put through an engine. What goes wrong with a sample is told of that sample alone, unless it
lies in the grammar itself.
-/

set_option autoImplicit false

namespace RuleNetwork

/-- A sample's tokens and what its parse observed. -/
structure ParsedSample where
  tokens : TokenStream
  execution : Execution

/-- What an engine makes of a sample. -/
inductive Attempt where
  | ended (result : Except Fault ParsedSample)
  /-- The parse does not end in time. -/
  | stalled

/-- What came of the sample with a number. -/
structure SampleRun where
  index : Nat
  result : Except ErrorEntry ParsedSample

/-- Runs by their numbers. -/
def SampleRun.ordered (runs : List SampleRun) : List SampleRun :=
  runs.mergeSort fun x y => decide (x.index ≤ y.index)

namespace Attempt

/-- An attempt cut short after a budget. -/
def within (a : Attempt) (index : Nat) (budget : Seconds) : Except Fault ParsedSample := do
  let b ← budget.budget
  match a with
  | .ended result => result
  | .stalled => throw (.outOfTime b { sample := some (index : Int) })

def run (a : Attempt) (index : Nat) (budget : Seconds) : Except Fault SampleRun :=
  match a.within index budget with
  | .ok p => .ok ⟨index, .ok p⟩
  | .error f => if f.isFatal then .error f else .ok ⟨index, .error f.entry⟩

end Attempt

/-- Tokenizes and parses a sample from a rule on. The grammar may have failed to be prepared. -/
def Attempt.ofPrepared (prepared : Except Fault Prepared) (rule : Int) (index : Nat) (text : String) :
    Attempt :=
  .ended do
    let p ← prepared
    let tokens ← p.lexer.tokenize text (some (index : Int))
    let (execution, _) ← (p.tables.parse rule tokens).run none
    return ⟨tokens, execution⟩

/-- A tie that the parse of a sample told of. -/
def Ambiguity.ofEvent (ruleName : String) (sample : Nat) (tokens : TokenStream) (e : AmbiguityEvent) :
    Ambiguity :=
  let first := tokens.tokenAt e.start
  let text := tokens.textBetween e.start e.stop
  { ruleName := ruleName
    decision := e.decision
    alternatives := e.alternatives
    sample := sample
    start := e.start
    stop := e.stop
    line := first.line
    column := first.column
    input := if text.isEmpty then none else some text
    exact := e.exact }

/-- By whose states decisions are told to be of a rule. -/
structure Attribution where
  grammar : Grammar
  reachable : OrderedMap Int (List Int)

namespace Attribution

def ofGrammar (g : Grammar) : Except Fault Attribution := do
  return ⟨g, ← g.reachable (g.ruleList.map Rule.index)⟩

def unknown : String := "unknown"

variable (a : Attribution)

def owner? (decision : Int) : Option Int :=
  match a.grammar.decisions.find? fun d => (d.id : Int) == decision with
  | some d => a.grammar.owner? a.reachable d.state
  | none => none

/-- The rule that a decision belongs to, or else what the parse called it. -/
def ruleName (decision : Int) (told : String) : Except Fault String :=
  match a.owner? decision with
  | some i =>
    match Position.get? a.grammar.ruleNames i with
    | some n => .ok n
    | none => .error .listPosition
  | none => .ok (if told.isEmpty then unknown else told)

def ambiguity (sample : Nat) (tokens : TokenStream) (e : AmbiguityEvent) : Except Fault Ambiguity := do
  return .ofEvent (← a.ruleName e.decision e.ruleName) sample tokens e

/-- Adds what one parse observed at a decision. -/
def addStats (m : OrderedMap Int DecisionProfile) (s : DecisionStats) :
    Except Fault (OrderedMap Int DecisionProfile) := do
  let p ← match m.get? s.decision with
    | some p => pure p
    | none => pure { decision := s.decision, ruleName := ← a.ruleName s.decision "" }
  return m.put s.decision (p.add s)

end Attribution

/-- What has been gathered from the samples so far. -/
structure Tally where
  ambiguities : List Ambiguity := []
  samples : List SampleResult := []
  profiles : OrderedMap Int DecisionProfile := ∅
  rules : OrderedSet Int := ∅
  alternatives : OrderedMap Int (List Int) := ∅
  parsed : Nat := 0
  failed : Nat := 0

namespace Tally

/-- Counts an ambiguity for its decision, if that has been met. -/
def count (m : OrderedMap Int DecisionProfile) (b : Ambiguity) : OrderedMap Int DecisionProfile :=
  match m.get? b.decision with
  | some p => m.put b.decision { p with ambiguities := p.ambiguities + 1 }
  | none => m

def addAlternatives (m : OrderedMap Int (List Int)) (taken : Int × List Int) :
    OrderedMap Int (List Int) :=
  m.put taken.1 ((m.get? taken.1).getD [] ++ taken.2)

/-- Adds a sample that failed. Nothing but its result is told of it. -/
def addFailed (t : Tally) (r : SampleResult) : Tally :=
  { t with failed := t.failed + 1, samples := t.samples ++ [r] }

/-- Adds a sample that was parsed at least in part. -/
def addParsed (a : Attribution) (t : Tally) (s : ParsedSample) (r : SampleResult) :
    Except Fault Tally := do
  let found ← s.execution.events.mapM (a.ambiguity r.sample s.tokens)
  return {
    ambiguities := t.ambiguities ++ found
    samples := t.samples ++ [{ r with ambiguities := found.length }]
    profiles := found.foldl count (← s.execution.decisions.foldlM a.addStats t.profiles)
    rules := t.rules.insertAll s.execution.visitedRules
    alternatives := s.execution.visitedAlternatives.foldl addAlternatives t.alternatives
    parsed := t.parsed + 1
    failed := t.failed }

def addRun (a : Attribution) (t : Tally) (run : SampleRun) : Except Fault Tally :=
  match run.result with
  | .error e => .ok (t.addFailed { sample := run.index, error := some e })
  | .ok s =>
    let r : SampleResult := {
      sample := run.index
      outcome := some s.execution.outcome
      tokenCount := s.execution.tokenCount
      error := s.execution.errorMessage.map fun m => { kind := .parse, message := m } }
    if s.execution.outcome = .failedFatal then .ok (t.addFailed r) else t.addParsed a s r

def countRule (m : OrderedMap String Nat) (b : Ambiguity) : OrderedMap String Nat :=
  m.put b.ruleName ((m.get? b.ruleName).getD 0 + 1)

/-- How many ambiguities each rule has, by name. -/
def countPerRule (l : List Ambiguity) : List (String × Nat) :=
  (l.foldl countRule ∅).entries.mergeSort fun a b => (compare a.1 b.1).isLE

/-- Rules are told by name, where they have one. -/
def named {α : Type} (names : Array String) (l : List (Int × α)) : List (String × α) :=
  (l.mergeSort fun a b => decide (a.1 ≤ b.1)).filterMap fun (i, x) =>
    (Position.forward? names i).map fun n => (n, x)

/-- Numbers in order, each once. -/
def distinct (l : List Int) : List Int := l.eraseDups.mergeSort fun a b => decide (a ≤ b)

def coverage (g : Grammar) (t : Tally) : Coverage where
  rules := (named g.ruleNames (t.rules.toList.map fun i => (i, ()))).map Prod.fst
  alternatives := .ofList (named g.ruleNames (t.alternatives.entries.map fun e => (e.1, distinct e.2)))
  declared := g.rules.size

/-- The report on what has been gathered from a number of runs. -/
def report (g : Grammar) (startRule : String) (total : Nat) (t : Tally) : AmbiguityReport :=
  let ambiguities := t.ambiguities.mergeSort Ambiguity.precedes
  { startRule := startRule
    ambiguities := ambiguities
    perRule := countPerRule ambiguities
    total := total
    parsed := t.parsed
    failed := t.failed
    samples := t.samples
    profiles := t.profiles.values.mergeSort DecisionProfile.precedes
    coverage := t.coverage g }

end Tally

namespace Grammar

/-- The report on some runs, in whatever order they came to an end. -/
def ambiguityReport (g : Grammar) (startRule : String) (runs : List SampleRun) :
    Except Fault AmbiguityReport := do
  let a ← Attribution.ofGrammar g
  return (← (SampleRun.ordered runs).foldlM (Tally.addRun a) {}).report g startRule runs.length

/-- Puts samples through an engine, each within a budget. Without samples nothing is asked of it. -/
def surveyWith (g : Grammar) (startRule : String) (samples : List String) (budget : Seconds)
    (attempt : Int → Nat → String → Attempt) : Except Fault AmbiguityReport := do
  let rule ← g.ruleIndex startRule
  if samples.isEmpty then
    return { startRule := startRule, coverage := { declared := g.rules.size } }
  let runs ← (samples.mapIdx fun i text => (i, text)).mapM fun (i, text) => (attempt rule i text).run i budget
  g.ambiguityReport startRule runs

def survey (g : Grammar) (patterns : PatternEngine) (startRule : String) (samples : List String)
    (budget : Seconds) : Except Fault AmbiguityReport :=
  let prepared := Prepared.ofGrammar patterns g
  g.surveyWith startRule samples budget (Attempt.ofPrepared prepared)

end Grammar

end RuleNetwork
