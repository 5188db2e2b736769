import RuleNetwork.Grammar.Document
import RuleNetwork.Report
import RuleNetwork.RuleGraph.Build
import RuleNetwork.Validation.Finding

/-!
Checking a grammar. The rules are checked first, then the states in order, each with its transitions.
Only a grammar without errors is walked for rules that nothing reaches. What is found is put into words
at once, so an integer with too many digits to be written out keeps the check from coming to a result.

The report of a validation. It fails if there is an error among the findings, and names the errors
among its faults too.
-/

set_option autoImplicit false

namespace RuleNetwork

structure Validation where
  findings : List Finding := []
  size : NetworkSize := {}
  deriving Inhabited

namespace Validation

def fatal (v : Validation) : List Finding := v.findings.filter Finding.isFatal

def warnings (v : Validation) : List Finding := v.findings.filter fun f => !f.isFatal

end Validation

namespace Grammar

variable (g : Grammar)

/-- Names borne by several rules, each once. -/
def duplicateFindings : List Finding :=
  let names := g.ruleList.map Rule.name
  (OrderedSet.ofList names).toList.filterMap fun n =>
    if 1 < names.count n then some (.duplicateRule n (names.count n)) else none

def boundFinding? (r : Rule) (b : Bound) : Option Finding :=
  let id := b.stateOf r
  match Position.forward? g.network.states id with
  | none => some (.missingBound r.name id b)
  | some s =>
    if s.kind = b.kind ∧ s.rule = r.index then none else some (.badBound r.name id b s.kind s.rule)

def ruleFindings : List Finding :=
  (g.ruleList.mapIdx fun (position : Nat) (r : Rule) =>
    (if r.index = (position : Int) then [] else [.misplacedRule r.name r.index position]) ++
      [Bound.start, .stop].filterMap (g.boundFinding? r)).flatten

def entryFindings : List Finding :=
  (g.entryRules.filter fun n => !g.hasRule n).map .unknownEntry

/-- Whether a state of that number is there. -/
def hasState (id : Int) : Bool := (Position.forward? g.network.states id).isSome

def callFindings (s : State) (owner : Rule) (t : Transition) : List Finding :=
  match t.rule.bind (Position.forward? g.rules) with
  | none => [.missingCallee owner.name s.id t.rule]
  | some callee =>
    (if t.target = callee.start then []
      else [.badCallTarget owner.name s.id callee.name t.target callee.start]) ++
    (if t.follow.any g.hasState then [] else [.missingFollow owner.name s.id callee.name])

/-- The tokens that rules may name. -/
def vocabulary : List String := endOfInput :: g.tokens.map TokenType.name

def terminalFindings (s : State) (owner : Rule) (t : Transition) : List Finding :=
  (if t.tokens.isEmpty then [.emptyTerminal owner.name s.id] else []) ++
    (t.tokens.filter fun n => !g.vocabulary.contains n).map (.unknownToken owner.name s.id)

/-- The tokens of lexer rules are not checked: their patterns stand in for tokens. -/
def transitionFindings (s : State) (owner : Rule) (t : Transition) : List Finding :=
  if !g.hasState t.target then [.missingTarget owner.name s.id t.target]
  else
    match t.kind, owner.kind with
    | .ruleCall, _ => g.callFindings s owner t
    | .terminal, .parser => g.terminalFindings s owner t
    | _, _ => []

def ownedFindings (s : State) (owner : Rule) : List Finding :=
  (if s.kind = .decision ∧ s.transitions.length < 2 then
    [.trivialDecision owner.name s.id s.transitions.length] else []) ++
  s.transitions.flatMap fun i =>
    match Position.forward? g.network.transitions i with
    | none => [.missingTransition owner.name s.id i]
    | some t => g.transitionFindings s owner t

def stateFindings : List Finding :=
  (g.network.states.toList.mapIdx fun (position : Nat) (s : State) =>
    (if s.id = (position : Int) then [] else [.misplacedState s.id position]) ++
      match Position.forward? g.rules s.rule with
      | none => [.missingOwner s.id s.rule]
      | some owner => g.ownedFindings s owner).flatten

def structuralFindings : List Finding :=
  g.duplicateFindings ++ g.ruleFindings ++ g.entryFindings ++ g.stateFindings

/-- Whether an integer can be written out. A list that is held in memory has no place whose number is too
long for that. -/
def canWrite (i : Int) : Bool :=
  g.hasState i || (Position.forward? g.rules i).isSome || Number.isWritable i

def validation : Except Fault Validation := do
  let findings := g.structuralFindings
  if !findings.all fun f => f.numbers.all g.canWrite then throw .longNumber
  if findings.any Finding.isFatal then return { findings := findings }
  let graph ← g.ruleGraph []
  return ⟨findings ++ graph.unreachableRules.map .unreachableRule, g.network.size⟩

/-- Refuses a grammar for the first error found. -/
def ensureValid : Except Fault Unit := do
  if let some f := (← g.validation).fatal.head? then throw f.fault

end Grammar

def NetworkSize.toJson (s : NetworkSize) : Json :=
  .obj [("states", .ofNat s.states), ("transitions", .ofNat s.transitions),
    ("decisions", .ofNat s.decisions)]

/-- A validation together with what it is about. -/
structure GrammarCheck where
  grammarName : String := ""
  fingerprint : String := ""
  validation : Validation := {}
  deriving Inhabited

instance : Fields GrammarCheck where
  fields c :=
    [("grammar_name", .str c.grammarName), ("fingerprint", .str c.fingerprint),
      ("issues", .ofList Finding.toJson c.validation.findings), ("stats", c.validation.size.toJson)]

namespace Grammar

def check (codec : GrammarCodec) (g : Grammar) : Except Fault GrammarCheck := do
  return ⟨g.name, g.fingerprint codec, ← g.validation⟩

end Grammar

def GrammarCheck.report (c : GrammarCheck) : Report GrammarCheck :=
  ⟨c.validation.fatal.isEmpty, c.validation.fatal.map Finding.entry, c⟩

end RuleNetwork
