import RuleNetwork.Grammar.Basic
import RuleNetwork.Json.Value

/-!
What can be found wrong with a grammar. An error makes the grammar unusable, a warning does not.
-/

set_option autoImplicit false

namespace RuleNetwork

inductive Severity where
  | error
  | warning
  deriving DecidableEq, Repr, Inhabited

def Severity.name : Severity → String
  | .error => "error"
  | .warning => "warning"

/-- The two states that bound a rule. -/
inductive Bound where
  | start
  | stop
  deriving DecidableEq, Repr, Inhabited

namespace Bound

def name : Bound → String
  | .start => "start"
  | .stop => "stop"

def kind : Bound → StateKind
  | .start => .ruleStart
  | .stop => .ruleStop

def stateOf (r : Rule) : Bound → Int
  | .start => r.start
  | .stop => r.stop

end Bound

/-- `rule` is the name of the rule concerned, `state` the state. -/
inductive Finding where
  | duplicateRule (rule : String) (count : Nat)
  | misplacedRule (rule : String) (index : Int) (position : Nat)
  | missingBound (rule : String) (state : Int) (bound : Bound)
  | badBound (rule : String) (state : Int) (bound : Bound) (kind : StateKind) (owner : Int)
  | unknownEntry (rule : String)
  | misplacedState (id : Int) (state : Nat)
  | missingOwner (state owner : Int)
  | trivialDecision (rule : String) (state : Int) (alternatives : Nat)
  | missingTransition (rule : String) (state transition : Int)
  | missingTarget (rule : String) (state target : Int)
  | missingCallee (rule : String) (state : Int) (callee : Option Int)
  | badCallTarget (rule : String) (state : Int) (callee : String) (target start : Int)
  | missingFollow (rule : String) (state : Int) (callee : String)
  | emptyTerminal (rule : String) (state : Int)
  | unknownToken (rule : String) (state : Int) (token : String)
  | unreachableRule (rule : String)
  deriving DecidableEq, Repr

namespace Finding

def severity : Finding → Severity
  | .trivialDecision .. | .unreachableRule .. => .warning
  | _ => .error

def code : Finding → String
  | .duplicateRule .. => "duplicate_rule"
  | .misplacedRule .. => "bad_rule_index"
  | .missingBound .. | .missingTarget .. => "missing_state"
  | .badBound .. => "bad_rule_bounds"
  | .unknownEntry .. => "unknown_entry_rule"
  | .misplacedState .. => "bad_state_id"
  | .missingOwner .. | .missingCallee .. => "missing_rule"
  | .trivialDecision .. => "trivial_decision"
  | .missingTransition .. => "missing_transition"
  | .badCallTarget .. => "bad_call_target"
  | .missingFollow .. => "missing_follow"
  | .emptyTerminal .. => "empty_terminal"
  | .unknownToken .. => "unknown_token"
  | .unreachableRule .. => "unreachable_rule"

def ruleText : Option Int → String
  | some i => toString i
  | none => "None"

def message : Finding → String
  | .duplicateRule rule count => s!"Rule '{rule}' is declared {count} times"
  | .misplacedRule rule index position => s!"Rule '{rule}' has index {index}, expected {position}"
  | .missingBound rule state bound => s!"Rule '{rule}' {bound.name} state {state} does not exist"
  | .badBound rule state bound kind owner =>
    s!"Rule '{rule}' {bound.name} state {state} is a {kind.name} state of rule {owner}"
  | .unknownEntry rule => s!"Entry rule '{rule}' is not declared"
  | .misplacedState id state => s!"State at position {state} has id {id}"
  | .missingOwner state owner => s!"State {state} belongs to non-existent rule {owner}"
  | .trivialDecision _ state alternatives => s!"Decision state {state} has {alternatives} alternative(s)"
  | .missingTransition _ state transition =>
    s!"State {state} references non-existent transition {transition}"
  | .missingTarget _ state target =>
    s!"Transition from state {state} targets non-existent state {target}"
  | .missingCallee _ state callee =>
    s!"Rule call from state {state} names non-existent rule {ruleText callee}"
  | .badCallTarget _ state callee target start =>
    s!"Call to '{callee}' from state {state} targets state {target}, not the rule start {start}"
  | .missingFollow _ state callee => s!"Call to '{callee}' from state {state} has no valid return state"
  | .emptyTerminal _ state => s!"Terminal from state {state} matches no token"
  | .unknownToken rule _ token => s!"Token {token} used in rule '{rule}' is not in the vocabulary"
  | .unreachableRule rule => s!"Rule '{rule}' is not reachable from any entry rule"

/-- The integers of the grammar that the message spells out. Places in lists, which it may name beside
them, are not among them. -/
def numbers : Finding → List Int
  | .misplacedRule _ index _ => [index]
  | .misplacedState id _ => [id]
  | .missingBound _ state _ | .trivialDecision _ state _ | .missingFollow _ state _
  | .emptyTerminal _ state => [state]
  | .badBound _ state _ _ owner | .missingOwner state owner => [state, owner]
  | .missingTransition _ state transition => [state, transition]
  | .missingTarget _ state target => [state, target]
  | .missingCallee _ state callee => state :: callee.toList
  | .badCallTarget _ state _ target start => [state, target, start]
  | .duplicateRule .. | .unknownEntry _ | .unknownToken .. | .unreachableRule _ => []

def rule : Finding → Option String
  | .duplicateRule r _ | .misplacedRule r .. | .missingBound r .. | .badBound r .. | .unknownEntry r
  | .trivialDecision r .. | .missingTransition r .. | .missingTarget r .. | .missingCallee r ..
  | .badCallTarget r .. | .missingFollow r .. | .emptyTerminal r _ | .unknownToken r ..
  | .unreachableRule r => some r
  | .misplacedState .. | .missingOwner .. => none

def state : Finding → Option Int
  | .missingBound _ s _ | .badBound _ s .. | .missingOwner s _ | .trivialDecision _ s _
  | .missingTransition _ s _ | .missingTarget _ s _ | .missingCallee _ s _ | .badCallTarget _ s ..
  | .missingFollow _ s _ | .emptyTerminal _ s | .unknownToken _ s _ => some s
  | .misplacedState _ position => some position
  | .duplicateRule .. | .misplacedRule .. | .unknownEntry _ | .unreachableRule _ => none

def isFatal (f : Finding) : Bool := f.severity == .error

def entry (f : Finding) : ErrorEntry := ⟨.invalidGrammar, f.message, f.rule⟩

def fault (f : Finding) : Fault := .grammar (.finding f.message f.rule)

def toJson (f : Finding) : Json :=
  .obj [("severity", .str f.severity.name), ("code", .str f.code), ("message", .str f.message),
    ("rule", .ofOption .str f.rule), ("state", .ofOption .int f.state)]

end Finding

end RuleNetwork
