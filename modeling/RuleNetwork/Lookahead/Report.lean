import RuleNetwork.Lookahead.Analysis
import RuleNetwork.Report

/-!
The report on FIRST and FOLLOW sets and on the lookahead of every decision.
-/

set_option autoImplicit false

namespace RuleNetwork

structure DecisionLookahead where
  decision : Decision
  ruleName : String
  alternatives : List LookaheadSet
  conflicting : LookaheadSet
  deriving Repr

structure RuleLookahead where
  name : String
  first : LookaheadSet
  follow : LookaheadSet
  nullable : Bool
  conflicts : List Nat
  alternatives : Int
  deriving Repr

structure LookaheadReport where
  rules : List RuleLookahead := []
  decisions : List DecisionLookahead := []
  firstOnly : Bool := false
  deriving Inhabited

namespace DecisionLookahead

def isAmbiguous (d : DecisionLookahead) : Bool := 0 < d.conflicting.size

end DecisionLookahead

namespace Lookahead

variable (a : Lookahead)

def decisionEntry (d : Decision) : Except Fault DecisionLookahead := do
  let sets ← a.lookaheads d
  return ⟨d, (← a.grammar.ruleAt d.rule).name, sets, .shared sets {}⟩

def ruleEntry (r : Rule) : Except Fault RuleLookahead := do
  let conflicts ← a.ruleConflicts r.name
  let first ← a.firstOf r.name
  let follow ← a.followOf r.name
  return ⟨r.name, first, follow, a.nullable.contains r.index, conflicts, r.alternatives⟩

/-- Whether a decision belongs to the rules asked for. -/
def isSelected (rule : Option String) (rules : List Rule) (d : Decision) : Except Fault Bool := do
  if !(rules.map Rule.index).contains d.rule then return false
  if rule.isSome then return true
  return (← a.grammar.ruleAt d.rule).kind == .parser

/-- For one rule, or for every parser rule. -/
def report (rule : Option String) : Except Fault LookaheadReport := do
  let rules ← match rule with
    | some name => do pure [← a.grammar.rule name]
    | none => pure a.grammar.parserRules
  let entries ← rules.mapM a.ruleEntry
  let decisions ← a.grammar.decisions.mapM fun d => do
    if ← a.isSelected rule rules d then return some (← a.decisionEntry d)
    return none
  return ⟨entries, decisions.filterMap id, a.firstOnly⟩

end Lookahead

def Grammar.lookahead (g : Grammar) (rule : Option String) (asked : List String) (firstOnly : Bool) :
    Except Fault LookaheadReport := do
  (← Lookahead.ofGrammar g asked firstOnly).report rule

open Json in
def LookaheadSet.toJson (s : LookaheadSet) : Json :=
  .obj [("tokens", ofStrings s.tokens), ("epsilon", .bool s.epsilon), ("eof", .bool s.eof),
    ("dynamic", .bool s.dynamic)]

open Json in
def RuleLookahead.toJson (r : RuleLookahead) : Json :=
  .obj [("rule_name", .str r.name), ("first_set", ofStrings r.first.display),
    ("follow_set", ofStrings r.follow.display), ("nullable", .bool r.nullable),
    ("has_ll1_conflict", .bool !r.conflicts.isEmpty),
    ("conflicting_decisions", ofList ofNat r.conflicts), ("alternative_count", .int r.alternatives)]

open Json in
def DecisionLookahead.toJson (d : DecisionLookahead) : Json :=
  .obj [("decision_number", ofNat d.decision.id), ("rule_name", .str d.ruleName),
    ("state_number", .int d.decision.state), ("alternative_count", ofNat d.alternatives.length),
    ("alternatives", .arr (d.alternatives.mapIdx fun i s =>
      .obj [("alternative", ofNat (i + 1)), ("lookahead_tokens", ofStrings s.display),
        ("has_predicate", .bool s.dynamic)])),
    ("has_ambiguous_lookahead", .bool d.isAmbiguous),
    ("conflicting_tokens", ofStrings d.conflicting.display)]

open Json in
instance : Fields LookaheadReport where
  fields r :=
    [("rules", ofList RuleLookahead.toJson r.rules),
      ("decisions", ofList DecisionLookahead.toJson r.decisions),
      ("total_parser_rules", ofNat r.rules.length),
      ("nullable_rule_count", ofNat (r.rules.filter RuleLookahead.nullable).length),
      ("rules_with_conflicts", ofNat (r.rules.filter fun x => !x.conflicts.isEmpty).length),
      ("total_decisions", ofNat r.decisions.length),
      ("ambiguous_decisions", ofNat (r.decisions.filter DecisionLookahead.isAmbiguous).length),
      ("first_decision_only", .bool r.firstOnly)]

end RuleNetwork
