import RuleNetwork.LeftRecursion.Analysis
import RuleNetwork.Report

/-!
The report on left recursion. It lists the parser rules that recurse directly or carry precedence
guards, and the cycles through several rules.
-/

set_option autoImplicit false

namespace RuleNetwork

structure LeftRecursiveRule where
  name : String
  isDirect : Bool
  isTransformed : Bool
  levels : List Nat
  alternatives : Int
  line : Option Int
  deriving DecidableEq, Repr

structure LeftRecursionReport where
  rules : List LeftRecursiveRule := []
  transformed : List String := []
  cycles : List (List String) := []
  total : Nat := 0
  verified : Bool := true
  notes : List String := []
  deriving Inhabited

namespace LeftRecursion

def unverifiedNote : String :=
  "Indirect left recursion was approximated from rule-graph cycles without verifying " ++
    "that each call is in leftmost position; some reported cycles may not be left-recursive."

variable (a : LeftRecursion)

def entry? (r : Rule) : Except Fault (Option LeftRecursiveRule) := do
  let direct ← a.isDirect r
  let transformed ← a.isTransformed r
  if !direct && !transformed then return none
  let levels ← if transformed then a.levels r else .ok []
  return some ⟨r.name, direct, transformed, levels, r.alternatives, r.line⟩

def report : Except Fault LeftRecursionReport := do
  let rules := (← a.grammar.parserRules.mapM a.entry?).filterMap id
  let cycles ← a.indirect
  return {
    rules := rules
    transformed := (rules.filter LeftRecursiveRule.isTransformed).map LeftRecursiveRule.name
    cycles := cycles
    total := a.grammar.parserRules.length
    verified := a.verified
    notes := if !a.verified && !cycles.isEmpty then [unverifiedNote] else [] }

end LeftRecursion

def Grammar.leftRecursion (g : Grammar) (verified : Bool) : Except Fault LeftRecursionReport := do
  (← LeftRecursion.ofGrammar g verified).report

open Json in
def LeftRecursiveRule.toJson (r : LeftRecursiveRule) : Json :=
  .obj [("rule_name", .str r.name), ("is_direct", .bool r.isDirect),
    ("is_transformed", .bool r.isTransformed), ("precedence_levels", ofList ofNat r.levels),
    ("alternatives", .int r.alternatives), ("line", ofOption .int r.line)]

open Json in
instance : Fields LeftRecursionReport where
  fields r :=
    [("left_recursive_rules", ofList LeftRecursiveRule.toJson r.rules),
      ("transformed_rules", ofStrings r.transformed),
      ("indirect_cycles", ofList (fun c =>
        .obj [("rules", ofStrings c), ("leftmost_verified", .bool r.verified)]) r.cycles),
      ("total_rules", ofNat r.total), ("left_recursive_count", ofNat r.rules.length),
      ("transformed_count", ofNat r.transformed.length), ("indirect_count", ofNat r.cycles.length),
      ("leftmost_verified", .bool r.verified), ("notes", ofStrings r.notes)]

end RuleNetwork
