import RuleNetwork.Parsing.Execution
import RuleNetwork.Report
import RuleNetwork.Container.OrderedMap

/-!
What a set of samples reveals about a grammar: the ambiguities they hit, how each decision fared, and
which rules and alternatives they exercised. An ambiguity is a tie between alternatives of a rule, told
with its place in a sample.
-/

set_option autoImplicit false

namespace RuleNetwork

structure Ambiguity where
  ruleName : String
  decision : Int
  alternatives : List Int
  sample : Nat
  /-- The tokens it spans. -/
  start : Int
  stop : Int
  line : Nat
  column : Nat
  /-- The text it spans, if there is any. -/
  input : Option String
  exact : Bool
  deriving DecidableEq, Repr

namespace Ambiguity

def listed (alternatives : List Int) : String := "[" ++ ", ".intercalate (alternatives.map toString) ++ "]"

def explain (ruleName : String) (alternatives : List Int) (input : Option String) (exact : Bool) : String :=
  if alternatives.isEmpty then s!"Ambiguity detected in rule {ruleName}"
  else
    s!"In rule '{ruleName}', alternatives {listed alternatives} are ambiguous" ++
      (match input.filter fun t => !t.isEmpty with
        | some t => " for input: \"" ++ t ++ "\""
        | none => "") ++
      if exact then "" else " (suspected: found on the viable prefix of a rejected sample)"

def advice : String :=
  "Consider:\n" ++
  "1. Reordering alternatives to resolve ambiguity\n" ++
  "2. Adding semantic predicates to disambiguate\n" ++
  "3. Using precedence for operator expressions\n" ++
  "4. Factoring common prefixes if possible"

/-- By rule name, decision, sample and first token. -/
def order : Ambiguity → Ambiguity → Ordering :=
  compareLex (compareOn ruleName) <| compareLex (compareOn decision) <|
    compareLex (compareOn sample) (compareOn start)

def precedes (a b : Ambiguity) : Bool := (order a b).isLE

open Json in
def toJson (a : Ambiguity) : Json :=
  .obj [("rule_name", .str a.ruleName), ("decision", .int a.decision),
    ("conflicting_alternatives", ofList .int a.alternatives), ("sample_index", ofNat a.sample),
    ("start_index", .int a.start), ("stop_index", .int a.stop), ("line", ofNat a.line),
    ("column", ofNat a.column), ("input_text", ofOption .str a.input), ("is_full_context", .bool a.exact),
    ("explanation", .str (explain a.ruleName a.alternatives a.input a.exact)),
    ("suggested_fix", .str advice)]

end Ambiguity

/-- The statistics of one decision, summed over samples. -/
structure DecisionProfile where
  decision : Int
  ruleName : String
  invocations : Int := 0
  totalLook : Int := 0
  maxLook : Int := 0
  fallbacks : Int := 0
  ambiguities : Nat := 0
  deriving DecidableEq, Repr

namespace DecisionProfile

def add (p : DecisionProfile) (s : DecisionStats) : DecisionProfile :=
  { p with
    invocations := p.invocations + s.invocations
    totalLook := p.totalLook + s.totalLook
    maxLook := max p.maxLook s.maxLook
    fallbacks := p.fallbacks + s.fallbacks }

def order : DecisionProfile → DecisionProfile → Ordering :=
  compareLex (compareOn ruleName) (compareOn decision)

def precedes (a b : DecisionProfile) : Bool := (order a b).isLE

open Json in
def toJson (p : DecisionProfile) : Json :=
  .obj [("decision", .int p.decision), ("rule_name", .str p.ruleName), ("invocations", .int p.invocations),
    ("sll_total_look", .int p.totalLook), ("sll_max_look", .int p.maxLook),
    ("ll_fallback", .int p.fallbacks), ("ambiguities", ofNat p.ambiguities)]

end DecisionProfile

structure Coverage where
  rules : List String := []
  alternatives : OrderedMap String (List Int) := ∅
  declared : Nat := 0

namespace Coverage

def ruleCount (c : Coverage) : Nat := c.rules.length

def alternativeCount (c : Coverage) : Nat := (c.alternatives.values.map List.length).foldr (· + ·) 0

/-- The part of the declared rules that was visited, to four places. -/
def ratio (c : Coverage) : Number.Binary64 :=
  if c.declared = 0 then .zero false
  else ((Number.Binary64.ofQuotient? c.ruleCount c.declared).getD (.zero false)).roundPlaces 4

open Json in
def toJson (c : Coverage) : Json :=
  .obj [("visited_rules", ofStrings c.rules),
    ("visited_alternatives", .obj (c.alternatives.entries.map fun (k, l) => (k, ofList .int l))),
    ("rules_declared", ofNat c.declared)]

end Coverage

/-- How one sample ended; without an outcome it was not parsed at all. -/
structure SampleResult where
  sample : Nat
  outcome : Option ParseOutcome := none
  tokenCount : Int := 0
  ambiguities : Nat := 0
  error : Option ErrorEntry := none
  deriving DecidableEq, Repr

namespace SampleResult

/-- Time is not measured here: where it is told, it is zero. -/
def toJson (timed : Bool) (r : SampleResult) : Json :=
  .obj ([("sample_index", .ofNat r.sample), ("outcome", .str ((r.outcome.map ParseOutcome.name).getD "error")),
    ("token_count", .int r.tokenCount), ("ambiguity_count", .ofNat r.ambiguities)] ++
    (if timed then [("parse_time_ms", .real (.zero false))] else []) ++
    [("error", .ofOption ErrorEntry.toJson r.error)])

end SampleResult

structure AmbiguityReport where
  startRule : String := ""
  ambiguities : List Ambiguity := []
  /-- The number of ambiguities of each rule, by name. -/
  perRule : List (String × Nat) := []
  total : Nat := 0
  parsed : Nat := 0
  failed : Nat := 0
  samples : List SampleResult := []
  profiles : List DecisionProfile := []
  coverage : Coverage := {}

instance : Inhabited AmbiguityReport := ⟨{}⟩

namespace AmbiguityReport

variable (r : AmbiguityReport)

def hasAmbiguityIn (rule : String) : Bool := r.ambiguities.any fun a => a.ruleName == rule

def wasVisited (rule : String) : Bool := r.coverage.rules.contains rule

open Json in
def fields (timed : Bool) : List (String × Json) :=
  [("start_rule", .str r.startRule), ("has_ambiguities", .bool !r.ambiguities.isEmpty),
    ("ambiguities", ofList Ambiguity.toJson r.ambiguities),
    ("ambiguities_per_rule", .obj (r.perRule.map fun (n, k) => (n, ofNat k))),
    ("total_samples", ofNat r.total), ("total_samples_parsed", ofNat r.parsed),
    ("samples_failed", ofNat r.failed), ("samples", ofList (SampleResult.toJson timed) r.samples),
    ("decision_profiles", ofList DecisionProfile.toJson r.profiles), ("coverage", r.coverage.toJson)] ++
  (if timed then [("total_parse_time_ms", .real (.zero false))] else [])

end AmbiguityReport

instance : Fields AmbiguityReport := ⟨fun r => r.fields true⟩

/-- The report without times, which is the same whenever it is made. -/
def Report.untimed (r : Report AmbiguityReport) : Json :=
  .obj (("success", .bool r.success) :: ("errors", .ofList ErrorEntry.toJson r.errors) :: r.content.fields false)

end RuleNetwork
