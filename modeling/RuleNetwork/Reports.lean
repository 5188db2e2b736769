import RuleNetwork.Ambiguity.Survey
import RuleNetwork.Complexity
import RuleNetwork.DecisionGraph
import RuleNetwork.LeftRecursion.Report
import RuleNetwork.Lookahead.Report
import RuleNetwork.Settings.Basic
import RuleNetwork.Validation.Check

/-!
The reports that are asked for by name. Each takes a grammar or the fault that kept it from being
loaded, checks the grammar, and hands out a failed report for whatever goes wrong.
-/

set_option autoImplicit false

namespace RuleNetwork.Reports

abbrev Source := Except Fault Grammar

def valid (source : Source) : Except Fault Grammar := do
  let g ← source
  g.ensureValid
  return g

def validation (source : Source) : Report GrammarCheck :=
  match source.bind (Grammar.check .builtIn) with
  | .ok c => c.report
  | .error f => .ofResult (.error f)

def callGraph (source : Source) (s : Settings) : Report RuleGraph :=
  .ofResult (do (← valid source).ruleGraph s.entryRules)

def leftRecursion (source : Source) (s : Settings) : Report LeftRecursionReport :=
  .ofResult (do (← valid source).leftRecursion s.verifyLeftmost)

def complexity (source : Source) (s : Settings) : Report ComplexityReport :=
  .ofResult (do (← valid source).complexity s.entryRules)

/-- For one rule, or for every parser rule. -/
def lookahead (source : Source) (rule : Option String) (s : Settings) : Report LookaheadReport :=
  .ofResult (do (← valid source).lookahead rule s.entryRules s.firstDecisionOnly)

def decisions (source : Source) (rule : String) : Report RuleDecisions :=
  .ofResult (do (← valid source).ruleDecisions rule)

/-- What goes wrong with one sample does not make the report fail. -/
def ambiguity (source : Source) (startRule : String) (samples : List String) (s : Settings) :
    Report AmbiguityReport :=
  .ofResult do
    let g ← valid source
    g.survey .builtIn startRule samples (.real s.sampleTimeout)

end RuleNetwork.Reports
