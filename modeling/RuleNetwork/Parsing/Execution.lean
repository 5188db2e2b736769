import RuleNetwork.Sample.Token

/-!
What one parse observed: how it ended, which decisions it met and how far they had to look, where
alternatives tied, and which rules and alternatives it went through.
-/

set_option autoImplicit false

namespace RuleNetwork

inductive ParseOutcome where
  | succeeded
  /-- Some of the input could be read. -/
  | failedRecoverable
  | failedFatal
  deriving DecidableEq, Repr, Inhabited

namespace ParseOutcome

def name : ParseOutcome → String
  | .succeeded => "succeeded"
  | .failedRecoverable => "failed_recoverable"
  | .failedFatal => "failed_fatal"

def all : List ParseOutcome := [.succeeded, .failedRecoverable, .failedFatal]

end ParseOutcome

structure DecisionStats where
  decision : Int
  invocations : Int := 0
  totalLook : Int := 0
  maxLook : Int := 0
  /-- How often one token did not single out an alternative. -/
  fallbacks : Int := 0
  deriving DecidableEq, Repr, Inhabited

/-- A tie between alternatives of a decision. It is exact if the whole input was accepted, and else
only suspected. -/
structure AmbiguityEvent where
  decision : Int
  ruleName : String := ""
  alternatives : List Int
  start : Int
  stop : Int
  exact : Bool := true
  deriving DecidableEq, Repr, Inhabited

structure Execution where
  outcome : ParseOutcome
  tokenCount : Int := 0
  decisions : List DecisionStats := []
  events : List AmbiguityEvent := []
  visitedRules : List Int := []
  visitedAlternatives : List (Int × List Int) := []
  errorMessage : Option String := none
  errorToken : Option Int := none
  deriving DecidableEq, Repr, Inhabited

end RuleNetwork
