import RuleNetwork.Number.Decimal
import RuleNetwork.Text.Quoted

/-!
Everything that can go wrong, as causes. A cause has a kind, a message, and where it applies a place:
the rule, the state or the spot in a sample that it concerns.

Work that can be told to stop. A stage of a parse looks for the signal a number of times before its
result stands. Granted so many looks, a parse runs to its end or stops in the stage in which the
first look too many falls.
-/

set_option autoImplicit false

namespace RuleNetwork

/-- The stable codes by which reports name what went wrong. -/
inductive FaultKind where
  | invalidGrammar
  | ruleNotFound
  | timeout
  | tokenize
  | parse
  | input
  | internal
  deriving DecidableEq, Repr

namespace FaultKind

def code : FaultKind → String
  | .invalidGrammar => "invalid_grammar"
  | .ruleNotFound => "rule_not_found"
  | .timeout => "parse_timeout"
  | .tokenize => "tokenize_error"
  | .parse => "parse_error"
  | .input => "invalid_input"
  | .internal => "internal_error"

def description : FaultKind → String
  | .invalidGrammar => "Grammar declaration is malformed or has unresolved references"
  | .ruleNotFound => "Rule not defined"
  | .timeout => "Parsing timeout exceeded"
  | .tokenize => "Sample input could not be tokenized"
  | .parse => "Sample input parsing failed"
  | .input => "Invalid input provided"
  | .internal => "Internal processing error"

end FaultKind

structure Place where
  rule : Option String := none
  state : Option Int := none
  sample : Option Int := none
  line : Option Int := none
  column : Option Int := none
  deriving DecidableEq, Repr, Inhabited

namespace Place

/-- A line and column are told only of a sample. -/
def sampleText (p : Place) : Option String :=
  p.sample.map fun n =>
    match p.line, p.column with
    | some l, some c => s!"sample {n} at {l}:{c}"
    | _, _ => s!"sample {n}"

def text (p : Place) : String :=
  ", ".intercalate
    ([p.rule.map fun r => s!"rule {r}", p.state.map fun n => s!"state {n}", p.sampleText].filterMap id)

end Place

/-- Why a file cannot be read. -/
inductive ReadFault where
  | missing
  | directory
  /-- A part of the path that is a file and not a directory. -/
  | notDirectory
  deriving DecidableEq, Repr

/-- How the system words it. -/
def ReadFault.message (path : String) : ReadFault → String
  | .missing => s!"[Errno 2] No such file or directory: {Text.quoted path}"
  | .directory => s!"[Errno 21] Is a directory: {Text.quoted path}"
  | .notDirectory => s!"[Errno 20] Not a directory: {Text.quoted path}"

/-- Why a grammar is no grammar. -/
inductive GrammarFlaw where
  | emptySymbol
  | duplicateToken (name : String)
  | duplicateRule (name : String)
  | undefinedRule (rule callee : String)
  | undefinedToken (rule token : String)
  | undeclaredEntry (name : String)
  | unknownElement (rule : String)
  | malformed (path detail : String)
  | misplacedRule (name : String) (index : Int) (position : Nat)
  | misplacedState (id : Int) (position : Nat)
  | unreadable (path : String) (fault : ReadFault)
  | badPattern (token pattern reason : String)
  | finding (message : String) (rule : Option String)
  deriving DecidableEq, Repr

namespace GrammarFlaw

def message : GrammarFlaw → String
  | .emptySymbol => "Empty symbol name in rule body"
  | .duplicateToken name => s!"Duplicate token '{name}'"
  | .duplicateRule name => s!"Duplicate rule '{name}'"
  | .undefinedRule rule callee => s!"Rule '{rule}' references undefined rule '{callee}'"
  | .undefinedToken rule token => s!"Rule '{rule}' references undefined token '{token}'"
  | .undeclaredEntry name => s!"Entry rule '{name}' is not declared"
  | .unknownElement _ => "Unsupported element Element"
  | .malformed path detail =>
    if path.isEmpty then s!"Malformed grammar: {detail}" else s!"Malformed grammar at {path}: {detail}"
  | .misplacedRule name index position => s!"Rule '{name}' has index {index}, expected {position}"
  | .misplacedState id position => s!"State at position {position} has id {id}"
  | .unreadable path fault => s!"Cannot read grammar file {path}: {fault.message path}"
  | .badPattern token pattern reason =>
    s!"Token {token} has an invalid pattern {Text.quoted pattern}: {reason}"
  | .finding message _ => message

def rule : GrammarFlaw → Option String
  | .duplicateRule name | .undeclaredEntry name | .unknownElement name => some name
  | .undefinedRule rule _ | .undefinedToken rule _ | .misplacedRule rule _ _ => some rule
  | .finding _ rule => rule
  | _ => none

end GrammarFlaw

/-- A reference that leads nowhere. -/
inductive Dangling where
  | state (id : Int)
  | transition (id : Int)
  | rule (index : Int)
  | decision (id : Int)
  deriving DecidableEq, Repr

def Dangling.message : Dangling → String
  | .state id => s!"Reference to non-existent state {id}"
  | .transition id => s!"Reference to non-existent transition {id}"
  | .rule index => s!"Reference to non-existent rule {index}"
  | .decision id => s!"Unknown decision {id}"

/-- Where a parse was when it was told to stop. -/
inductive ParsePhase where
  | reading (position : Nat)
  | analysis
  | counting
  deriving DecidableEq, Repr

def ParsePhase.message : ParsePhase → String
  | .reading k => s!"cancelled at token {k}"
  | .analysis => "cancelled during chart analysis"
  | .counting => "cancelled while counting derivations"

/-- A kind of fault that is stated by its message alone. -/
inductive StatedKind where
  | general
  | invalidGrammar
  | sample
  | timeout
  | tokenize
  | internal
  deriving DecidableEq, Repr

inductive Fault where
  | grammar (flaw : GrammarFlaw)
  | ruleNotFound (name : String)
  | dangling (reference : Dangling)
  | noToken (rest : String) (place : Place)
  | outOfTime (budget : Number.Binary64) (place : Place)
  | stated (kind : StatedKind) (message : String) (place : Option Place)
  | cancelled (phase : ParsePhase)
  /-- A look-up by a key that is not there. -/
  | missingKey (key : Int)
  | listPosition
  | tuplePosition
  | tooSmall (what : String) (given : Int)
  | badTimeout (given : String)
  | quotientTooLarge
  | notANumberOfSeconds
  /-- A wait that is too long to be counted; a whole number is counted apart. -/
  | tooManySeconds (whole : Bool)
  | nulInPath
  /-- A pattern that asks for more rounds than can be counted. -/
  | hugeCount
  /-- A whole number with too many digits to be written out. -/
  | longNumber
  /-- A numeral with too many digits to be read. -/
  | longNumeral (digits : Nat)
  /-- A fault of an engine that the library knows nothing about. -/
  | foreign (message : String)
  deriving DecidableEq, Repr

namespace Fault

def digitsExceeded : String :=
  s!"Exceeds the limit ({Number.digitLimit} digits) for integer string conversion"

def digitsHint : String := "use sys.set_int_max_str_digits() to increase the limit"

def message : Fault → String
  | .grammar flaw => flaw.message
  | .ruleNotFound name => s!"Rule not found: {name}"
  | .dangling reference => reference.message
  | .noToken rest place =>
    s!"No token matches input at {place.line.getD 0}:{place.column.getD 0}: {Text.quoted rest}"
  | .outOfTime budget _ =>
    s!"Parsing exceeded timeout of {budget.toBudget} seconds. " ++
      "This may indicate a pathological grammar or very large input."
  | .stated _ message _ => message
  | .cancelled phase => phase.message
  | .missingKey key => toString key
  | .listPosition => "list index out of range"
  | .tuplePosition => "tuple index out of range"
  | .tooSmall what given => s!"{what} must be at least 1, got {given}"
  | .badTimeout given => s!"default_timeout must be positive, got {given}"
  | .quotientTooLarge => "integer division result too large for a float"
  | .notANumberOfSeconds => "Invalid value NaN (not a number)"
  | .tooManySeconds true => "timestamp too large to convert to C _PyTime_t"
  | .tooManySeconds false => "timestamp out of range for platform time_t"
  | .nulInPath => "embedded null byte"
  | .hugeCount => "the repetition number is too large"
  | .longNumber => s!"{digitsExceeded}; {digitsHint}"
  | .longNumeral digits => s!"{digitsExceeded}: value has {digits} digits; {digitsHint}"
  | .foreign message => message

def place : Fault → Option Place
  | .grammar flaw => flaw.rule.map fun r => { rule := some r }
  | .ruleNotFound name => some { rule := some name }
  | .dangling (.state id) => some { state := some id }
  | .noToken _ place | .outOfTime _ place => some place
  | .stated _ _ place => place
  | _ => none

/-- What reports call the fault. A fault outside the domain is an internal one. -/
def kind : Fault → FaultKind
  | .grammar _ | .stated .invalidGrammar _ _ => .invalidGrammar
  | .ruleNotFound _ => .ruleNotFound
  | .noToken .. | .stated .tokenize _ _ => .tokenize
  | .outOfTime .. | .stated .timeout _ _ => .timeout
  | .stated .sample _ _ => .parse
  | _ => .internal

/-- The message after its place, if the place says anything. -/
def located (f : Fault) : String :=
  match f.place with
  | none => f.message
  | some p => if p.text.isEmpty then f.message else s!"{p.text}: {f.message}"

/-- A fault of the grammar itself ends a whole analysis, not only the sample at hand. -/
def isFatal : Fault → Bool
  | .grammar _ | .stated .invalidGrammar _ _ => true
  | _ => false

end Fault

/-- A fault as reports list it. -/
structure ErrorEntry where
  kind : FaultKind
  message : String
  rule : Option String := none
  deriving DecidableEq, Repr

def Fault.entry (f : Fault) : ErrorEntry := ⟨f.kind, f.message, f.place.bind Place.rule⟩

structure Stage (α : Type) where
  /-- How often the stage looks for the signal. -/
  checks : Nat
  /-- What it is at when it looks for the signal after so many looks. -/
  phase : Nat → ParsePhase
  result : Except Fault α

/-- A parse under way, with the number of looks that still find no signal; none if there is never
one. -/
abbrev Cancellable := StateT (Option Nat) (Except Fault)

def Stage.run {α : Type} (s : Stage α) : Cancellable α := fun granted =>
  match granted with
  | none => do return (← s.result, none)
  | some n =>
    if n < s.checks then .error (.cancelled (s.phase n))
    else do return (← s.result, some (n - s.checks))

namespace Stage

variable {α : Type}

theorem run_none (s : Stage α) : s.run none = s.result.map fun a => (a, none) := by
  cases h : s.result <;> simp [Stage.run, h, Except.map, bind, Except.bind, pure, Except.pure]

end Stage

end RuleNetwork
