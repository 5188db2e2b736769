import RuleNetwork.Fault
import RuleNetwork.Sample.Seconds
import RuleNetwork.Settings.Value
import RuleNetwork.Text.Uppercase

/-!
Settings read from tables. A key that is absent has its default; one that is present has to hold a
value of its kind and range. The first misfit in the order of the keys is the one reported.
-/

set_option autoImplicit false

namespace RuleNetwork

inductive LogLevel where
  | debug
  | info
  | warning
  | error
  | critical
  deriving DecidableEq, Repr, Inhabited

namespace LogLevel

def name : LogLevel → String
  | .debug => "DEBUG"
  | .info => "INFO"
  | .warning => "WARNING"
  | .error => "ERROR"
  | .critical => "CRITICAL"

def all : List LogLevel := [.debug, .info, .warning, .error, .critical]

end LogLevel

structure Settings where
  entryRules : List String := []
  firstDecisionOnly : Bool := false
  verifyLeftmost : Bool := true
  sampleTimeout : Number.Binary64 := .ofDecimal false 5 0
  maxWorkers : Int := 4
  maxEntries : Int := 32
  level : LogLevel := .info
  deriving Repr

instance : Inhabited Settings := ⟨{}⟩

namespace Settings

inductive Kind where
  | bool
  | int
  | number
  | text
  | list
  deriving DecidableEq, Repr

def Kind.name : Kind → String
  | .bool => "bool"
  | .int => "int"
  | .number => "int or float"
  | .text => "str"
  | .list => "list"

inductive Misfit where
  | notTable (group : String)
  | wrongKind (group key : String) (kind : Kind) (given : String)
  | notRuleNames (given : String)
  | notPositive (given : String)
  | belowOne (group key given : String)
  | unknownLevel (given : String)
  /-- A whole number beyond the range of floats. -/
  | tooLarge
  /-- A value that does not fit and cannot be shown. -/
  | unshown (why : Unshown)
  deriving DecidableEq, Repr

def Misfit.message : Misfit → String
  | .notTable group => s!"{group}: expected a table"
  | .wrongKind group key kind given => s!"{group}.{key}: expected {kind.name}, got {given}"
  | .notRuleNames given => s!"analysis.entry_rules: expected a list of rule names, got {given}"
  | .notPositive given => s!"profiler.sample_timeout_seconds: must be positive, got {given}"
  | .belowOne group key given => s!"{group}.{key}: must be at least 1, got {given}"
  | .unknownLevel given =>
    let names := ", ".intercalate (LogLevel.all.map LogLevel.name)
    s!"logging.level: expected one of {names}, got {given}"
  | .tooLarge => "int too large to convert to float"
  | .unshown .tooLong => Fault.longNumber.message
  | .unshown .tooDeep => "maximum recursion depth exceeded while getting the repr of an object"

/-- A misfit that shows the value, if there is room for it. -/
def refusal (room : Nat) (v : Value) (misfit : String → Misfit) : Misfit :=
  match v.shown room with
  | .ok given => misfit given
  | .error why => .unshown why

abbrev Rows := List (String × Value)

def lookup (rows : Rows) (key : String) : Option Value :=
  (rows.reverse.find? fun e => e.1 == key).map Prod.snd

def group (rows : Rows) (name : String) : Except Misfit Rows :=
  match lookup rows name with
  | none => .ok []
  | some (.table inner) => .ok inner
  | some _ => .error (.notTable name)

/-- The value of a key, if it is there, as a reader of its kind takes it. -/
def read {α : Type} (room : Nat) (rows : Rows) (group key : String) (kind : Kind) (take : Value → Option α) :
    Except Misfit (Option α) :=
  match lookup rows key with
  | none => .ok none
  | some v =>
    match take v with
    | some a => .ok (some a)
    | none => .error (refusal room v (.wrongKind group key kind))

def bool? : Value → Option Bool
  | .bool b => some b
  | _ => none

def int? : Value → Option Int
  | .int i => some i
  | _ => none

def text? : Value → Option String
  | .text s => some s
  | _ => none

def list? : Value → Option (List Value)
  | .list l => some l
  | _ => none

def seconds? : Value → Option Seconds
  | .int i => some (.whole i)
  | .real x => some (.real x)
  | _ => none

def ofSeconds : Seconds → Value
  | .whole i => .int i
  | .real x => .real x

def realSeconds (s : Seconds) : Except Misfit Number.Binary64 :=
  match s.toReal? with
  | some x => .ok x
  | none => .error .tooLarge

def readEntryRules (room : Nat) (rows : Rows) : Except Misfit (List String) := do
  let items := (← read room rows "analysis" "entry_rules" .list list?).getD []
  match items.mapM text? with
  | some names => .ok names
  | none => .error (refusal room (.list items) .notRuleNames)

def readAtLeastOne (room : Nat) (rows : Rows) (group key : String) (absent : Int) :
    Except Misfit Int := do
  let n := (← read room rows group key .int int?).getD absent
  if n < 1 then .error (refusal room (.int n) (.belowOne group key)) else .ok n

def readTimeout (room : Nat) (rows : Rows) : Except Misfit Seconds := do
  let given ← read room rows "profiler" "sample_timeout_seconds" .number seconds?
  let s := given.getD (.real ({} : Settings).sampleTimeout)
  if s.nonpositive then .error (refusal room (ofSeconds s) .notPositive) else .ok s

/-- A level is named in letters of either case. -/
def readLevel (room : Nat) (rows : Rows) : Except Misfit LogLevel := do
  let given := Text.upper ((← read room rows "logging" "level" .text text?).getD LogLevel.info.name)
  match LogLevel.all.find? fun l => l.name == given with
  | some l => .ok l
  | none => .error (refusal room (.text given) .unknownLevel)

def ofRows (room : Nat) (rows : Rows) : Except Misfit Settings := do
  let analysis ← group rows "analysis"
  let profiler ← group rows "profiler"
  let cache ← group rows "cache"
  let logging ← group rows "logging"
  let entryRules ← readEntryRules room analysis
  let first ← read room analysis "analysis" "first_decision_only" .bool bool?
  let verify ← read room analysis "analysis" "verify_leftmost" .bool bool?
  let timeout ← readTimeout room profiler
  let maxWorkers ← readAtLeastOne room profiler "profiler" "max_workers" 4
  let sampleTimeout ← realSeconds timeout
  let maxEntries ← readAtLeastOne room cache "cache" "max_entries" 32
  let level ← readLevel room logging
  return ⟨entryRules, first.getD false, verify.getD true, sampleTimeout, maxWorkers, maxEntries, level⟩

end Settings

end RuleNetwork
