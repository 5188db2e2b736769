import RuleNetwork.CommandLine.Request
import RuleNetwork.CommandLine.Table
import RuleNetwork.Grammar.Cache
import RuleNetwork.Reports
import RuleNetwork.RuleGraph.Rendering

/-!
A request carried out, given what its files hold. The report goes to the output, and a report that failed
makes the command fail; what is wrong with the request itself is told as an error message.
-/

set_option autoImplicit false

namespace RuleNetwork.CommandLine

/-- What ends a command without a message of its own. -/
inductive Escape where
  | nulInPath
  | undecodable (refusal : Text.Utf8.Refusal)
  | settings (fault : Settings.FileFault)

def Escape.message : Escape → String
  | .nulInPath => Fault.nulInPath.message
  | .undecodable refusal => refusal.message
  | .settings fault => fault.message

structure Outcome where
  exitCode : Nat
  output : String := ""
  errors : String := ""
  escape : Option Escape := none

namespace Outcome

/-- What is written where no terminal listens. -/
def plain (text : String) : String := String.ofList (Text.withoutCommands text.toList) ++ "\n"

def printed (text : String) (success : Bool) : Outcome :=
  { exitCode := if success then 0 else 1, output := plain text }

def refused (message : String) : Outcome :=
  { exitCode := 1, errors := plain s!"Error: {message}" }

def escaped (e : Escape) : Outcome := { exitCode := 1, escape := some e }

/-- A command line that does not fit leaves no output. -/
def stopped : Stop → Outcome
  | .help => { exitCode := 0 }
  | .usage => { exitCode := 2 }
  | .nulInPath => escaped .nulInPath

def ofReport {α : Type} [Fields α] (r : Report α) : Outcome := printed r.toJson.indented r.success

end Outcome

/-- The width that tables and the lines below them are laid out for. -/
def terminalWidth : Nat := 120

/-- Files as a command finds them. -/
abbrev Reader := Path → Except ReadFault Text.Bytes

def formats : List String := ["json", "dot", "mermaid"]

def complexityTable (r : ComplexityReport) : Table where
  title := "Rule complexity"
  columns := [⟨"Rule", false⟩, ⟨"Type", false⟩, ⟨"Alts", true⟩, ⟨"Decisions", true⟩, ⟨"Depth", true⟩,
    ⟨"Fan in", true⟩, ⟨"Fan out", true⟩, ⟨"Recursive", false⟩, ⟨"Score", true⟩]
  rows := r.rules.entries.map fun (name, c) =>
    [name, c.kind.name, toString c.alternatives, toString c.decisions, toString c.depth, toString c.fanIn,
      toString c.fanOut, if c.recursive then "yes" else "", toString c.score]

def complexitySummary (r : ComplexityReport) : List String :=
  s!"{r.rules.values.length} rule(s), {r.decisions} decision point(s), max depth {r.deepest}" ::
    if r.mostComplex.isEmpty then [] else ["Most complex: " ++ ", ".intercalate r.mostComplex]

def complexityText (r : ComplexityReport) : String :=
  let below := (complexitySummary r).flatMap fun s =>
    (Table.textLines s).flatMap (Text.wrapLine terminalWidth true)
  let lines := (complexityTable r).lines terminalWidth ++ [] :: below
  String.ofList (lines.flatMap fun l => l ++ ['\n'])

/-- One sample for every line that is not blank. -/
def samplesOf (bytes : Text.Bytes) : Except Text.Utf8.Refusal (List String) := do
  let text ← Text.Utf8.decode bytes
  return ((Text.lines (Text.unifyNewlines text)).filter fun l => !Text.isBlankLine l).map String.ofList

namespace Request

/-- Settings that are no settings are told; a directory in their place, a number that is too large and a
value that is nested too deep are not. -/
def settings (r : Request) (room : Nat) (read : Reader) : Except Outcome Settings :=
  match Settings.ofFile room r.configPath.text (read r.configPath) with
  | .ok s => .ok s
  | .error f =>
    .error (match f with
      | .directory _ | .misfit .tooLarge | .misfit (.unshown .tooDeep) => .escaped (.settings f)
      | _ => .refused s!"invalid configuration: {f.message}")

def readSamples (path : Path) (read : Reader) : Except Outcome (List String) :=
  match read path with
  | .error f => .error (.refused s!"cannot read samples file {path.text}: {f.message path.text}")
  | .ok bytes => (samplesOf bytes).mapError fun e => .escaped (.undecodable e)

def checkFormat (format : String) : Except Outcome Unit :=
  if formats.contains format then .ok ()
  else
    let expected := ", ".intercalate formats
    .error (.refused s!"unknown format '{format}' (expected one of: {expected})")

def checkTimeout (timeout : Number.Binary64) : Except Outcome Unit :=
  if timeout.nonpositive then .error (.refused "--timeout must be positive") else .ok ()

/-- The outcome, or the one that ends the request early. -/
def answer (r : Request) (room : Nat) (read : Reader) : Except Outcome Outcome := do
  let source := Grammar.ofFile .builtIn r.grammar.text (read r.grammar)
  match r.command with
  | .validate =>
    let _ ← r.settings room read
    return .ofReport (Reports.validation source)
  | .callGraph format =>
    checkFormat format
    let report := Reports.callGraph source (← r.settings room read)
    if !report.success || format == "json" then return .ofReport report
    return .printed (if format == "dot" then report.content.toDot else report.content.toMermaid) true
  | .leftRecursion => return .ofReport (Reports.leftRecursion source (← r.settings room read))
  | .complexity table =>
    let report := Reports.complexity source (← r.settings room read)
    if table && report.success then return { exitCode := 0, output := complexityText report.content }
    return .ofReport report
  | .firstFollow rule => return .ofReport (Reports.lookahead source rule (← r.settings room read))
  | .decisions rule =>
    let _ ← r.settings room read
    return .ofReport (Reports.decisions source rule)
  | .ambiguity startRule samples samplesFile timeout =>
    let settings ← r.settings room read
    let filed ← match samplesFile with
      | some path => readSamples path read
      | none => pure []
    let settings ← match timeout with
      | some t => do
        checkTimeout t
        pure { settings with sampleTimeout := t }
      | none => pure settings
    return .ofReport (Reports.ambiguity source startRule (samples ++ filed) settings)

def run (r : Request) (room : Nat) (read : Reader) : Outcome :=
  match r.answer room read with
  | .ok o => o
  | .error o => o

end Request

/-- The grammar in a file of a folder. -/
def Folder.grammar (folder : Folder) (path : String) : Except Fault Grammar :=
  if path.toList.contains '\x00' then .error .nulInPath
  else Grammar.ofFile .builtIn (Path.ofText path).text (folder.read (Path.ofText path))

/-- The settings in a file of a folder. -/
def Folder.settings (folder : Folder) (room : Nat) (path : String) :
    Except Settings.FileFault Settings :=
  Settings.ofFile room (Path.ofText path).text (folder.read (Path.ofText path))

/-- Carries out a command line in a folder, with room for so many levels of a value that is shown. -/
def runIn (folder : Folder) (room : Nat) (args : List String) : Outcome :=
  match Request.ofArguments args with
  | .ok r => r.run room folder.read
  | .error s => .stopped s

end RuleNetwork.CommandLine
