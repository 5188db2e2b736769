import RuleNetwork.CommandLine.Arguments
import RuleNetwork.CommandLine.Path
import RuleNetwork.Settings.File

/-!
What a command line asks for: a command with the grammar it is about, and the settings to use.
-/

set_option autoImplicit false

namespace RuleNetwork.CommandLine

inductive Command where
  | validate
  | callGraph (format : String)
  | leftRecursion
  | complexity (table : Bool)
  | firstFollow (rule : Option String)
  | decisions (rule : String)
  | ambiguity (startRule : String) (samples : List String) (samplesFile : Option Path)
      (timeout : Option Number.Binary64)
  deriving Repr

structure Request where
  /-- The settings file, if one is named. -/
  config : Option Path
  grammar : Path
  command : Command
  deriving Repr

namespace Request

def globalShape : Shape where
  options := [
    { name := "--config", letter := some 'c', value := some .path },
    { name := "--verbose" }]

/-- What each command takes after the path of the grammar, and how it is read. -/
def commands : List (String × Shape × (Arguments → Command)) := [
  ("validate", {}, fun _ => .validate),
  ("call-graph",
    { options := [{ name := "--format", letter := some 'f', value := some .text }] },
    fun a => .callGraph ((a.last? "--format").getD "json")),
  ("left-recursion", {}, fun _ => .leftRecursion),
  ("complexity", { options := [{ name := "--table" }] }, fun a => .complexity (a.has "--table")),
  ("first-follow",
    { options := [{ name := "--rule", letter := some 'r', value := some .text }] },
    fun a => .firstFollow (a.last? "--rule")),
  ("decisions", { positionals := [.text] }, fun a => .decisions ((a.rest[1]?).getD "")),
  ("ambiguity",
    { options := [
        { name := "--sample", letter := some 's', value := some .text },
        { name := "--samples-file", value := some .path },
        { name := "--timeout", value := some .real }]
      positionals := [.text] },
    fun a => .ambiguity ((a.rest[1]?).getD "") (a.all "--sample")
      ((a.last? "--samples-file").map Path.ofText) ((a.last? "--timeout").bind Number.Binary64.ofText?))]

def withGrammar (s : Shape) : Shape := { s with positionals := .path :: s.positionals }

def ofArguments (args : List String) : Except Stop Request := do
  let before ← globalShape.readBefore args
  let config := (before.last? "--config").map Path.ofText
  match before.rest with
  | [] => throw .usage
  | name :: rest =>
    match commands.find? fun c => c.1 == name with
    | none => throw .usage
    | some (_, shape, command) =>
      let a ← (withGrammar shape).read rest
      return ⟨config, Path.ofText ((a.rest[0]?).getD ""), command a⟩

def configPath (r : Request) : Path := r.config.getD (Path.ofText Settings.fileName)

/-- The files that the request may read. -/
def files (r : Request) : List Path :=
  match r.command with
  | .ambiguity _ _ (some samples) _ => [r.configPath, r.grammar, samples]
  | _ => [r.configPath, r.grammar]

end Request

end RuleNetwork.CommandLine
