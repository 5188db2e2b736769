import RuleNetwork.Settings.Basic
import RuleNetwork.Settings.Toml
import RuleNetwork.Text.Utf8

/-!
Settings read from a file. A file that is not there leaves all defaults in place.
-/

set_option autoImplicit false

namespace RuleNetwork.Settings

/-- The name of the settings file that is read unless another one is named. -/
def fileName : String := "grammarlens.toml"

inductive FileFault where
  | undecodable (refusal : Text.Utf8.Refusal)
  | malformed (path place : String)
  | misfit (misfit : Misfit)
  | directory (path : String)

def FileFault.message : FileFault → String
  | .undecodable refusal => refusal.message
  | .malformed path place => s!"{path}: {place}"
  | .misfit m => m.message
  | .directory path => ReadFault.directory.message path

def ofText (room : Nat) (path : String) (text : List Char) : Except FileFault Settings := do
  let source := Text.unifyNewlines text
  match Toml.parse source with
  | .error f => .error (.malformed path (f.message source))
  | .ok rows => (ofRows room rows).mapError .misfit

/-- A directory in the place of a file is not passed over. -/
def ofFile (room : Nat) (path : String) : Except ReadFault Text.Bytes → Except FileFault Settings
  | .ok bytes => do ofText room path (← (Text.Utf8.decode bytes).mapError .undecodable)
  | .error .directory => .error (.directory path)
  | .error .missing | .error .notDirectory => .ok {}

end RuleNetwork.Settings
