import RuleNetwork.CommandLine.Run

/-!
The program: reads the files that a request may need, carries it out and writes what it says.
-/

set_option autoImplicit false

namespace RuleNetwork.CommandLine

def readFault : IO.Error → ReadFault
  | .inappropriateType _ code _ => if code == 21 then .directory else .notDirectory
  | _ => .missing

def readPath (p : Path) : IO (Path × Except ReadFault Text.Bytes) := do
  try
    let bytes ← IO.FS.readBinFile p.text
    return (p, .ok bytes.toList)
  catch e => return (p, .error (readFault e))

def tellOutcome (o : Outcome) : IO UInt32 := do
  IO.print o.output
  IO.eprint o.errors
  if let some e := o.escape then IO.eprintln e.message
  return o.exitCode.toUInt32

/-- The levels of a value that a message has room for: of a thousand calls within each other, some stand
above it. -/
def shownLevels : Nat := 950

end RuleNetwork.CommandLine

open RuleNetwork.CommandLine in
def main (args : List String) : IO UInt32 := do
  match Request.ofArguments args with
  | .error s => tellOutcome (.stopped s)
  | .ok r =>
    let held ← r.files.mapM readPath
    tellOutcome (r.run shownLevels fun p =>
      ((held.find? fun f => f.1 == p).map Prod.snd).getD (.error .missing))
