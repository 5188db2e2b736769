import RuleNetwork.Fault
import RuleNetwork.Text.Utf8

/-!
Paths as they are typed, without what says nothing, and the files of a working directory that is read
as a value.
-/

set_option autoImplicit false

namespace RuleNetwork.CommandLine

/-- A path starts with no slash, one, or two, which a system may tell apart. -/
structure Path where
  root : String
  parts : List String
  deriving DecidableEq, Repr, Inhabited

namespace Path

def split (s : List Char) : List String :=
  (s.splitOnP (· == '/')).map String.ofList

def rootOf (s : List Char) : String :=
  match (s.takeWhile (· == '/')).length with
  | 0 => ""
  | 2 => "//"
  | _ => "/"

/-- Empty parts and those that stay where they are say nothing. -/
def ofText (s : String) : Path where
  root := rootOf s.toList
  parts := (split s.toList).filter fun p => p != "" && p != "."

def text (p : Path) : String :=
  if p.root.isEmpty && p.parts.isEmpty then "." else p.root ++ "/".intercalate p.parts

end Path

/-- Files by their path from the working directory. -/
structure Folder where
  files : List (List String × Text.Bytes)

namespace Folder

def ofList (l : List (String × Text.Bytes)) : Folder where
  files := l.map fun (name, bytes) => ((Path.ofText name).parts, bytes)

variable (f : Folder)

def file? (place : List String) : Option Text.Bytes := (f.files.find? fun e => e.1 == place).map Prod.snd

def isDirectory (place : List String) : Bool := f.files.any fun e => place.isPrefixOf e.1 && e.1 != place

/-- Outside of the working directory there are only the directories above it. -/
def outside (parts : List String) : ReadFault := if parts.all (· == "..") then .directory else .missing

/-- Goes on from a place inside the working directory. -/
def follow (here : List String) : List String → Except ReadFault Text.Bytes
  | [] => .error .directory
  | p :: rest =>
    let there := here ++ [p]
    if p == ".." then
      if here.isEmpty then .error (outside rest) else follow here.dropLast rest
    else
      match f.file? there with
      | some bytes => if rest.isEmpty then .ok bytes else .error .notDirectory
      | none => if f.isDirectory there then follow there rest else .error .missing

def read (p : Path) : Except ReadFault Text.Bytes :=
  if p.root.isEmpty then f.follow [] p.parts
  else .error (if p.parts.isEmpty then .directory else .missing)

end Folder

end RuleNetwork.CommandLine
