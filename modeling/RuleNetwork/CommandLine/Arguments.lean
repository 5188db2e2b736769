import RuleNetwork.Number.Reading

/-!
Arguments read by the forms of the options that a command has. An option is told in full or by a letter;
letters may be joined, and a value may be joined to its option. After two dashes alone no more options
are read.
-/

set_option autoImplicit false

namespace RuleNetwork.CommandLine

/-- What a value has to be. -/
inductive ValueKind where
  | text
  | path
  | real
  deriving DecidableEq, Repr

structure OptionForm where
  name : String
  letter : Option Char := none
  /-- Nothing for an option that is only given or not. -/
  value : Option ValueKind := none

/-- An option as it was given. -/
structure Given where
  form : OptionForm
  value : String := ""

/-- Why a command line is not carried out. -/
inductive Stop where
  | help
  | usage
  /-- A path that no system can look up. -/
  | nulInPath
  deriving DecidableEq, Repr

/-- One argument read as options; the last of them may still need the next argument as its value. -/
structure Word where
  given : List Given := []
  pending : Option OptionForm := none

namespace Word

variable (forms : List OptionForm)

def named? (name : String) : Option OptionForm := forms.find? fun f => f.name == name

def lettered? (c : Char) : Option OptionForm := forms.find? fun f => f.letter == some c

/-- An option told in full, with a value after an equals sign. -/
def ofForm (f : OptionForm) (value : Option String) : Except Stop Word :=
  match f.value, value with
  | none, none => .ok { given := [⟨f, ""⟩] }
  | none, some _ => .error .usage
  | some _, some v => .ok { given := [⟨f, v⟩] }
  | some _, none => .ok { pending := some f }

def ofLetters : List Char → Except Stop Word
  | [] => .ok {}
  | c :: rest =>
    match lettered? forms c with
    | none => .error .usage
    | some f =>
      if f.value.isSome then
        .ok (if rest.isEmpty then { pending := some f } else { given := [⟨f, String.ofList rest⟩] })
      else do
        let w ← ofLetters rest
        return { w with given := ⟨f, ""⟩ :: w.given }

/-- Splits at the first equals sign. -/
def splitValue (s : List Char) : List Char × Option (List Char) :=
  match s.dropWhile (· != '=') with
  | [] => (s, none)
  | _ :: value => (s.takeWhile (· != '='), some value)

def isOption (s : List Char) : Bool :=
  match s with
  | '-' :: _ :: _ => true
  | _ => false

def ofText (s : List Char) : Except Stop Word :=
  let (name, value) := splitValue s
  match named? forms (String.ofList name) with
  | some f => ofForm f (value.map String.ofList)
  | none => if s.take 2 == ['-', '-'] then .error .usage else ofLetters forms (s.drop 1)

end Word

structure Arguments where
  given : List Given := []
  rest : List String := []

namespace Arguments

def giving (l : List Given) (a : Arguments) : Arguments := { a with given := l ++ a.given }

/-- Options may stand among the other arguments, or else end at the first of these. -/
def read (forms : List OptionForm) (among : Bool) : List String → Except Stop Arguments
  | [] => .ok {}
  | s :: rest =>
    if s == "--" then .ok { rest := rest }
    else if Word.isOption s.toList then
      match Word.ofText forms s.toList with
      | .error e => .error e
      | .ok { given := l, pending := none } => do return (← read forms among rest).giving l
      | .ok { given := l, pending := some f } =>
        match rest with
        | [] => .error .usage
        | v :: rest => do return (← read forms among rest).giving (l ++ [⟨f, v⟩])
    else if among then do
      let a ← read forms among rest
      return { a with rest := s :: a.rest }
    else .ok { rest := s :: rest }

variable (a : Arguments)

/-- The values of an option in the order in which they were given. -/
def all (name : String) : List String := (a.given.filter fun g => g.form.name == name).map Given.value

/-- Of several values the last counts. -/
def last? (name : String) : Option String := (a.all name).getLast?

def has (name : String) : Bool := !(a.all name).isEmpty

end Arguments

/-- Whether a value is of its kind. -/
def ValueKind.check (k : ValueKind) (s : String) : Except Stop Unit :=
  match k with
  | .text => .ok ()
  | .path => if s.toList.contains '\x00' then .error .nulInPath else .ok ()
  | .real => if (Number.Binary64.ofText? s).isSome then .ok () else .error .usage

/-- What a command takes. -/
structure Shape where
  options : List OptionForm := []
  positionals : List ValueKind := []

namespace Shape

def helpName : String := "--help"

def forms (s : Shape) : List OptionForm := { name := helpName } :: s.options

/-- Checks the options that were given, each by its last value, in the order in which they first
appear. -/
def checkOptions (a : Arguments) : Except Stop Unit :=
  (a.given.map fun g => g.form.name).eraseDups.forM fun name =>
    match a.given.reverse.find? fun g => g.form.name == name with
    | some ⟨{ value := some k, .. }, v⟩ => k.check v
    | _ => .ok ()

def checkPositionals : List ValueKind → List String → Except Stop Unit
  | [], [] => .ok ()
  | k :: kinds, v :: values => do
    k.check v
    checkPositionals kinds values
  | _, _ => .error .usage

/-- Reads the arguments of a command. -/
def read (s : Shape) (args : List String) : Except Stop Arguments := do
  let a ← Arguments.read s.forms true args
  if a.has helpName then throw .help
  checkOptions a
  checkPositionals s.positionals a.rest
  return a

/-- Reads the options that stand before a command. -/
def readBefore (s : Shape) (args : List String) : Except Stop Arguments := do
  let a ← Arguments.read s.forms false args
  if a.has helpName then throw .help
  checkOptions a
  return a

end Shape

end RuleNetwork.CommandLine
