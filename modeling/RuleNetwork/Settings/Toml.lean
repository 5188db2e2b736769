import RuleNetwork.Settings.Tables
import RuleNetwork.Text.Hex

/-!
Reading a settings text in the TOML format. A statement is a line; values may run over several. Every
flaw is told with the line and column where the reader noticed it.
-/

set_option autoImplicit false

namespace RuleNetwork.Settings.Toml

inductive FlawKind where
  | invalidStatement
  | unfinishedStatement
  | expected (text : String)
  | invalidCharacter (c : Char)
  | table (flaw : TableFlaw)
  | openHeader
  | openArrayHeader
  | noEquals
  | noKey
  | openArray
  | frozenKey (path : Path)
  | duplicateKey (key : String)
  | openInlineTable
  | badEscape
  | badHex
  | noScalar
  | openString
  | illegalCharacter (c : Char)
  | badDate
  | invalidValue
  deriving DecidableEq, Repr

def FlawKind.message : FlawKind → String
  | .invalidStatement => "Invalid statement"
  | .unfinishedStatement => "Expected newline or end of document after a statement"
  | .expected text => s!"Expected {Text.quoted text}"
  | .invalidCharacter c => s!"Found invalid character {Text.quoted c.toString}"
  | .table (.declaredTwice path) => s!"Cannot declare {pathText path} twice"
  | .table (.redefined path) => s!"Cannot redefine namespace {pathText path}"
  | .table (.immutable path) | .frozenKey path => s!"Cannot mutate immutable namespace {pathText path}"
  | .table .overwritten => "Cannot overwrite a value"
  | .openHeader => "Expected ']' at the end of a table declaration"
  | .openArrayHeader => "Expected ']]' at the end of an array declaration"
  | .noEquals => "Expected '=' after a key in a key/value pair"
  | .noKey => "Invalid initial character for a key part"
  | .openArray => "Unclosed array"
  | .duplicateKey key => s!"Duplicate inline table key {Text.quoted key}"
  | .openInlineTable => "Unclosed inline table"
  | .badEscape => "Unescaped '\\' in a string"
  | .badHex => "Invalid hex value"
  | .noScalar => "Escaped character is not a Unicode scalar value"
  | .openString => "Unterminated string"
  | .illegalCharacter c => s!"Illegal character {Text.quoted c.toString}"
  | .badDate => "Invalid date or datetime"
  | .invalidValue => "Invalid value"

/-- The place is counted from the end of the text. -/
structure Flaw where
  kind : FlawKind
  toEnd : Nat
  deriving DecidableEq, Repr

def Flaw.place (source : List Char) (f : Flaw) : String :=
  if f.toEnd = 0 then "end of document"
  else
    let before := source.take (source.length - f.toEnd)
    let line := before.count '\n' + 1
    let column := (before.reverse.takeWhile (· != '\n')).length + 1
    s!"line {line}, column {column}"

def Flaw.message (source : List Char) (f : Flaw) : String :=
  s!"{f.kind.message} (at {f.place source})"

abbrev Reading := StateT (List Char) (Except Flaw)

def refuseAt {α : Type} (kind : FlawKind) (rest : List Char) : Reading α := throw ⟨kind, rest.length⟩

def refuse {α : Type} (kind : FlawKind) : Reading α := do refuseAt kind (← get)

def peek : Reading (Option Char) := do return (← get).head?

def skip (n : Nat) : Reading Unit := modify (·.drop n)

def startsWith (text : String) : Reading Bool := do return text.toList.isPrefixOf (← get)

/-- Takes a text if it comes next. -/
def takeText (text : String) : Reading Bool := do
  if ← startsWith text then
    skip text.length
    return true
  return false

def takeWhile (p : Char → Bool) : Reading (List Char) := do
  let s ← get
  set (s.dropWhile p)
  return s.takeWhile p

def skipWhile (p : Char → Bool) : Reading Unit := modify (·.dropWhile p)

def isSpace (c : Char) : Bool := c == ' ' || c == '\t'

def isSpaceOrNewline (c : Char) : Bool := isSpace c || c == '\n'

/-- Controls other than the tab. -/
def isControl (c : Char) : Bool := (c.toNat < 32 && c != '\t') || c.toNat == 127

def isControlInLines (c : Char) : Bool := isControl c && c != '\n'

def isBareKey (c : Char) : Bool := c.isAlphanum || c == '-' || c == '_'

def skipSpaces : Reading Unit := skipWhile isSpace

/-- The text before the first occurrence of a mark, or all of it. -/
def upTo (mark : List Char) : List Char → List Char
  | [] => []
  | c :: r => if mark.isPrefixOf (c :: r) then [] else c :: upTo mark r

/-- Takes the text up to a mark that has to come. Characters that are not allowed are looked for only
once the mark is found. -/
def takeUpTo (mark : String) (forbidden : Char → Bool) : Reading (List Char) := do
  let s ← get
  let text := upTo mark.toList s
  if text.length = s.length then refuseAt (.expected mark) []
  match text.dropWhile (!forbidden ·) with
  | c :: r => refuseAt (.invalidCharacter c) (s.drop (text.length - r.length - 1))
  | [] =>
    skip text.length
    return text

def skipComment : Reading Unit := do
  if (← peek) = some '#' then
    let s ← get
    let text := (s.drop 1).takeWhile (· != '\n')
    match text.dropWhile (!isControl ·) with
    | c :: r => refuseAt (.invalidCharacter c) (s.drop (1 + text.length - r.length - 1))
    | [] => skip (1 + text.length)

/-- Skips comments and blank lines inside an array. -/
def skipGaps : Nat → Reading Unit
  | 0 => return
  | fuel + 1 => do
    let before := (← get).length
    skipWhile isSpaceOrNewline
    skipComment
    if (← get).length < before then skipGaps fuel

def hexChar (count : Nat) : Reading Char := do
  let s ← get
  let digits := (s.take count).map Text.hexValue?
  if digits.length < count || digits.any Option.isNone then refuse .badHex
  skip count
  let n := digits.foldl (fun n d => n * 16 + d.getD 0) 0
  if n < 0xD800 || (0xDFFF < n && n < 0x110000) then return Char.ofNat n
  refuse .noScalar

def plainEscape : Option Char → Option Char
  | some 'b' => some '\x08'
  | some 't' => some '\t'
  | some 'n' => some '\n'
  | some 'f' => some '\x0c'
  | some 'r' => some '\r'
  | some '"' => some '"'
  | some '\\' => some '\\'
  | _ => none

/-- A backslash at the end of a line joins the lines. -/
def lineJoin (first : Char) : Reading (List Char) := do
  if first != '\n' then
    skipSpaces
    match ← peek with
    | none => return []
    | some '\n' => skip 1
    | some _ => refuse .badEscape
  skipWhile isSpaceOrNewline
  return []

/-- What an escape stands for, read from its backslash on. A flaw is noticed after it. -/
def escape (multiline : Bool) : Reading (List Char) := do
  skip 1
  let c ← peek
  skip 1
  match c with
  | some 'u' => return [← hexChar 4]
  | some 'U' => return [← hexChar 8]
  | _ =>
    match multiline && c.any isSpaceOrNewline, c with
    | true, some first => lineJoin first
    | _, _ =>
      match plainEscape c with
      | some x => return [x]
      | none => refuse .badEscape

def basicBody (multiline : Bool) : Nat → List Char → Reading String
  | 0, found => return String.ofList found.reverse
  | fuel + 1, found => do
    match ← peek with
    | none => refuse .openString
    | some '"' =>
      if !multiline then
        skip 1
        return String.ofList found.reverse
      if ← takeText "\"\"\"" then return String.ofList found.reverse
      skip 1
      basicBody multiline fuel ('"' :: found)
    | some '\\' => basicBody multiline fuel ((← escape multiline).reverse ++ found)
    | some c =>
      if (if multiline then isControlInLines c else isControl c) then refuse (.illegalCharacter c)
      skip 1
      basicBody multiline fuel (c :: found)

def basicString (multiline : Bool) : Reading String := do
  basicBody multiline ((← get).length + 1) []

def literalString : Reading String := do
  skip 1
  let text ← takeUpTo "'" isControl
  skip 1
  return String.ofList text

/-- Up to two more quotes belong to the text. -/
def extraQuotes (quote : String) : Reading String := do
  if !(← takeText quote) then return ""
  if !(← takeText quote) then return quote
  return quote ++ quote

/-- A newline right after the opening quotes is dropped. -/
def skipFirstNewline : Reading Unit := do
  let _ ← takeText "\n"

def multilineBasic : Reading String := do
  skip 3
  skipFirstNewline
  let text ← basicString true
  return text ++ (← extraQuotes "\"")

def multilineLiteral : Reading String := do
  skip 3
  skipFirstNewline
  let text ← takeUpTo "'''" isControlInLines
  skip 3
  return String.ofList text ++ (← extraQuotes "'")

def keyPart : Reading String := do
  match ← peek with
  | some '\'' => literalString
  | some '"' =>
    skip 1
    basicString false
  | some c => if isBareKey c then return String.ofList (← takeWhile isBareKey) else refuse .noKey
  | none => refuse .noKey

def keyParts : Nat → Reading Path
  | 0 => return []
  | fuel + 1 => do
    let part ← keyPart
    skipSpaces
    if ← takeText "." then
      skipSpaces
      return part :: (← keyParts fuel)
    return [part]

def key : Reading Path := do keyParts ((← get).length + 1)

/-! Dates and numbers are read as far as they make sense; what is left is noticed later. -/

def isDigit (c : Char) : Bool := '0' ≤ c && c ≤ '9'

def digitsValue (base : Nat) (digits : List Char) : Nat :=
  digits.foldl (fun n c => n * base + (Text.hexValue? c).getD 0) 0

/-- Just so many digits whose value lies between two bounds. -/
def fixed? (count low high : Nat) (s : List Char) : Option (Nat × List Char) :=
  let digits := s.take count
  let value := digitsValue 10 digits
  if digits.length = count ∧ digits.all isDigit ∧ low ≤ value ∧ value ≤ high then some (value, s.drop count)
  else none

def sign? (c : Char) : List Char → Option (List Char)
  | d :: r => if d = c then some r else none
  | [] => none

/-- Six digits of the fraction count, further ones are dropped. -/
def fraction (s : List Char) : Nat × List Char :=
  match s with
  | '.' :: r =>
    let digits := r.takeWhile isDigit
    if digits.isEmpty then (0, s)
    else
      let kept := digits.take 6
      (digitsValue 10 kept * Nat.pow 10 (6 - kept.length), r.dropWhile isDigit)
  | _ => (0, s)

def clock? (s : List Char) : Option (Clock × List Char) := do
  let (hour, s) ← fixed? 2 0 23 s
  let (minute, s) ← fixed? 2 0 59 (← sign? ':' s)
  let (second, s) ← fixed? 2 0 59 (← sign? ':' s)
  let (micros, s) := fraction s
  return (⟨hour, minute, second, micros⟩, s)

def date? (s : List Char) : Option (Date × List Char) := do
  let (year, s) ← fixed? 4 0 9999 s
  let (month, s) ← fixed? 2 1 12 (← sign? '-' s)
  let (day, s) ← fixed? 2 1 31 (← sign? '-' s)
  return (⟨year, month, day⟩, s)

def distance? (s : List Char) : Option (Nat × List Char) := do
  let (hours, s) ← fixed? 2 0 23 s
  let (minutes, s) ← fixed? 2 0 59 (← sign? ':' s)
  return (hours * 60 + minutes, s)

def zone (s : List Char) : Option Int × List Char :=
  match s with
  | 'Z' :: r | 'z' :: r => (some 0, r)
  | '+' :: r =>
    match distance? r with
    | some (n, r) => (some n, r)
    | none => (none, s)
  | '-' :: r =>
    match distance? r with
    | some (n, r) => (some (-n), r)
    | none => (none, s)
  | _ => (none, s)

def moment? (s : List Char) : Option (Moment × List Char) :=
  match date? s with
  | some (d, r) =>
    match r with
    | c :: r' =>
      match (if c = 'T' ∨ c = 't' ∨ c = ' ' then clock? r' else none) with
      | some (t, r'') =>
        let (z, rest) := zone r''
        some (.both d t z, rest)
      | none => some (.date d, r)
    | [] => some (.date d, r)
  | none => (clock? s).map fun (t, r) => (.clock t, r)

def isValidMoment : Moment → Bool
  | .date d | .both d .. => d.isValid
  | .clock _ => true

/-- Digits after the first one, where single low lines may stand between digits. -/
def moreDigits (p : Char → Bool) : List Char → List Char × List Char
  | '_' :: c :: r =>
    if p c then
      let (digits, rest) := moreDigits p r
      (c :: digits, rest)
    else ([], '_' :: c :: r)
  | c :: r =>
    if p c then
      let (digits, rest) := moreDigits p r
      (c :: digits, rest)
    else ([], c :: r)
  | [] => ([], [])

def someDigits? (p : Char → Bool) : List Char → Option (List Char × List Char)
  | c :: r => if p c then some ((c :: (moreDigits p r).1), (moreDigits p r).2) else none
  | [] => none

def radix? : Char → Option (Nat × (Char → Bool))
  | 'x' => some (16, fun c => (Text.hexValue? c).isSome)
  | 'b' => some (2, fun c => c == '0' || c == '1')
  | 'o' => some (8, fun c => '0' ≤ c && c ≤ '7')
  | _ => none

def radixNumber? : List Char → Option (Value × List Char)
  | '0' :: c :: r => do
    let (base, p) ← radix? c
    let (digits, rest) ← someDigits? p r
    return (.int (digitsValue base digits), rest)
  | _ => none

def wholePart? : List Char → Option (List Char × List Char)
  | '0' :: r => some (['0'], r)
  | s => someDigits? isDigit s

def fractionPart (s : List Char) : List Char × List Char :=
  match s with
  | '.' :: r => (someDigits? isDigit r).getD ([], s)
  | _ => ([], s)

def exponentSign : List Char → Bool × List Char
  | '-' :: r => (true, r)
  | '+' :: r => (false, r)
  | r => (false, r)

def exponentPart? (s : List Char) : Option (Int × List Char) :=
  match s with
  | c :: r =>
    if c = 'e' ∨ c = 'E' then
      let (negative, r) := exponentSign r
      (someDigits? isDigit r).map fun (digits, rest) =>
        let n : Int := digitsValue 10 digits
        (if negative then -n else n, rest)
    else none
  | [] => none

def signedInt (negative : Bool) (n : Nat) : Int := if negative then -n else n

/-- A number with a fraction or an exponent is a float. -/
def decimal? (s : List Char) : Option (Value × List Char) := do
  let (negative, s) := exponentSign s
  let (whole, s) ← wholePart? s
  let (frac, s) := fractionPart s
  match exponentPart? s, frac with
  | none, [] => return (.int (signedInt negative (digitsValue 10 whole)), s)
  | e, _ =>
    let (power, rest) := e.getD (0, s)
    let digits := digitsValue 10 (whole ++ frac)
    return (.real (.ofDecimal negative digits (power - frac.length)), rest)

def special? (s : List Char) : Option (Value × List Char) :=
  let (negative, r) := exponentSign s
  match r with
  | 'i' :: 'n' :: 'f' :: rest => some (.real (.infinite negative), rest)
  | 'n' :: 'a' :: 'n' :: rest => some (.real .nan, rest)
  | _ => none

def number : Reading Value := do
  let s ← get
  match moment? s with
  | some (m, rest) =>
    if !isValidMoment m then refuse .badDate
    set rest
    return .moment m
  | none =>
    match (radixNumber? s).or ((decimal? s).or (special? s)) with
    | some (v, rest) =>
      set rest
      return v
    | none => refuse .invalidValue

/-- An inline table so far. Tables and lists in it are frozen once a comma follows. -/
structure Inline where
  rows : Table := []
  frozen : List Path := []

def Inline.add (t : Inline) (path : Path) (v : Value) : Reading Inline := do
  if t.frozen.any fun q => q.isPrefixOf path then refuse (.frozenKey path)
  let last := path.getLast?.getD ""
  match editAt false (fun inner => some (Table.set last v inner)) path.dropLast t.rows with
  | none => refuse (.table .overwritten)
  | some rows =>
    match editAt false (Tables.setNew last v) path.dropLast t.rows with
    | none => refuse (.duplicateKey last)
    | some _ => return { t with rows := rows }

def Inline.freeze (t : Inline) (path : Path) (v : Value) : Inline :=
  if Tables.isNested v then { t with frozen := path :: t.frozen } else t

def pairWith (value : Reading Value) : Reading (Path × Value) := do
  let path ← key
  if !(← takeText "=") then refuse .noEquals
  skipSpaces
  return (path, ← value)

def arrayItems (value : Reading Value) : Nat → List Value → Reading Value
  | 0, found => return .list found.reverse
  | fuel + 1, found => do
    let v ← value
    skipGaps (fuel + 1)
    if ← takeText "]" then return .list (v :: found).reverse
    if !(← takeText ",") then refuse .openArray
    skipGaps (fuel + 1)
    if ← takeText "]" then return .list (v :: found).reverse
    arrayItems value fuel (v :: found)

def inlineRows (value : Reading Value) : Nat → Inline → Reading Value
  | 0, t => return .table t.rows
  | fuel + 1, t => do
    let (path, v) ← pairWith value
    let t ← t.add path v
    skipSpaces
    if ← takeText "\x7d" then return .table t.rows
    if !(← takeText ",") then refuse .openInlineTable
    skipSpaces
    inlineRows value fuel (t.freeze path v)

/-- A value that nests at most so deep. -/
def valueWithin : Nat → Reading Value
  | 0 => refuse .invalidValue
  | depth + 1 => do
    let size := (← get).length + 1
    match ← peek with
    | some '"' =>
      if ← startsWith "\"\"\"" then return .text (← multilineBasic)
      skip 1
      return .text (← basicString false)
    | some '\'' =>
      if ← startsWith "'''" then return .text (← multilineLiteral)
      return .text (← literalString)
    | some '[' =>
      skip 1
      skipGaps size
      if ← takeText "]" then return .list []
      arrayItems (valueWithin depth) size []
    | some '\x7b' =>
      skip 1
      skipSpaces
      if ← takeText "\x7d" then return .table []
      inlineRows (valueWithin depth) size {}
    | some 't' => if ← takeText "true" then return .bool true else number
    | some 'f' => if ← takeText "false" then return .bool false else number
    | _ => number

/-- Every level of nesting takes a character. -/
def value : Reading Value := do valueWithin ((← get).length + 1)

/-- The tables so far and the section that keys belong to. -/
structure Progress where
  tables : Tables := {}
  home : Path := []

def settle {α : Type} : Except TableFlaw α → Reading α
  | .ok a => return a
  | .error f => refuse (.table f)

def header (p : Progress) : Reading Progress := do
  let t := p.tables.settlePending
  if ← takeText "[[" then
    skipSpaces
    let path ← key
    let t ← settle (t.appendTable path)
    if !(← takeText "]]") then refuse .openArrayHeader
    return ⟨t, path⟩
  skip 1
  skipSpaces
  let path ← key
  let t ← settle (t.openTable path)
  if !(← takeText "]") then refuse .openHeader
  return ⟨t, path⟩

def startsKey (c : Char) : Bool := isBareKey c || c == '"' || c == '\''

def statement (p : Progress) (c : Char) : Reading Progress := do
  if startsKey c then
    let (path, v) ← pairWith value
    let t ← settle (p.tables.setKey p.home path v)
    return { p with tables := t }
  if c = '[' then return ← header p
  if c != '#' then refuse .invalidStatement
  return p

def statements : Nat → Progress → Reading Table
  | 0, p => return p.tables.root
  | fuel + 1, p => do
    skipSpaces
    match ← peek with
    | none => return p.tables.root
    | some '\n' =>
      skip 1
      statements fuel p
    | some c =>
      let p ← statement p c
      skipSpaces
      skipComment
      match ← peek with
      | none => return p.tables.root
      | some '\n' =>
        skip 1
        statements fuel p
      | some _ => refuse .unfinishedStatement

/-- A settings text; its lines end in newlines alone. -/
def parse (source : List Char) : Except Flaw Table :=
  match (statements (source.length + 1) {}).run source with
  | .ok (t, _) => .ok t
  | .error f => .error f

end RuleNetwork.Settings.Toml
