import RuleNetwork.Json.Value
import RuleNetwork.Text.Utf8

/-!
Reading JSON. The reader works on symbols, so a byte that begins no character can stand in the text
and is refused where it matters. `NaN`, `Infinity` and `-Infinity` are numbers. Containers that hold
something nest to a fixed depth, and whole numbers have a greatest length.
-/

set_option autoImplicit false

namespace RuleNetwork.Json

open Text (Symbol)

inductive Flaw where
  | eofValue
  | eofList
  | eofObject
  | eofString
  | expectedColon
  | listCommaOrEnd
  | objectCommaOrEnd
  | expectedIdent
  | expectedValue
  | invalidEscape
  | invalidNumber
  | numberOutOfRange
  | invalidCodePoint
  | controlCharacter
  | keyNotString
  | loneSurrogate
  | trailingComma
  | trailingCharacters
  | unfinishedHexEscape
  | tooDeep
  deriving DecidableEq, Repr

def Flaw.text : Flaw → String
  | .eofValue => "EOF while parsing a value"
  | .eofList => "EOF while parsing a list"
  | .eofObject => "EOF while parsing an object"
  | .eofString => "EOF while parsing a string"
  | .expectedColon => "expected \x60:\x60"
  | .listCommaOrEnd => "expected \x60,\x60 or \x60]\x60"
  | .objectCommaOrEnd => "expected \x60,\x60 or \x60\x7d\x60"
  | .expectedIdent => "expected ident"
  | .expectedValue => "expected value"
  | .invalidEscape => "invalid escape"
  | .invalidNumber => "invalid number"
  | .numberOutOfRange => "number out of range"
  | .invalidCodePoint => "invalid unicode code point"
  | .controlCharacter => "control character (\\u0000-\\u001F) found while parsing a string"
  | .keyNotString => "key must be a string"
  | .loneSurrogate => "lone leading surrogate in hex escape"
  | .trailingComma => "trailing comma"
  | .trailingCharacters => "trailing characters"
  | .unfinishedHexEscape => "unexpected end of hex escape"
  | .tooDeep => "recursion limit exceeded"

def byteCount (s : List Symbol) : Nat := (s.map Symbol.size).foldr (· + ·) 0

/-- A flaw, placed by the number of bytes from there to the end of the text. -/
structure Error where
  flaw : Flaw
  remaining : Int
  deriving DecidableEq, Repr

/-- Line and column of a byte. A line feed stands in column 0 of the line that it begins, and the
end of the text in the column of the last byte. -/
def locate (offset lineNumber lineStart : Nat) (target : Int) : List Symbol → Nat × Nat
  | [] => (lineNumber, offset - lineStart)
  | c :: r =>
    let (lineNumber, lineStart) :=
      if c = .char '\n' then (lineNumber + 1, offset + 1) else (lineNumber, lineStart)
    if target < Int.ofNat (offset + c.size) then
      (lineNumber, (target + 1 - Int.ofNat lineStart).toNat)
    else locate (offset + c.size) lineNumber lineStart target r

def Error.message (e : Error) (text : List Symbol) : String :=
  let (lineNumber, column) := locate 0 1 0 (Int.ofNat (byteCount text) - e.remaining) text
  s!"{e.flaw.text} at line {lineNumber} column {column}"

abbrev Reader (α : Type) := List Symbol → Except Error (α × List Symbol)

def failAt {α : Type} (flaw : Flaw) (rest : List Symbol) : Except Error α :=
  .error ⟨flaw, Int.ofNat (byteCount rest)⟩

def isSpace (c : Symbol) : Bool :=
  c == .char ' ' || c == .char '\n' || c == .char '\t' || c == .char '\r'

def skipSpace (s : List Symbol) : List Symbol := s.dropWhile isSpace

/-- Expects the letters of a word, one after the other. -/
def readWord : List Char → List Symbol → Except Error (List Symbol)
  | [], s => .ok s
  | _ :: _, [] => failAt .eofValue []
  | c :: w, x :: r => if x = .char c then readWord w r else failAt .expectedIdent (x :: r)

def hexSymbol? : Symbol → Option Nat
  | .char c => Text.hexValue? c
  | .stray _ => none

def readHex : Nat → Nat → Reader Nat
  | 0, value, s => .ok (value, s)
  | _ + 1, _, [] => failAt .eofString []
  | n + 1, value, c :: r =>
    match hexSymbol? c with
    | some d => readHex n (value * 16 + d) r
    | none => failAt .invalidEscape (c :: r)

def readFourHex (s : List Symbol) : Except Error (Nat × List Symbol) :=
  if byteCount s < 4 then failAt .eofString [] else readHex 4 0 s

/-- An error at the last digit read, which is one byte before the rest. -/
def failBefore {α : Type} (flaw : Flaw) (rest : List Symbol) : Except Error α :=
  .error ⟨flaw, Int.ofNat (byteCount rest) + 1⟩

/-- The character after `\u`; a pair of surrogates is one character. -/
def readUnicodeEscape (s : List Symbol) : Except Error (Char × List Symbol) := do
  let (n, r) ← readFourHex s
  if 0xDC00 ≤ n ∧ n ≤ 0xDFFF then failBefore .loneSurrogate r
  else if 0xD800 ≤ n ∧ n ≤ 0xDBFF then
    match r with
    | .char '\\' :: .char 'u' :: t => do
      let (m, u) ← readFourHex t
      if 0xDC00 ≤ m ∧ m ≤ 0xDFFF then
        .ok (Char.ofNat ((n - 0xD800) * 0x400 + (m - 0xDC00) + 0x10000), u)
      else failBefore .loneSurrogate u
    | [.char '\\'] => failAt .eofString []
    | .char '\\' :: t => failAt .unfinishedHexEscape t
    | [] => failAt .eofString []
    | t => failAt .unfinishedHexEscape t
  else .ok (Char.ofNat n, r)

def simpleEscape? : Symbol → Option Char
  | .char '"' => some '"'
  | .char '\\' => some '\\'
  | .char '/' => some '/'
  | .char 'b' => some '\x08'
  | .char 'f' => some '\x0c'
  | .char 'n' => some '\n'
  | .char 'r' => some '\r'
  | .char 't' => some '\t'
  | _ => none

/-- The bytes before the first stray one. -/
def validSize : List Symbol → Nat
  | [] => 0
  | .stray _ :: _ => 0
  | .char c :: r => c.utf8Size + validSize r

def charOf? : Symbol → Option Char
  | .char c => some c
  | .stray _ => none

/-- Reads up to the closing quote. `stretch` is the rest of the text where the last unescaped
stretch began; a byte that begins no character is placed by the valid bytes from there. -/
def readChars (stretch : List Symbol) (done : List Symbol) : Nat → Reader String
  | 0, s => failAt .eofString s
  | _, [] => failAt .eofString []
  | fuel + 1, c :: r =>
    if c = .char '"' then
      let all := done.reverse
      let chars := all.filterMap charOf?
      if chars.length = all.length then .ok (String.ofList chars, r)
      else .error ⟨.invalidCodePoint, Int.ofNat (byteCount stretch) - Int.ofNat (validSize all)⟩
    else if c = .char '\\' then
      match r with
      | [] => failAt .eofString []
      | .char 'u' :: t => do
        let (x, u) ← readUnicodeEscape t
        readChars u (.char x :: done) fuel u
      | x :: t =>
        match simpleEscape? x with
        | some y => readChars t (.char y :: done) fuel t
        | none => failAt .invalidEscape r
    else
      match c with
      | .char x =>
        if x.toNat < 0x20 then failAt .controlCharacter (c :: r)
        else readChars stretch (c :: done) fuel r
      | .stray _ => readChars stretch (c :: done) fuel r

/-- Reads what follows the opening quote. -/
def readString (s : List Symbol) : Except Error (String × List Symbol) :=
  readChars s [] s.length s

def digit? : Symbol → Option Nat
  | .char c => if '0' ≤ c ∧ c ≤ '9' then some (c.toNat - 48) else none
  | .stray _ => none

def isDigit (c : Symbol) : Bool := (digit? c).isSome

def digitsValue (digits : List Symbol) : Nat :=
  digits.foldl (fun n c => n * 10 + (digit? c).getD 0) 0

/-- One or more digits. -/
def readDigits (s : List Symbol) : Except Error (List Symbol × List Symbol) :=
  match s with
  | [] => failAt .eofValue []
  | c :: _ =>
    if isDigit c then .ok (s.takeWhile isDigit, s.dropWhile isDigit) else failAt .invalidNumber s

def isExponentMark (c : Symbol) : Bool := c == .char 'e' || c == .char 'E'

/-- The exponent after its mark. -/
def readExponent (s : List Symbol) : Except Error (Int × List Symbol) :=
  match s with
  | .char '-' :: r => do
    let (digits, t) ← readDigits r
    .ok (-Int.ofNat (digitsValue digits), t)
  | .char '+' :: r => do
    let (digits, t) ← readDigits r
    .ok (Int.ofNat (digitsValue digits), t)
  | r => do
    let (digits, t) ← readDigits r
    .ok (Int.ofNat (digitsValue digits), t)

/-- A number after its sign and whole part. A whole number has at most so many digits as the limit says;
a sign counts as one. -/
def readNumberTail (limit : Nat) (start : List Symbol) (negative : Bool) (whole : List Symbol)
    (s : List Symbol) : Except Error (Json × List Symbol) :=
  match s with
  | .char '.' :: r => do
    let (digits, t) ← readDigits r
    let all := digitsValue (whole ++ digits)
    match t with
    | c :: u =>
      if isExponentMark c then do
        let (e, v) ← readExponent u
        .ok (.real (.ofDecimal negative all (e - Int.ofNat digits.length)), v)
      else .ok (.real (.ofDecimal negative all (-Int.ofNat digits.length)), t)
    | [] => .ok (.real (.ofDecimal negative all (-Int.ofNat digits.length)), t)
  | c :: r =>
    if isExponentMark c then do
      let (e, t) ← readExponent r
      .ok (.real (.ofDecimal negative (digitsValue whole) e), t)
    else finish
  | [] => finish
where
  finish : Except Error (Json × List Symbol) :=
    if limit < whole.length + (if negative then 1 else 0) then
      failAt .numberOutOfRange (start.drop (limit + 1))
    else
      let n := Int.ofNat (digitsValue whole)
      .ok (.int (if negative then -n else n), s)

/-- A number after its sign. -/
def readUnsigned (limit : Nat) (start : List Symbol) (negative : Bool) (s : List Symbol) :
    Except Error (Json × List Symbol) :=
  match s with
  | [] => failAt .eofValue []
  | .char 'I' :: r => do
    let t ← readWord "nfinity".toList r
    .ok (.real (.infinite negative), t)
  | .char '0' :: r =>
    match r with
    | c :: _ =>
      if isDigit c then failAt .invalidNumber r
      else readNumberTail limit start negative [.char '0'] r
    | [] => readNumberTail limit start negative [.char '0'] r
  | c :: _ =>
    if isDigit c then
      readNumberTail limit start negative (s.takeWhile isDigit) (s.dropWhile isDigit)
    else failAt .invalidNumber s

/-- The items after the first one, up to the closing bracket. -/
def readItems (one : Reader Json) : Nat → List Json → Reader Json
  | 0, _, s => failAt .eofList s
  | fuel + 1, done, s =>
    match skipSpace s with
    | [] => failAt .eofList []
    | .char ']' :: r => .ok (.arr done.reverse, r)
    | .char ',' :: r =>
      match skipSpace r with
      | [] => failAt .eofValue []
      | .char ']' :: t => failAt .trailingComma (.char ']' :: t)
      | t => do
        let (v, u) ← one t
        readItems one fuel (v :: done) u
    | t => failAt .listCommaOrEnd t

/-- A key after its opening quote, with its colon and the blanks before the value. -/
def readKey (s : List Symbol) : Except Error (String × List Symbol) := do
  let (key, r) ← readString s
  match skipSpace r with
  | [] => failAt .eofObject []
  | .char ':' :: t =>
    match skipSpace t with
    | [] => failAt .eofValue []
    | u => .ok (key, u)
  | t => failAt .expectedColon t

/-- The fields after the first one, up to the closing brace. -/
def readFields (one : Reader Json) : Nat → List (String × Json) → Reader Json
  | 0, _, s => failAt .eofObject s
  | fuel + 1, done, s =>
    match skipSpace s with
    | [] => failAt .eofObject []
    | .char '\x7d' :: r => .ok (.obj done.reverse, r)
    | .char ',' :: r =>
      match skipSpace r with
      | [] => failAt .eofValue []
      | .char '"' :: t => do
        let (key, u) ← readKey t
        let (v, w) ← one u
        readFields one fuel ((key, v) :: done) w
      | .char '\x7d' :: t => failAt .trailingComma (.char '\x7d' :: t)
      | t => failAt .keyNotString t
    | t => failAt .objectCommaOrEnd t

/-- A value that begins at the first symbol, with so many containers left to open. -/
def readValue (limit : Nat) : Nat → Reader Json
  | depth, s =>
    match s with
    | [] => failAt .eofValue []
    | .char 'n' :: r => do
      let t ← readWord "ull".toList r
      .ok (.null, t)
    | .char 't' :: r => do
      let t ← readWord "rue".toList r
      .ok (.bool true, t)
    | .char 'f' :: r => do
      let t ← readWord "alse".toList r
      .ok (.bool false, t)
    | .char 'N' :: r => do
      let t ← readWord "aN".toList r
      .ok (.real .nan, t)
    | .char '-' :: r => readUnsigned limit s true r
    | .char 'I' :: _ => readUnsigned limit s false s
    | .char '"' :: r => do
      let (text, t) ← readString r
      .ok (.str text, t)
    | .char '[' :: r =>
      match skipSpace r with
      | [] => failAt .eofList []
      | .char ']' :: t => .ok (.arr [], t)
      | t =>
        match depth with
        | 0 => failAt .tooDeep t
        | d + 1 => do
          let (v, u) ← readValue limit d t
          readItems (readValue limit d) u.length [v] u
    | .char '\x7b' :: r =>
      match skipSpace r with
      | [] => failAt .eofObject []
      | .char '\x7d' :: t => .ok (.obj [], t)
      | .char '"' :: t => do
        let (key, u) ← readKey t
        match depth with
        | 0 => failAt .tooDeep u
        | d + 1 => do
          let (v, w) ← readValue limit d u
          readFields (readValue limit d) w.length [(key, v)] w
      | t => failAt .keyNotString t
    | c :: _ => if isDigit c then readUnsigned limit s false s else failAt .expectedValue s

/-- How many containers that hold something may be open at once. -/
def greatestDepth : Nat := 200

def readWithin (limit depth : Nat) (s : List Symbol) : Except Error Json := do
  let (v, r) ← readValue limit depth (skipSpace s)
  match skipSpace r with
  | [] => .ok v
  | t => failAt .trailingCharacters t

/-- The value that a text spells, or the message that says where it goes wrong. -/
def read (s : List Symbol) : Except String Json :=
  (readWithin Number.digitLimit greatestDepth s).mapError fun e => e.message s

end RuleNetwork.Json
