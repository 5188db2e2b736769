import RuleNetwork.Number.Decimal
import RuleNetwork.Pattern.Basic
import RuleNetwork.Pattern.Flaw
import RuleNetwork.Text.Hex

/-!
Reading a pattern from its text. The text is cut into signs, a character or a backslash with the
character after it; a sign is looked at only when the one before it has been taken, which decides
which of two flaws is reported.

Only part of the syntax of patterns is read: characters and their escapes, sets, anchors, alternatives,
repetitions of each appetite, plain, named and atomic groups, what lies ahead, and comments. Refused as
unknown extensions are flags, as in `(?i)` and `(?i:a)`, what lies behind, as in `(?<=a)` and `(?<!a)`,
conditions, as in `(?(1)a|b)`, and references to named groups, as in `(?P=n)`; a reference to a numbered
group, as in `\1`, is refused as one to no group, and a character by its name, as in `\N`, as a bad
escape.
-/

set_option autoImplicit false

namespace RuleNetwork.Pattern

structure ReaderState where
  rest : List Char
  groups : Nat := 0
  names : List (String × Nat) := []

abbrev Reading := StateT ReaderState (Except Refusal)

namespace Reading

def refuse {α : Type} (kind : FlawKind) (toEnd : Nat) : Reading α := throw (.flawed ⟨kind, toEnd⟩)

/-- How much of the pattern is left, the sign at hand included. -/
def remaining : Reading Nat := do return (← get).rest.length

/-- Refuses at some characters before the sign at hand. -/
def refuseBack {α : Type} (kind : FlawKind) (back : Nat) : Reading α := do
  refuse kind ((← remaining) + back)

def sign : List Char → List Char
  | '\\' :: c :: _ => ['\\', c]
  | c :: _ => [c]
  | [] => []

def peek : Reading (List Char) := do return sign (← get).rest

/-- Goes on to a place in the text. A backslash there that has nothing after it is a flaw. -/
def goTo (rest : List Char) : Reading Unit := do
  if rest = ['\\'] then refuse .endlessEscape 1
  modify fun s => { s with rest := rest }

/-- Takes the sign at hand; at the end there is none to take. -/
def take : Reading (List Char) := do
  let rest := (← get).rest
  let t := sign rest
  goTo (rest.drop t.length)
  return t

def takeIf (c : Char) : Reading Bool := do
  if (← peek) = [c] then
    let _ ← take
    return true
  else return false

/-- Takes at most so many plain characters of a kind. -/
def takeSome (accept : Char → Bool) : Nat → Reading (List Char)
  | 0 => return []
  | n + 1 => do
    match ← peek with
    | [c] =>
      if accept c then
        let _ ← take
        return c :: (← takeSome accept n)
      else return []
    | _ => return []

def takeMany (accept : Char → Bool) : Reading (List Char) := do takeSome accept (← remaining)

def isHex (c : Char) : Bool := (Text.hexValue? c).isSome

def isOctal (c : Char) : Bool := '0' ≤ c && c ≤ '7'

def isDigit (c : Char) : Bool := '0' ≤ c && c ≤ '9'

def isLetter (c : Char) : Bool := ('a' ≤ c && c ≤ 'z') || ('A' ≤ c && c ≤ 'Z')

/-- The value of digits, each below 16. -/
def valueIn (base : Nat) (digits : List Char) : Nat :=
  digits.foldl (fun n c => n * base + (Text.hexValue? c).getD 0) 0

/-- The code that an escape of just so many hexadecimal digits stands for. -/
def hexEscape (letter : Char) (count : Nat) : Reading Nat := do
  let digits ← takeSome isHex count
  let escape := '\\' :: letter :: digits
  if digits.length < count then
    refuseBack (.incompleteEscape (String.ofList escape)) escape.length
  return valueIn 16 digits

def classOf : Char → Option SetItem
  | 'd' => some (.inside .digit)
  | 'D' => some (.outside .digit)
  | 's' => some (.inside .blank)
  | 'S' => some (.outside .blank)
  | 'w' => some (.inside .word)
  | 'W' => some (.outside .word)
  | _ => none

def anchorOf : Char → Option Anchor
  | 'A' => some .textStart
  | 'Z' => some .textEnd
  | 'b' => some .wordEdge
  | 'B' => some .noWordEdge
  | _ => none

def controlOf : Char → Option Nat
  | 'a' => some 7
  | 'b' => some 8
  | 'f' => some 12
  | 'n' => some 10
  | 'r' => some 13
  | 't' => some 9
  | 'v' => some 11
  | '\\' => some 92
  | _ => none

/-- The largest code point. -/
def lastCode : Nat := 0x10FFFF

def octalCode (digits : List Char) : Reading Nat := do
  let n := valueIn 8 digits
  if 255 < n then refuseBack (.largeOctal (String.ofList ('\\' :: digits))) (digits.length + 1)
  return n

/-- Escapes that mean the same inside and outside of a set. -/
def commonEscape (c : Char) : Reading Nat := do
  match controlOf c with
  | some n => return n
  | none =>
    if c = 'x' then hexEscape c 2
    else if c = 'u' then hexEscape c 4
    else if c = 'U' then
      let n ← hexEscape c 8
      if lastCode < n then refuseBack (.badEscape (String.ofList ['\\', c])) 10
      return n
    else if isLetter c || isDigit c then refuseBack (.badEscape (String.ofList ['\\', c])) 2
    else return c.toNat

def setEscape (c : Char) : Reading SetItem := do
  match classOf c with
  | some k => return k
  | none =>
    if isOctal c then
      let digits ← takeSome isOctal 2
      return .code (← octalCode (c :: digits))
    else return .code (← commonEscape c)

/-- Three octal digits are a code, other digits number a group. -/
def digitEscape (c : Char) : Reading Pattern := do
  let second ← takeSome isDigit 1
  let third ← if (c :: second).all isOctal && !second.isEmpty then takeSome isOctal 1 else pure []
  if third.isEmpty then
    let digits := c :: second
    refuseBack (.noSuchGroup (valueIn 10 digits)) digits.length
  else return .code (← octalCode (c :: second ++ third))

def escape (c : Char) : Reading Pattern := do
  match classOf c, anchorOf c with
  | some k, _ => return .oneOf false [k]
  | none, some a => return .anchor a
  | none, none =>
    if c = '0' then
      let digits ← takeSome isOctal 2
      return .code (valueIn 8 (c :: digits))
    else if isDigit c then digitEscape c
    else return .code (← commonEscape c)

/-- One end of a range, or an entry by itself. -/
def setEntry (t : List Char) : Reading SetItem := do
  match t with
  | ['\\', c] => setEscape c
  | c :: _ => return .code c.toNat
  | [] => return .code 0

def codeOf : SetItem → Option Nat
  | .range first last => if first = last then some first else none
  | _ => none

/-- The entries up to the closing bracket; one that comes first is an entry itself. `toEnd` is where
the set began. -/
def setItems (toEnd : Nat) : Nat → List SetItem → Reading (List SetItem)
  | 0, found => return found
  | fuel + 1, found => do
    let first ← take
    if first.isEmpty then refuse .openSet toEnd
    if first = [']'] && !found.isEmpty then return found.reverse
    let item ← setEntry first
    if !(← takeIf '-') then setItems toEnd fuel (item :: found)
    else
      let last ← take
      if last.isEmpty then refuse .openSet toEnd
      if last = [']'] then return (.code 45 :: item :: found).reverse
      let item' ← setEntry last
      let flaw := FlawKind.badRange (String.ofList first) (String.ofList last)
      let width := first.length + 1 + last.length
      match codeOf item, codeOf item' with
      | some lo, some hi =>
        if hi < lo then refuseBack flaw width
        setItems toEnd fuel (.range lo hi :: found)
      | _, _ => refuseBack flaw width

/-- One more than the largest number of rounds. -/
def roundsLimit : Nat := 4294967295

inductive Bounds where
  | rounds (least : Nat) (most : Option Nat)
  /-- A brace that opens no repetition. -/
  | plainBrace

/-- What follows an opening brace. -/
def bracedBounds (toEnd : Nat) : Reading Bounds := do
  if (← peek) = ['\x7d'] then return .plainBrace
  let start := (← get).rest
  let least ← takeMany isDigit
  let bounded ← takeIf ','
  let most ← if bounded then takeMany isDigit else pure least
  if !(← takeIf '\x7d') then
    goTo start
    return .plainBrace
  let lo := valueIn 10 least
  let hi := valueIn 10 most
  if Number.digitLimit < least.length then throw (.longNumeral least.length)
  if roundsLimit ≤ lo then throw .hugeCount
  if Number.digitLimit < most.length then throw (.longNumeral most.length)
  if most.isEmpty then return .rounds lo none
  if roundsLimit ≤ hi then throw .hugeCount
  if hi < lo then refuse .crossedBounds toEnd
  return .rounds lo (some hi)

/-- A part of a sequence: whether it may be repeated depends on how it was written. -/
inductive Part where
  | plain (p : Pattern)
  | anchor (p : Pattern)
  | repetition (p : Pattern)

def Part.pattern : Part → Pattern
  | .plain p | .anchor p | .repetition p => p

def sequenceOf (parts : List Part) : Pattern := sequence (parts.reverse.map Part.pattern)

def appetite : Reading Appetite := do
  if ← takeIf '?' then return .lazy
  if ← takeIf '+' then return .possessive
  return .greedy

/-- Repeats the last part. `toEnd` is where the repetition sign began. -/
def repeatLast (least : Nat) (most : Option Nat) (toEnd : Nat) : List Part → Reading (List Part)
  | .plain p :: r => do
    return .repetition (.loop p least most (← appetite)) :: r
  | .repetition _ :: _ => refuse .repeatedRepeat toEnd
  | .anchor _ :: _ | [] => refuse .nothingToRepeat toEnd

/-- A name up to its closing angle bracket. -/
def nameUpTo : Nat → List Char → Reading (List Char)
  | 0, found => return found
  | fuel + 1, found => do
    let t ← take
    if t.isEmpty then
      if found.isEmpty then refuseBack .noName 0 else refuseBack .openName found.length
    else if t = ['>'] then
      if found.isEmpty then refuseBack .noName 1 else return found
    else nameUpTo fuel (found ++ t)

def isName : List Char → Bool
  | [] => false
  | c :: r => Text.isWordChar c && !Text.isDecimalDigit c && r.all Text.isWordChar

def openGroup (name : Option String) : Reading Unit := do
  let s ← get
  let number := s.groups + 1
  match name with
  | none => set { s with groups := number }
  | some n =>
    match s.names.find? fun e => e.1 == n with
    | some (_, first) => refuseBack (.takenName n number first) (n.length + 1)
    | none => set { s with groups := number, names := (n, number) :: s.names }

/-- Drops a comment. `toEnd` is where its bracket stands. -/
def skipComment (toEnd : Nat) : Nat → Reading Unit
  | 0 => return
  | fuel + 1 => do
    let t ← take
    if t.isEmpty then refuse .openComment toEnd
    else if t = [')'] then return
    else skipComment toEnd fuel

/-- What an opening round bracket opens. -/
inductive Opening where
  | group
  | ahead (expected : Bool)
  | atomic
  | comment

def opening (toEnd : Nat) : Reading Opening := do
  if !(← takeIf '?') then
    openGroup none
    return .group
  let t ← take
  match t with
  | [] => refuseBack .endOfPattern 0
  | [':'] => return .group
  | ['='] => return .ahead true
  | ['!'] => return .ahead false
  | ['>'] => return .atomic
  | ['#'] =>
    skipComment toEnd ((← remaining) + 1)
    return .comment
  | ['P'] =>
    if ← takeIf '<' then
      let name ← nameUpTo ((← remaining) + 1) []
      if !isName name then refuseBack (.badName (String.ofList name)) (name.length + 1)
      openGroup (some (String.ofList name))
      return .group
    else
      let e ← take
      if e.isEmpty then refuseBack .endOfPattern 0
      else refuseBack (.unknownExtension (String.ofList ('P' :: e))) (e.length + 2)
  | ['<'] =>
    let e ← take
    if e.isEmpty then refuseBack .endOfPattern 0
    else refuseBack (.unknownExtension (String.ofList ('<' :: e))) (e.length + 2)
  | e => refuseBack (.unknownExtension (String.ofList e)) (e.length + 1)

mutual

def alternation : Nat → Reading Pattern
  | 0 => return .empty
  | fuel + 1 => do
    let first ← parts fuel []
    if ← takeIf '|' then return .alt first (← alternation fuel)
    else return first

/-- A sequence up to its end, to a bar or to a closing bracket. -/
def parts : Nat → List Part → Reading Pattern
  | 0, found => return sequenceOf found
  | fuel + 1, found => do
    let toEnd ← remaining
    match ← peek with
    | [] | ['|'] | [')'] => return sequenceOf found
    | ['\\', c] =>
      let _ ← take
      match ← escape c with
      | .anchor a => parts fuel (.anchor (.anchor a) :: found)
      | p => parts fuel (.plain p :: found)
    | t =>
      let _ ← take
      match t with
      | ['['] =>
        let negated ← takeIf '^'
        let items ← setItems toEnd ((← remaining) + 1) []
        parts fuel (.plain (.oneOf negated items) :: found)
      | ['?'] => parts fuel (← repeatLast 0 (some 1) toEnd found)
      | ['*'] => parts fuel (← repeatLast 0 none toEnd found)
      | ['+'] => parts fuel (← repeatLast 1 none toEnd found)
      | ['\x7b'] =>
        match ← bracedBounds (toEnd - 1) with
        | .plainBrace => parts fuel (.plain (.code 0x7b) :: found)
        | .rounds least most => parts fuel (← repeatLast least most toEnd found)
      | ['.'] => parts fuel (.plain .any :: found)
      | ['^'] => parts fuel (.anchor (.anchor .textStart) :: found)
      | ['$'] => parts fuel (.anchor (.anchor .lastLineEnd) :: found)
      | ['('] =>
        let kind ← opening toEnd
        match kind with
        | .comment => parts fuel found
        | .group | .ahead _ | .atomic =>
          let body ← alternation fuel
          if !(← takeIf ')') then refuse .openGroup toEnd
          let p := match kind with
            | .ahead expected => Pattern.ahead expected body
            | .atomic => .atomic body
            | _ => body
          parts fuel (.plain p :: found)
      | c :: _ => parts fuel (.plain (.code c.toNat) :: found)
      | [] => parts fuel found

end

def whole : Reading Pattern := do
  goTo (← get).rest
  let p ← alternation (2 * (← remaining) + 2)
  if (← remaining) = 0 then return p
  else refuseBack .strayClose 0

end Reading

def parse (source : List Char) : Except Refusal Pattern :=
  match Reading.whole.run { rest := source } with
  | .ok (p, _) => .ok p
  | .error f => .error f

end RuleNetwork.Pattern
