import RuleNetwork.Number.Binary64
import RuleNetwork.Text.CodeRanges

/-!
Numbers as they are typed: digits of any script with single underscores between them, a point, an
exponent, blanks around it, or the name of infinity or of what is not a number.
-/

set_option autoImplicit false

namespace RuleNetwork.Number.Binary64

/-- Blanks that may surround a number; of the separators of ASCII none may. -/
def isMargin (c : Char) : Bool :=
  c == ' ' || (9 ≤ c.toNat && c.toNat ≤ 13) || (128 ≤ c.toNat && Text.isBlank c)

def withoutMargins (s : List Char) : List Char :=
  ((s.dropWhile isMargin).reverse.dropWhile isMargin).reverse

/-- The digits at the start of a text and what follows them. -/
def digitRun (afterDigit : Bool) : List Char → List Nat × List Char
  | [] => ([], [])
  | '_' :: c :: r =>
    if afterDigit && Text.isDecimalDigit c then digitRun false (c :: r) else ([], '_' :: c :: r)
  | c :: r =>
    match Text.digitValue? c with
    | some d => let (digits, rest) := digitRun true r; (d :: digits, rest)
    | none => ([], c :: r)

def digitsToNat (digits : List Nat) : Nat := digits.foldl (fun n d => 10 * n + d) 0

/-- A sign and what follows it. -/
def takeSign : List Char → Bool × List Char
  | '-' :: r => (true, r)
  | '+' :: r => (false, r)
  | s => (false, s)

/-- The exponent that a text spells, nothing being an exponent of zero. -/
def exponent? : List Char → Option Int
  | [] => some 0
  | c :: r =>
    let (negative, t) := takeSign r
    let (digits, rest) := digitRun false t
    if (c == 'e' || c == 'E') && !digits.isEmpty && rest.isEmpty then
      some (if negative then -Int.ofNat (digitsToNat digits) else Int.ofNat (digitsToNat digits))
    else none

def fraction : List Char → List Nat × List Char
  | '.' :: r => digitRun false r
  | s => ([], s)

def finiteOf? (negative : Bool) (s : List Char) : Option Binary64 := do
  let (whole, r) := digitRun false s
  let (part, r) := fraction r
  let e ← exponent? r
  if whole.isEmpty && part.isEmpty then none
  else some (ofDecimal negative (digitsToNat (whole ++ part)) (e - part.length))

def ofText? (s : String) : Option Binary64 :=
  let (negative, r) := takeSign (withoutMargins s.toList)
  let word := String.ofList (r.map Char.toLower)
  if word == "nan" then some .nan
  else if word == "inf" || word == "infinity" then some (.infinite negative)
  else finiteOf? negative r

end RuleNetwork.Number.Binary64
