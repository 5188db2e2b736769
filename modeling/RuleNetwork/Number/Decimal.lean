import RuleNetwork.Number.Binary64

/-!
Decimal text of doubles: the fewest digits that read back, a fixed number of significant digits, and
the styles in which digits and an exponent are laid out. Whole numbers are written out, and read, up to
so many digits.
-/

set_option autoImplicit false

namespace RuleNetwork.Number

/-- The most digits of a whole number that is written out or read. -/
def digitLimit : Nat := 4300

/-- Whether a whole number is short enough to be written out. -/
def isWritable (i : Int) : Bool := i.natAbs < Nat.pow 10 digitLimit

/-- The significant digits of a number and the exponent of the first of them. -/
structure Digits where
  digits : List Char
  exponent : Int

/-- How digits and exponent become text. Exponents from `least` to `most` are written with a point
in place; others follow an `e`. -/
structure DecimalStyle where
  least : Int
  most : Int
  /-- Whole numbers keep a point and a zero. -/
  keepPoint : Bool
  /-- A plus sign and at least two digits in the exponent. -/
  longExponent : Bool

namespace DecimalStyle

/-- The style of values in messages: positional from `1e-4` up to `1e16`. -/
def message : DecimalStyle := ⟨-4, 15, true, true⟩

/-- The style of numbers in reports: positional from `1e-5` up to `1e16`. -/
def report : DecimalStyle := ⟨-5, 15, true, false⟩

/-- The style of a time budget: six significant digits, no needless point. -/
def budget : DecimalStyle := ⟨-4, 5, false, true⟩

def exponentText (style : DecimalStyle) (e : Int) : List Char :=
  let digits := Nat.toDigits 10 e.natAbs
  let padded := if style.longExponent ∧ digits.length < 2 then '0' :: digits else digits
  if e < 0 then 'e' :: '-' :: padded
  else if style.longExponent then 'e' :: '+' :: padded
  else 'e' :: padded

def layout (style : DecimalStyle) (d : Digits) : List Char :=
  if style.least ≤ d.exponent ∧ d.exponent ≤ style.most then
    if d.exponent < 0 then
      '0' :: '.' :: List.replicate (-d.exponent - 1).toNat '0' ++ d.digits
    else
      let whole := d.exponent.toNat + 1
      let front := d.digits.take whole ++ List.replicate (whole - d.digits.length) '0'
      let back := d.digits.drop whole
      if back.isEmpty then if style.keepPoint then front ++ ['.', '0'] else front
      else front ++ '.' :: back
  else
    match d.digits with
    | [] => []
    | [c] => c :: style.exponentText d.exponent
    | c :: r => c :: '.' :: r ++ style.exponentText d.exponent

end DecimalStyle

namespace Binary64

/-- Both whole neighbours of a magnitude on the grid of step `10 ^ power`, the nearer one first and
of two equally near ones the even one first. -/
def gridNeighbours (num den : Nat) (power : Int) : List Nat :=
  let n := num * Nat.pow 10 (-power).toNat
  let d := den * Nat.pow 10 power.toNat
  let low := n / d
  if roundDiv n d = low then [low, low + 1] else [low + 1, low]

/-- Tries the grids of `count`, `count + 1`, … digits for a point that reads back. -/
def shortestFrom (m : Nat) (e : Int) (top : Int) : Nat → Nat → Nat × Int
  | 0, count => (m, Int.ofNat count)
  | fuel + 1, count =>
    let (num, den) := quotient m e
    let power := top - Int.ofNat count + 1
    match (gridNeighbours num den power).find? fun c =>
        ofDecimal false c power == .finite false m e with
    | some c => (c, power)
    | none => shortestFrom m e top fuel (count + 1)

def dropZeros (digits : List Char) : List Char :=
  match (digits.reverse.dropWhile (· == '0')).reverse with
  | [] => ['0']
  | kept => kept

/-- The fewest digits that read back as the given positive magnitude, and of those the nearest. -/
def shortestDigits (m : Nat) (e : Int) : Digits :=
  let (num, den) := quotient m e
  let (c, power) := shortestFrom m e (decimalExponent num den) 17 1
  let digits := Nat.toDigits 10 c
  ⟨dropZeros digits, power + Int.ofNat digits.length - 1⟩

/-- A magnitude rounded to `count` significant digits, without the zeros at the end. -/
def roundedDigits (count : Nat) (m : Nat) (e : Int) : Digits :=
  let (num, den) := quotient m e
  let power := decimalExponent num den - Int.ofNat count + 1
  let c := roundDiv (num * Nat.pow 10 (-power).toNat) (den * Nat.pow 10 power.toNat)
  let digits := Nat.toDigits 10 c
  ⟨dropZeros digits, power + Int.ofNat digits.length - 1⟩

def signed (negative : Bool) (text : List Char) : String :=
  String.ofList (if negative then '-' :: text else text)

def render (style : DecimalStyle) (digits : Nat → Int → Digits) : Binary64 → String
  | .nan => "nan"
  | .infinite negative => signed negative "inf".toList
  | .finite negative 0 _ => signed negative (style.layout ⟨['0'], 0⟩)
  | .finite negative m e => signed negative (style.layout (digits m e))

/-- The fewest digits that read back, as messages show them. -/
def toMessage (x : Binary64) : String := x.render .message shortestDigits

/-- The fewest digits that read back, as reports show them. -/
def toReport (x : Binary64) : String := x.render .report shortestDigits

/-- Six significant digits. -/
def toBudget (x : Binary64) : String := x.render .budget (roundedDigits 6)

end Binary64

end RuleNetwork.Number
