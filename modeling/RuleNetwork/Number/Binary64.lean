/-!
Double-precision binary numbers as exact data: a sign, a whole mantissa and a power of two, besides
the infinities and the one value that is not a number. Every real is read as the nearest of them, a
tie going to the even mantissa. So is a quotient of natural numbers rounded to a whole one.
-/

set_option autoImplicit false

namespace RuleNetwork.Number

def roundDiv (num den : Nat) : Nat :=
  let q := num / den
  let r := num % den
  if den < 2 * r ∨ (2 * r = den ∧ q % 2 = 1) then q + 1 else q

theorem roundDiv_pos {num den : Nat} (hd : 0 < den) (h : den ≤ num) : 0 < roundDiv num den := by
  have hq : 1 ≤ num / den := (Nat.le_div_iff_mul_le hd).2 (by omega)
  unfold roundDiv
  simp only
  split <;> omega

/-- The exponent of the leading decimal digit of a positive quotient. -/
def decimalExponent (num den : Nat) : Int :=
  let guess : Int := Int.ofNat (Nat.toDigits 10 num).length - Int.ofNat (Nat.toDigits 10 den).length
  if den * Nat.pow 10 guess.toNat ≤ num * Nat.pow 10 (-guess).toNat then guess else guess - 1

/-- A finite value is `mantissa * 2 ^ exponent` with its sign. -/
inductive Binary64 where
  | nan
  | infinite (negative : Bool)
  | finite (negative : Bool) (mantissa : Nat) (exponent : Int)
  deriving DecidableEq, Repr, Inhabited

namespace Binary64

def leastExponent : Int := -1074

def greatestExponent : Int := 971

def zero (negative : Bool) : Binary64 := .finite negative 0 leastExponent

/-- The quotient, with a sign, as the nearest double; `den` is positive. -/
def nearest (negative : Bool) (num den : Nat) : Binary64 :=
  if num = 0 then zero negative
  else
    let start : Int := Int.ofNat num.log2 - Int.ofNat den.log2 - 53
    let scaled (e : Int) : Nat × Nat := (num * Nat.pow 2 (-e).toNat, den * Nat.pow 2 e.toNat)
    let whole := (scaled start).1 / (scaled start).2
    let e := max leastExponent (if whole < Nat.pow 2 53 then start else start + 1)
    let m := roundDiv (scaled e).1 (scaled e).2
    let (m, e) := if m = Nat.pow 2 53 then (Nat.pow 2 52, e + 1) else (m, e)
    if greatestExponent < e then .infinite negative else .finite negative m e

/-- The double nearest to `digits * 10 ^ power`. The two bounds lie outside every double's range. -/
def ofDecimal (negative : Bool) (digits : Nat) (power : Int) : Binary64 :=
  let size : Int := Int.ofNat (Nat.toDigits 10 digits).length + power
  if digits = 0 ∨ size < -400 then zero negative
  else if 400 < size then .infinite negative
  else nearest negative (digits * Nat.pow 10 power.toNat) (Nat.pow 10 (-power).toNat)

/-- Nothing when the number is too large. -/
def ofInt? (i : Int) : Option Binary64 :=
  match nearest (i < 0) i.natAbs 1 with
  | .infinite _ => none
  | x => some x

/-- Nothing when the quotient is too large. -/
def ofQuotient? (num : Int) (den : Nat) : Option Binary64 :=
  match nearest (num < 0) num.natAbs den with
  | .infinite _ => none
  | x => some x

/-- A finite magnitude as a quotient. -/
def quotient (mantissa : Nat) (exponent : Int) : Nat × Nat :=
  (mantissa * Nat.pow 2 exponent.toNat, Nat.pow 2 (-exponent).toNat)

/-- At most zero. What is not a number is not. -/
def nonpositive : Binary64 → Bool
  | .nan => false
  | .infinite negative => negative
  | .finite negative m _ => negative || m == 0

def isNaN : Binary64 → Bool
  | .nan => true
  | _ => false

/-- The whole number that a finite value is, if it is one. -/
def toInt? : Binary64 → Option Int
  | .finite negative m e =>
    let (num, den) := quotient m e
    if num % den = 0 then some (if negative then -Int.ofNat (num / den) else Int.ofNat (num / den))
    else none
  | _ => none

def isFinite : Binary64 → Bool
  | .finite .. => true
  | _ => false

/-- Whether so many times the value come up to a limit. -/
def reaches (limit times : Nat) : Binary64 → Bool
  | .nan => false
  | .infinite negative => !negative
  | .finite negative m e =>
    let (num, den) := quotient m e
    !negative && decide (limit * den ≤ num * times)

/-- Rounded to a number of decimal places, in the exact value and then as a double. -/
def roundPlaces (places : Nat) : Binary64 → Binary64
  | .finite negative m e =>
    let (num, den) := quotient m e
    ofDecimal negative (roundDiv (num * Nat.pow 10 places) den) (-Int.ofNat places)
  | x => x

example : ofDecimal false 5 (-1) = .finite false (2 ^ 52) (-53) := by decide
example : ofDecimal false 1 400 = .infinite false := by decide

end Binary64

end RuleNetwork.Number
