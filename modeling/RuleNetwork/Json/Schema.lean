import RuleNetwork.Json.Value
import RuleNetwork.Text.CodeRanges

/-!
Reading typed records from JSON values. Fields are read in order and the first misfit wins; it is
named by its path. Whole numbers and booleans are read leniently: a whole number may be written as
text, as a float without a fraction or as a boolean, and a boolean as 0, 1 or one of the usual words.
-/

set_option autoImplicit false

namespace RuleNetwork.Json

inductive Misfit where
  | missing
  | notObject
  | notArray
  | notString
  | notInteger
  | fractional
  | notIntegerText
  | notFinite
  | tooLarge
  | notBoolean
  | unclearBoolean
  | notOneOf (names : List String)
  deriving DecidableEq, Repr

/-- Names in quotes, the last one after an `or`. -/
def alternativesText : List String → String
  | [] => ""
  | [a] => s!"'{a}'"
  | [a, b] => s!"'{a}' or '{b}'"
  | a :: r => s!"'{a}', " ++ alternativesText r

def Misfit.message : Misfit → String
  | .missing => "Field required"
  | .notObject => "Input should be an object"
  | .notArray => "Input should be a valid array"
  | .notString => "Input should be a valid string"
  | .notInteger => "Input should be a valid integer"
  | .fractional => "Input should be a valid integer, got a number with a fractional part"
  | .notIntegerText => "Input should be a valid integer, unable to parse string as an integer"
  | .notFinite => "Input should be a finite number"
  | .tooLarge => "Unable to parse input string as an integer, exceeded maximum size"
  | .notBoolean => "Input should be a valid boolean"
  | .unclearBoolean => "Input should be a valid boolean, unable to interpret input"
  | .notOneOf names => s!"Input should be {alternativesText names}"

structure Mismatch where
  path : List String
  misfit : Misfit
  deriving DecidableEq, Repr

abbrev Fit (α : Type) := Except Mismatch α

def refuse {α : Type} (m : Misfit) : Fit α := .error ⟨[], m⟩

def under {α : Type} (step : String) : Fit α → Fit α
  | .ok a => .ok a
  | .error m => .error { m with path := step :: m.path }

def asObject : Json → Fit (List (String × Json))
  | .obj fields => .ok fields
  | _ => refuse .notObject

def lookup (fields : List (String × Json)) (key : String) : Option Json := (Json.obj fields).field? key

def required {α : Type} (fields : List (String × Json)) (key : String) (read : Json → Fit α) : Fit α :=
  under key (match lookup fields key with
    | some v => read v
    | none => refuse .missing)

def absentOr {α : Type} (fields : List (String × Json)) (key : String) (absent : α)
    (read : Json → Fit α) : Fit α :=
  match lookup fields key with
  | some v => under key (read v)
  | none => .ok absent

def nullable {α : Type} (read : Json → Fit α) : Json → Fit (Option α)
  | .null => .ok none
  | v => (read v).map some

def itemsFrom {α : Type} (read : Json → Fit α) : Nat → List Json → Fit (List α)
  | _, [] => .ok []
  | i, v :: r => do
    let a ← under (toString i) (read v)
    let rest ← itemsFrom read (i + 1) r
    .ok (a :: rest)

def asList {α : Type} (read : Json → Fit α) : Json → Fit (List α)
  | .arr items => itemsFrom read 0 items
  | _ => refuse .notArray

def asString : Json → Fit String
  | .str s => .ok s
  | _ => refuse .notString

def asOneOf {α : Type} (name : α → String) (all : List α) : Json → Fit α
  | .str s =>
    match all.find? fun a => name a == s with
    | some a => .ok a
    | none => refuse (.notOneOf (all.map name))
  | _ => refuse (.notOneOf (all.map name))

/-- The white space that may surround a number: blanks other than the information separators. -/
def isMargin (c : Char) : Bool := Text.isBlank c && !(28 ≤ c.toNat && c.toNat ≤ 31)

def trimMargin (s : List Char) : List Char :=
  ((s.dropWhile isMargin).reverse.dropWhile isMargin).reverse

def isAsciiDigit (c : Char) : Bool := '0' ≤ c && c ≤ '9'

def digitsOf (s : List Char) : Nat := s.foldl (fun n c => n * 10 + (c.toNat - 48)) 0

/-- A whole number without needless zeros, after its sign. -/
def plainNat? : List Char → Option Nat
  | ['0'] => some 0
  | c :: r => if '1' ≤ c ∧ (c :: r).all isAsciiDigit then some (digitsOf (c :: r)) else none
  | [] => none

def plainInt? : List Char → Option Int
  | '-' :: r => (plainNat? r).map fun n => -Int.ofNat n
  | s => (plainNat? s).map Int.ofNat

/-- Drops zeros and low lines before the first other digit; one zero stays before a point and at the
end. -/
def dropLeadingZeros (last : Char) : List Char → Option (List Char)
  | [] => some [last]
  | c :: r =>
    if c = '0' ∨ c = '_' then dropLeadingZeros c r
    else if isAsciiDigit c then some (c :: r)
    else if c = '.' then some (last :: c :: r)
    else none

def trimZeros : List Char → Option (List Char)
  | [] => none
  | '0' :: r => dropLeadingZeros '0' r
  | c :: r => if isAsciiDigit c || c == '-' then some (c :: r) else none

/-- Drops a fraction of zeros. -/
def dropZeroFraction (s : List Char) : List Char :=
  match s.dropWhile (· != '.') with
  | _ :: fraction => if fraction.all (· == '0') then s.takeWhile (· != '.') else s
  | [] => s

def hasDouble : List Char → Bool
  | '_' :: '_' :: _ => true
  | _ :: r => hasDouble r
  | [] => false

/-- Drops low lines, if each stands alone inside the text. -/
def dropLowLines (s : List Char) : List Char :=
  if s.head? == some '_' || s.getLast? == some '_' || hasDouble s then s else s.filter (· != '_')

/-- A whole number as text, with an optional sign, zeros in front, single low lines between digits
and a fraction of zeros. -/
def lenientInt? (s : List Char) : Option Int :=
  match plainInt? s with
  | some i => some i
  | none => do
    let unsigned ← match s with
      | '+' :: '-' :: _ => none
      | '+' :: r => some r
      | r => some r
    let t ← trimZeros unsigned
    plainInt? (dropLowLines (dropZeroFraction t))

def integerOfText (s : String) : Fit Int :=
  let t := trimMargin s.toList
  if 4300 < t.length then refuse .tooLarge
  else
    match lenientInt? t with
    | some i => .ok i
    | none => refuse .notIntegerText

/-- What a word of 64 bits holds lies below it. -/
def wordLimit : Int := Int.ofNat (Nat.pow 2 63)

def integerOfReal (x : Number.Binary64) : Fit Int :=
  if !x.isFinite then refuse .notFinite
  else
    match x.toInt? with
    | none => refuse .fractional
    | some i => if -wordLimit < i ∧ i < wordLimit then .ok i else refuse .tooLarge

def asInt : Json → Fit Int
  | .int i => .ok i
  | .bool b => .ok (if b then 1 else 0)
  | .real x => integerOfReal x
  | .str s => integerOfText s
  | _ => refuse .notInteger

def falseWords : List String := ["0", "off", "f", "false", "n", "no"]

def trueWords : List String := ["1", "on", "t", "true", "y", "yes"]

def booleanOfInt (i : Int) : Fit Bool :=
  if i = 0 then .ok false else if i = 1 then .ok true else refuse .unclearBoolean

def asBool : Json → Fit Bool
  | .bool b => .ok b
  | .int i =>
    if -wordLimit ≤ i ∧ i < wordLimit then booleanOfInt i else refuse .notBoolean
  | .real x =>
    match integerOfReal x with
    | .ok i => booleanOfInt i
    | .error _ => refuse .notBoolean
  | .str s =>
    let word := String.ofList (s.toList.map Char.toLower)
    if falseWords.contains word then .ok false
    else if trueWords.contains word then .ok true
    else refuse .unclearBoolean
  | _ => refuse .notBoolean

end RuleNetwork.Json
