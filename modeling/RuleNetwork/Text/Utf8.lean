import RuleNetwork.Text.CodeRanges
import RuleNetwork.Text.Hex

/-!
Bytes read as UTF-8. A file's bytes become symbols, each a character or a byte that begins none, so
that a reader can say where a text stops being text; text files are read whole or refused.

Text cut into lines. A line ends at a carriage return, a line feed or the two together, or at one
of the other line separators of Unicode and ASCII.
-/

set_option autoImplicit false

namespace RuleNetwork.Text

abbrev Bytes := List UInt8

/-- A unit of a byte text. -/
inductive Symbol where
  | char (c : Char)
  | stray (byte : UInt8)
  deriving DecidableEq, Repr

def Symbol.size : Symbol → Nat
  | .char c => c.utf8Size
  | .stray _ => 1

namespace Utf8

/-- Why no character starts here. The count is of the bytes that were in order. -/
inductive Flaw where
  | badStart
  | badContinuation (valid : Nat)
  | truncated (valid : Nat)
  deriving DecidableEq, Repr

def Flaw.reason : Flaw → String
  | .badStart => "invalid start byte"
  | .badContinuation _ => "invalid continuation byte"
  | .truncated _ => "unexpected end of data"

def Flaw.length : Flaw → Nat
  | .badStart => 1
  | .badContinuation n | .truncated n => n

/-- What follows a lead byte: the number of further bytes and the bounds of the first of them. -/
def tailShape (lead : Nat) : Option (Nat × Nat × Nat) :=
  if 0xC2 ≤ lead ∧ lead ≤ 0xDF then some (1, 0x80, 0xBF)
  else if lead = 0xE0 then some (2, 0xA0, 0xBF)
  else if lead = 0xED then some (2, 0x80, 0x9F)
  else if 0xE1 ≤ lead ∧ lead ≤ 0xEF then some (2, 0x80, 0xBF)
  else if lead = 0xF0 then some (3, 0x90, 0xBF)
  else if 0xF1 ≤ lead ∧ lead ≤ 0xF3 then some (3, 0x80, 0xBF)
  else if lead = 0xF4 then some (3, 0x80, 0x8F)
  else none

def readTail (low high value taken : Nat) : Nat → Bytes → Except Flaw (Nat × Bytes)
  | 0, r => .ok (value, r)
  | _ + 1, [] => .error (.truncated taken)
  | n + 1, b :: r =>
    if low ≤ b.toNat ∧ b.toNat ≤ high then
      readTail 0x80 0xBF (value * 64 + b.toNat % 64) (taken + 1) n r
    else .error (.badContinuation taken)

def readChar (lead : UInt8) (r : Bytes) : Except Flaw (Char × Bytes) :=
  if lead.toNat < 0x80 then .ok (Char.ofNat lead.toNat, r)
  else
    match tailShape lead.toNat with
    | none => .error .badStart
    | some (count, low, high) => do
      let bits := lead.toNat % (if count = 1 then 32 else if count = 2 then 16 else 8)
      let (value, rest) ← readTail low high bits 1 count r
      .ok (Char.ofNat value, rest)

def symbolsFrom : Nat → Bytes → List Symbol
  | 0, _ => []
  | _, [] => []
  | fuel + 1, b :: r =>
    match readChar b r with
    | .ok (c, rest) => .char c :: symbolsFrom fuel rest
    | .error _ => .stray b :: symbolsFrom fuel r

def symbols (bytes : Bytes) : List Symbol := symbolsFrom bytes.length bytes

/-- The bytes refused, with the place where the flaw begins. -/
structure Refusal where
  position : Nat
  byte : UInt8
  flaw : Flaw
  deriving DecidableEq, Repr

def Refusal.message (e : Refusal) : String :=
  if e.flaw.length = 1 then
    s!"'utf-8' codec can't decode byte 0x{String.ofList (hexDigits 2 e.byte.toNat)} in position {e.position}: {e.flaw.reason}"
  else
    s!"'utf-8' codec can't decode bytes in position {e.position}-{e.position + e.flaw.length - 1}: {e.flaw.reason}"

def charsFrom (position : Nat) : Nat → Bytes → Except Refusal (List Char)
  | 0, _ => .ok []
  | _, [] => .ok []
  | fuel + 1, b :: r =>
    match readChar b r with
    | .ok (c, rest) => do
      let cs ← charsFrom (position + c.utf8Size) fuel rest
      .ok (c :: cs)
    | .error flaw => .error ⟨position, b, flaw⟩

/-- The characters that the bytes spell, if they spell any. -/
def decode (bytes : Bytes) : Except Refusal (List Char) := charsFrom 0 bytes.length bytes

def encode (s : String) : Bytes := s.toUTF8.toList

end Utf8

/-- Reads every carriage return, with or without a line feed after it, as one line feed. -/
def unifyNewlines : List Char → List Char
  | '\r' :: '\n' :: r => '\n' :: unifyNewlines r
  | '\r' :: r => '\n' :: unifyNewlines r
  | c :: r => c :: unifyNewlines r
  | [] => []

def isLineEnd (c : Char) : Bool :=
  c == '\n' || c == '\r' || c == '\x0b' || c == '\x0c' || c == '\x1c' || c == '\x1d' ||
    c == '\x1e' || c == '\x85' || c.toNat == 0x2028 || c.toNat == 0x2029

/-- The lines of a text without their ends; the first argument holds the reversed line begun so far. -/
def linesFrom : Option (List Char) → List Char → List (List Char)
  | none, [] => []
  | some line, [] => [line.reverse]
  | line, '\r' :: '\n' :: r => (line.getD []).reverse :: linesFrom none r
  | line, c :: r =>
    if isLineEnd c then (line.getD []).reverse :: linesFrom none r
    else linesFrom (some (c :: line.getD [])) r

def lines (s : List Char) : List (List Char) := linesFrom none s

def isBlankLine (s : List Char) : Bool := s.all isBlank

end RuleNetwork.Text
