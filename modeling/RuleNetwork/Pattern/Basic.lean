import RuleNetwork.Text.CodeRanges
import RuleNetwork.Text.WordChar

/-!
Token patterns. A pattern describes how to go on from a position in a text; which of several ways is
tried first is part of its meaning, so choice and repetition are ordered.
-/

set_option autoImplicit false

namespace RuleNetwork

inductive CharClass where
  | digit
  | word
  | blank
  deriving DecidableEq, Repr, Inhabited

def CharClass.contains : CharClass → Char → Bool
  | .digit, c => Text.isDecimalDigit c
  | .word, c => Text.isWordChar c
  | .blank, c => Text.isBlank c

/-- One entry of a bracketed set. Codes may lie outside of what a text can hold. -/
inductive SetItem where
  | range (first last : Nat)
  | inside (c : CharClass)
  | outside (c : CharClass)
  deriving DecidableEq, Repr, Inhabited

namespace SetItem

def code (n : Nat) : SetItem := .range n n

def contains : SetItem → Char → Bool
  | .range first last, c => first ≤ c.toNat && c.toNat ≤ last
  | .inside k, c => k.contains c
  | .outside k, c => !k.contains c

end SetItem

/-- Conditions on a position. -/
inductive Anchor where
  | textStart
  | textEnd
  /-- The end, or right before a newline that ends the text. -/
  | lastLineEnd
  | wordEdge
  | noWordEdge
  deriving DecidableEq, Repr, Inhabited

inductive Appetite where
  | greedy
  | lazy
  /-- Takes as much as it can and gives nothing back. -/
  | possessive
  deriving DecidableEq, Repr, Inhabited

inductive Pattern where
  | empty
  | any
  | oneOf (negated : Bool) (items : List SetItem)
  | anchor (a : Anchor)
  | seq (first second : Pattern)
  | alt (first second : Pattern)
  | ahead (expected : Bool) (body : Pattern)
  | atomic (body : Pattern)
  | loop (body : Pattern) (least : Nat) (most : Option Nat) (appetite : Appetite)
  deriving Repr, Inhabited

namespace Pattern

def code (n : Nat) : Pattern := .oneOf false [.code n]

def sequence (l : List Pattern) : Pattern := l.foldr .seq .empty

/-- Matches exactly this text. -/
def ofText (s : String) : Pattern := sequence (s.toList.map fun c => .code c.toNat)

def alternatives : Pattern → List Pattern → Pattern
  | p, [] => p
  | p, q :: r => .alt p (alternatives q r)

end Pattern

end RuleNetwork
