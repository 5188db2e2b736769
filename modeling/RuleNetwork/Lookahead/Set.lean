import RuleNetwork.Container.OrderedSet
import RuleNetwork.Grammar.Basic

/-!
Lookahead sets: the tokens that may come next. Besides tokens a set may hold the end of input and the
empty text, and a dynamic set stands for a choice that only a guard can make.
-/

set_option autoImplicit false

namespace RuleNetwork

structure LookaheadSet where
  tokens : List String := []
  epsilon : Bool := false
  eof : Bool := false
  dynamic : Bool := false
  deriving DecidableEq, Repr, Inhabited

namespace LookaheadSet

def sortedDistinct (names : List String) : List String :=
  (OrderedSet.ofList names).toList.mergeSort fun a b => decide (a ≤ b)

/-- The end of input may be named as a token. -/
def of (names : List String) (epsilon eof : Bool) : LookaheadSet where
  tokens := sortedDistinct (names.filter (· != endOfInput))
  epsilon := epsilon
  eof := eof || names.contains endOfInput

def ofTokens (names : List String) : LookaheadSet := of names false false

def makeDynamic : LookaheadSet := { dynamic := true }

def contains (s : LookaheadSet) (token : String) : Bool :=
  if token = endOfInput then s.eof else s.tokens.contains token

/-- The empty text does not count. -/
def size (s : LookaheadSet) : Nat := s.tokens.length + if s.eof then 1 else 0

def isEmpty (s : LookaheadSet) : Bool := s.tokens.isEmpty && !s.eof && !s.epsilon && !s.dynamic

def union (a b : LookaheadSet) : LookaheadSet :=
  if a.dynamic || b.dynamic then makeDynamic
  else of (a.tokens ++ b.tokens) (a.epsilon || b.epsilon) (a.eof || b.eof)

def withoutEpsilon (s : LookaheadSet) : LookaheadSet := { s with epsilon := false }

/-- The tokens of both sets; a dynamic set meets nothing. -/
def intersection (a b : LookaheadSet) : LookaheadSet :=
  if a.dynamic || b.dynamic then {}
  else of (a.tokens.filter b.tokens.contains) false (a.eof && b.eof)

def overlaps (a b : LookaheadSet) : Bool := 0 < (a.intersection b).size

def isSuperset (a b : LookaheadSet) : Bool :=
  if a.dynamic || b.dynamic then a.dynamic == b.dynamic
  else b.tokens.all a.tokens.contains && (a.eof || !b.eof)

def dynamicLabel : String := "<predicate>"

def epsilonLabel : String := "ε"

/-- Names for reports; what is no token comes last. -/
def display (s : LookaheadSet) : List String :=
  if s.dynamic then [dynamicLabel]
  else s.tokens ++ (if s.eof then [endOfInput] else []) ++ (if s.epsilon then [epsilonLabel] else [])

/-- The union of all intersections of one set with a later one. -/
def shared : List LookaheadSet → LookaheadSet → LookaheadSet
  | [], found => found
  | a :: rest, found => shared rest (rest.foldl (fun found b => found.union (a.intersection b)) found)

end LookaheadSet

end RuleNetwork
