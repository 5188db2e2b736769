import RuleNetwork.Pattern.Matching
import RuleNetwork.Pattern.Reader
import RuleNetwork.Sample.Token

/-!
Cutting sample text into tokens. At each spot the longest match is taken; of several the one of a
literal token, and then the one declared first. A match of nothing is no match, so the scan moves on
at every step.

The engine that compiles the patterns of tokens is a parameter. Nothing is known of it but that a match
ends between its start and the end of the text.
-/

set_option autoImplicit false

namespace RuleNetwork

/-- A pattern ready to be looked for. -/
structure CompiledPattern where
  /-- Where a match that starts at an offset ends. -/
  matchEnd? : Array Char → Nat → Option Nat
  bounds : ∀ {text : Array Char} {i n : Nat}, i ≤ text.size → matchEnd? text i = some n →
    i ≤ n ∧ n ≤ text.size

def CompiledPattern.ofPattern (p : Pattern) : CompiledPattern := ⟨p.matchEnd?, Pattern.matchEnd?_bounds⟩

/-- Why a pattern is not compiled. -/
inductive PatternFault where
  | flawed (reason : String)
  | hugeCount
  | longNumeral (digits : Nat)
  /-- The engine gives up for a reason of its own. -/
  | givenUp (message : String)
  deriving DecidableEq, Repr

def PatternFault.fault (t : TokenType) : PatternFault → Fault
  | .flawed reason => .grammar (.badPattern t.name t.pattern reason)
  | .hugeCount => .hugeCount
  | .longNumeral digits => .longNumeral digits
  | .givenUp message => .foreign message

/-- What compiles the patterns of tokens. -/
abbrev PatternEngine := String → Except PatternFault CompiledPattern

namespace PatternEngine

/-- The engine at hand. It knows only part of the syntax of patterns, and refuses the rest. -/
def builtIn : PatternEngine := fun text =>
  let source := text.toList
  match Pattern.parse source with
  | .ok p => .ok (.ofPattern p)
  | .error (.flawed f) => .error (.flawed (f.message source))
  | .error .hugeCount => .error .hugeCount
  | .error (.longNumeral digits) => .error (.longNumeral digits)

end PatternEngine

/-- A token type with the pattern that is looked for. -/
structure Matcher extends CompiledPattern where
  token : TokenType

namespace Matcher

/-- The text of a literal token stands for itself and needs no engine. -/
def ofToken (patterns : PatternEngine) (t : TokenType) : Except Fault Matcher :=
  if t.isLiteral then .ok ⟨.ofPattern (.ofText t.pattern), t⟩
  else
    match patterns t.pattern with
    | .ok c => .ok ⟨c, t⟩
    | .error e => .error (e.fault t)

/-- The end of a match of at least one character. -/
def end? (m : Matcher) (text : Array Char) (i : Nat) : Option Nat :=
  (m.matchEnd? text i).filter (i < ·)

theorem end?_bounds {m : Matcher} {text : Array Char} {i n : Nat} (hi : i ≤ text.size)
    (h : m.end? text i = some n) : i < n ∧ n ≤ text.size := by
  obtain ⟨hm, hlt⟩ := Option.filter_eq_some_iff.1 h
  exact ⟨of_decide_eq_true hlt, (m.bounds hi hm).2⟩

end Matcher

/-- A token type and where its match ends. -/
structure Match where
  token : TokenType
  stop : Nat
  deriving DecidableEq, Repr, Inhabited

namespace Match

/-- Whether a match declared later replaces this one. -/
def yieldsTo (a b : Match) : Bool :=
  a.stop < b.stop || (a.stop == b.stop && !a.token.isLiteral && b.token.isLiteral)

def best? : Option Match → Match → Option Match
  | none, b => some b
  | some a, b => some (if a.yieldsTo b then b else a)

end Match

structure Lexer where
  matchers : List Matcher
  deriving Inhabited

namespace Lexer

def ofGrammar (patterns : PatternEngine) (g : Grammar) : Except Fault Lexer := do
  .ok ⟨← g.tokens.mapM (Matcher.ofToken patterns)⟩

def candidates (l : Lexer) (text : Array Char) (i : Nat) : List Match :=
  l.matchers.filterMap fun m => (m.end? text i).map fun n => ⟨m.token, n⟩

def longest? (l : Lexer) (text : Array Char) (i : Nat) : Option Match :=
  (l.candidates text i).foldl Match.best? none

theorem foldl_best?_mem (c : List Match) (start : Option Match) {m : Match}
    (h : c.foldl Match.best? start = some m) : start = some m ∨ m ∈ c := by
  induction c generalizing start with
  | nil => exact .inl h
  | cons a r ih =>
    rcases ih _ h with h | h
    · cases start with
      | none => exact .inr (by cases h; exact List.mem_cons_self)
      | some s =>
        simp only [Match.best?, Option.some.injEq] at h
        split at h
        · exact .inr (h ▸ List.mem_cons_self)
        · exact .inl (h ▸ rfl)
    · exact .inr (List.mem_cons_of_mem _ h)

theorem longest?_bounds {l : Lexer} {text : Array Char} {i : Nat} {m : Match} (hi : i ≤ text.size)
    (h : l.longest? text i = some m) : i < m.stop ∧ m.stop ≤ text.size := by
  rcases foldl_best?_mem _ _ h with h | h
  · cases h
  · obtain ⟨a, -, ha⟩ := List.mem_filterMap.1 h
    obtain ⟨n, hn, rfl⟩ := Option.map_eq_some_iff.1 ha
    exact Matcher.end?_bounds hi hn

/-- How many characters of a text that cannot be cut are shown. -/
def excerptLength : Nat := 10

def noMatch (text : Array Char) (spot : Spot) (sample : Option Int) : Fault :=
  .noToken (String.ofList (text.extract spot.offset (spot.offset + excerptLength)).toList)
    { sample := sample, line := some spot.line, column := some spot.column }

def finish (text : Array Char) (spot : Spot) (body : Array Token) : TokenStream :=
  ⟨text, body, ⟨endOfInput, "<EOF>", body.size, text.size, text.size, spot.line, spot.column⟩⟩

/-- Scans from a spot on, after the tokens found so far. -/
def scan (l : Lexer) (text : Array Char) (sample : Option Int) (spot : Spot) (body : Array Token) :
    Except Fault TokenStream :=
  if _hi : spot.offset < text.size then
    match _hm : l.longest? text spot.offset with
    | none => .error (noMatch text spot sample)
    | some m =>
      let piece := (text.extract spot.offset m.stop).toList
      let token : Token :=
        ⟨m.token.name, String.ofList piece, body.size, spot.offset, m.stop, spot.line, spot.column⟩
      scan l text sample (spot.after piece) (if m.token.skip then body else body.push token)
  else .ok (finish text spot body)
termination_by text.size - spot.offset
decreasing_by
  have hb := longest?_bounds (Nat.le_of_lt _hi) _hm
  rw [Spot.offset_after, Array.length_toList, Array.size_extract]
  omega

def tokenize (l : Lexer) (source : String) (sample : Option Int) : Except Fault TokenStream :=
  l.scan source.toList.toArray sample {} #[]

end Lexer

end RuleNetwork
