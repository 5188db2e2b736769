import RuleNetwork.Text.Quoted

/-!
Why a text is no pattern. A flaw is reported with its position in the pattern, and with line and
column where the pattern has several lines.
-/

set_option autoImplicit false

namespace RuleNetwork.Pattern

inductive FlawKind where
  | endlessEscape
  | badEscape (escape : String)
  | incompleteEscape (escape : String)
  | largeOctal (escape : String)
  | noSuchGroup (number : Nat)
  | openSet
  | badRange (first last : String)
  | openGroup
  | openComment
  | strayClose
  | nothingToRepeat
  | repeatedRepeat
  | crossedBounds
  | endOfPattern
  | unknownExtension (text : String)
  | noName
  | openName
  | badName (name : String)
  | takenName (name : String) (group first : Nat)
  deriving DecidableEq, Repr

def FlawKind.message : FlawKind → String
  | .endlessEscape => "bad escape (end of pattern)"
  | .badEscape escape => s!"bad escape {escape}"
  | .incompleteEscape escape => s!"incomplete escape {escape}"
  | .largeOctal escape => s!"octal escape value {escape} outside of range 0-0o377"
  | .noSuchGroup number => s!"invalid group reference {number}"
  | .openSet => "unterminated character set"
  | .badRange first last => s!"bad character range {first}-{last}"
  | .openGroup => "missing ), unterminated subpattern"
  | .openComment => "missing ), unterminated comment"
  | .strayClose => "unbalanced parenthesis"
  | .nothingToRepeat => "nothing to repeat"
  | .repeatedRepeat => "multiple repeat"
  | .crossedBounds => "min repeat greater than max repeat"
  | .endOfPattern => "unexpected end of pattern"
  | .unknownExtension text => s!"unknown extension ?{text}"
  | .noName => "missing group name"
  | .openName => "missing >, unterminated name"
  | .badName name => s!"bad character in group name {Text.quoted name}"
  | .takenName name group first =>
    s!"redefinition of group name {Text.quoted name} as group {group}; was group {first}"

/-- The position is counted from the end of the pattern. -/
structure Flaw where
  kind : FlawKind
  toEnd : Nat
  deriving DecidableEq, Repr

def Flaw.message (source : List Char) (f : Flaw) : String :=
  let before := source.take (source.length - f.toEnd)
  let place := s!"{f.kind.message} at position {before.length}"
  if '\n' ∈ source then
    let line := before.count '\n' + 1
    let column := (before.reverse.takeWhile (· != '\n')).length + 1
    s!"{place} (line {line}, column {column})"
  else place

/-- Why a text was not read as a pattern. -/
inductive Refusal where
  | flawed (flaw : Flaw)
  /-- A repetition count beyond what can be counted. -/
  | hugeCount
  /-- A repetition count with too many digits to be read. -/
  | longNumeral (digits : Nat)
  deriving DecidableEq, Repr

end RuleNetwork.Pattern
