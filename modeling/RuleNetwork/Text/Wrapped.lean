import RuleNetwork.Text.CodeRanges
import RuleNetwork.Text.ColumnWidth

/-!
Text broken into lines that fit a width. A line is broken between words; a word that fits on no line is
cut into pieces if it may be, and is else left whole.
-/

set_option autoImplicit false

namespace RuleNetwork.Text

def trimRight (s : List Char) : List Char := (s.reverse.dropWhile isBlank).reverse

/-- Words with the blanks after them; the first has those before it too. -/
def words : List Char → List (List Char)
  | [] => []
  | c :: r =>
    match words r with
    | [] => [[c]]
    | w :: ws =>
      if isBlank c && !(w.head?.any isBlank) then [c] :: w :: ws else (c :: w) :: ws

theorem flatten_words (s : List Char) : (words s).flatten = s := by
  induction s with
  | nil => rfl
  | cons c r ih =>
    rw [words]
    split
    · rename_i h
      rw [h] at ih
      simp [← ih]
    · rename_i h
      rw [h] at ih
      split <;> simp [← ih]

/-- Joins a start that holds nothing but blanks to the first word, and drops a text that does. -/
def joinStart : List (List Char) → List (List Char)
  | w :: v :: ws => if w.all isBlank then (w ++ v) :: ws else w :: v :: ws
  | [w] => if w.all isBlank then [] else [w]
  | [] => []

/-- The pieces of a word that fit a width, the first one given reversed with its columns. -/
def pieces (width : Nat) (piece : List Char) (taken : Nat) : List Char → List (List Char)
  | [] => [piece.reverse]
  | c :: r =>
    if width < taken + charColumns c then piece.reverse :: pieces width [c] (charColumns c) r
    else pieces width (c :: piece) (taken + charColumns c) r

structure Wrapping where
  done : List (List Char) := []
  line : List Char := []

namespace Wrapping

def flush (w : Wrapping) : Wrapping := if w.line.isEmpty then w else ⟨w.done ++ [w.line], []⟩

def place (width : Nat) (fold : Bool) (w : Wrapping) (word : List Char) : Wrapping :=
  let size := columns (trimRight word)
  if columns w.line + size ≤ width then { w with line := w.line ++ word }
  else if width < size && fold then
    let cut := pieces width [] 0 word
    ⟨w.flush.done ++ cut.dropLast, (cut.getLast?).getD []⟩
  else { w.flush with line := word }

end Wrapping

/-- Blanks at the end of a line that is too long do not count. -/
def cropBlanks (width : Nat) (line : List Char) : List Char :=
  let excess := line.length - width
  let blanks := line.length - (trimRight line).length
  line.take (line.length - min excess blanks)

def wrapLine (width : Nat) (fold : Bool) (s : List Char) : List (List Char) :=
  match joinStart (words s) with
  | [] => [cropBlanks width s]
  | ws =>
    let w := ws.foldl (Wrapping.place width fold) {}
    (w.done ++ [w.line]).map (cropBlanks width)

/-- The start of a text that fits a width. -/
def fitting (width : Nat) : List Char → List Char
  | [] => []
  | c :: r => if charColumns c ≤ width then c :: fitting (width - charColumns c) r else []

def padded (width : Nat) (s : List Char) : List Char := s ++ List.replicate (width - columns s) ' '

/-- A text cut to a width, which an ellipsis tells. -/
def elided (width : Nat) (s : List Char) : List Char :=
  if columns s ≤ width then s else padded (width - 1) (fitting (width - 1) s) ++ ['…']

end RuleNetwork.Text
