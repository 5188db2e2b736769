import RuleNetwork.Number.Binary64
import RuleNetwork.Text.Terminal
import RuleNetwork.Text.Wrapped

/-!
Tables drawn with lines, the heading in a heavy frame. A column is as wide as its longest cell; if the
table is too wide for the terminal, its widest columns are narrowed first.
-/

set_option autoImplicit false

namespace RuleNetwork.CommandLine

structure Column where
  heading : String
  toRight : Bool := false

structure Table where
  title : String
  columns : List Column
  rows : List (List String)

namespace Table

def shown (s : String) : List Char := s.toList.filter fun c => !Text.isSilent c

def textLines (s : String) : List (List Char) := (shown s).splitOnP (· == '\n')

/-- The columns of the longest line, with a blank on either side. -/
def cellWidth (s : String) : Nat := ((textLines s).map Text.columns).foldl max 0 + 2

def cell (row : List String) (i : Nat) : String := (row[i]?).getD ""

def naturalWidths (t : Table) : List Nat :=
  t.columns.mapIdx fun i c =>
    (t.rows.map fun r => cellWidth (cell r i)).foldl max (cellWidth c.heading)

/-- Takes an excess off the widest columns, as evenly as it goes and no more than `most` off each. -/
def reduceWidest (widest most : Nat) : Nat → Nat → List Nat → List Nat
  | _, _, [] => []
  | excess, sharers, w :: ws =>
    if w = widest ∧ 0 < sharers then
      let share := min most (Number.roundDiv excess sharers)
      (w - share) :: reduceWidest widest most (excess - share) (sharers - 1) ws
    else w :: reduceWidest widest most excess sharers ws

def sum (widths : List Nat) : Nat := widths.foldr (· + ·) 0

/-- Narrows the widest columns to the next widest ones, until the sum is within the limit. -/
def narrow (limit : Nat) : Nat → List Nat → List Nat
  | 0, widths => widths
  | bound + 1, widths =>
    if sum widths ≤ limit then widths
    else
      let widest := widths.foldl max 0
      let second := (widths.filter (· != widest)).foldl max 0
      let excess := sum widths - limit
      let sharers := (widths.filter (· == widest)).length
      narrow limit bound (reduceWidest widest (min excess (widest - second)) excess sharers widths)

/-- Each round but the last leaves fewer different widths, or makes the excess smaller. -/
def widths (limit : Nat) (t : Table) : List Nat :=
  let natural := t.naturalWidths
  narrow (limit - (natural.length + 1)) (sum natural + 1) natural

def rule (left mid right line : Char) (widths : List Nat) : List Char :=
  left :: [mid].intercalate (widths.map fun w => List.replicate w line) ++ [right]

def alignRight (width : Nat) (s : List Char) : List Char :=
  let s := Text.trimRight s
  List.replicate (width - Text.columns s) ' ' ++ s

/-- The lines of a cell, each of the full width. -/
def cellLines (c : Column) (width : Nat) (s : String) : List (List Char) :=
  let inner := width - 2
  let lines := (textLines s).flatMap (Text.wrapLine inner false)
  lines.map fun l =>
    let l := Text.elided inner l
    ' ' :: (if c.toRight then alignRight inner l else Text.padded inner l) ++ [' ']

def rowLines (left mid right : Char) (t : Table) (widths : List Nat) (row : List String) :
    List (List Char) :=
  let cells := (t.columns.zip widths).mapIdx fun i (c, w) => (cellLines c w (cell row i), w)
  let height := (cells.map fun c => c.1.length).foldl max 0
  (List.range height).map fun k =>
    let parts := cells.map fun (lines, w) => (lines[k]?).getD (List.replicate w ' ')
    left :: [mid].intercalate parts ++ [right]

def centered (width : Nat) (s : List Char) : List Char :=
  let excess := width - Text.columns s
  List.replicate (excess / 2) ' ' ++ s ++ List.replicate (excess - excess / 2) ' '

def lines (limit : Nat) (t : Table) : List (List Char) :=
  let ws := t.widths limit
  let total := sum ws + ws.length + 1
  centered total (shown t.title) ::
    rule '┏' '┳' '┓' '━' ws ::
    rowLines '┃' '┃' '┃' t ws (t.columns.map Column.heading) ++
    rule '┡' '╇' '┩' '━' ws ::
    t.rows.flatMap (rowLines '│' '│' '│' t ws) ++
    [rule '└' '┴' '┘' '─' ws]

end Table

end RuleNetwork.CommandLine
