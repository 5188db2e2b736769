/-!
Characters that a terminal obeys and does not show.
-/

set_option autoImplicit false

namespace RuleNetwork.Text

def isSilent (c : Char) : Bool := c == '\x07' || c == '\x08' || c == '\x0b' || c == '\x0c' || c == '\r'

def isParameter (c : Char) : Bool := c == ';' || c == '?' || c.isDigit

/-- What follows a command that sets colours and the like, if one starts here. -/
def afterCommand? : List Char → Option (List Char)
  | '\x1b' :: '[' :: r =>
    match r.dropWhile isParameter with
    | c :: rest => if c.isAlpha then some rest else none
    | [] => none
  | _ => none

theorem length_of_afterCommand? {s r : List Char} (h : afterCommand? s = some r) : r.length < s.length := by
  unfold afterCommand? at h
  split at h
  · rename_i t
    have hle := (List.dropWhile_sublist isParameter (l := t)).length_le
    split at h
    · rename_i c rest he
      rw [he] at hle
      split at h
      · cases h
        simp only [List.length_cons] at hle ⊢
        omega
      · cases h
    · cases h
  · cases h

/-- A text without such commands. -/
def withoutCommands (s : List Char) : List Char :=
  match h : afterCommand? s with
  | some r =>
    have := length_of_afterCommand? h
    withoutCommands r
  | none =>
    match s with
    | [] => []
    | c :: r => c :: withoutCommands r
termination_by s.length

end RuleNetwork.Text
