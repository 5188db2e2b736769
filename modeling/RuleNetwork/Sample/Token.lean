import RuleNetwork.Grammar.Basic

/-!
A sample cut into tokens. Every stream is closed by the token that stands for the end of input, so a
position past the end is read as that token.
-/

set_option autoImplicit false

namespace RuleNetwork

/-- A spot in a text. Lines count from 1, columns from 0. -/
structure Spot where
  offset : Nat := 0
  line : Nat := 1
  column : Nat := 0
  deriving DecidableEq, Repr, Inhabited

namespace Spot

/-- The spot after one more character. -/
def step (s : Spot) (c : Char) : Spot :=
  if c = '\n' then ⟨s.offset + 1, s.line + 1, 0⟩ else ⟨s.offset + 1, s.line, s.column + 1⟩

def after (s : Spot) (text : List Char) : Spot := text.foldl step s

@[simp] theorem after_nil (s : Spot) : s.after [] = s := rfl

@[simp] theorem after_cons (s : Spot) (c : Char) (r : List Char) :
    s.after (c :: r) = (s.step c).after r := rfl

theorem after_append (s : Spot) (a b : List Char) : s.after (a ++ b) = (s.after a).after b :=
  List.foldl_append

theorem offset_after (s : Spot) (text : List Char) : (s.after text).offset = s.offset + text.length := by
  induction text generalizing s with
  | nil => rfl
  | cons c r ih =>
    rw [after_cons, ih, step]
    split <;> simp only [List.length_cons] <;> omega

theorem line_after (s : Spot) (text : List Char) :
    (s.after text).line = s.line + text.count '\n' := by
  induction text generalizing s with
  | nil => rfl
  | cons c r ih =>
    rw [after_cons, ih, List.count_cons, step]
    split
    · rename_i h
      simp only [h, beq_self_eq_true, if_true]
      omega
    · rename_i h
      have : (c == '\n') = false := beq_eq_false_iff_ne.2 h
      simp [this]

end Spot

/-- `stop` is the offset right after the token. -/
structure Token where
  type : String
  text : String
  index : Nat
  start : Nat
  stop : Nat
  line : Nat
  column : Nat
  deriving DecidableEq, Repr, Inhabited

def Token.isEnd (t : Token) : Bool := t.type == endOfInput

structure TokenStream where
  source : Array Char
  /-- The tokens before the end of input. -/
  body : Array Token
  finish : Token
  deriving Repr, Inhabited

namespace TokenStream

def size (s : TokenStream) : Nat := s.body.size

def tokens (s : TokenStream) : Array Token := s.body.push s.finish

def types (s : TokenStream) : List String := s.tokens.toList.map Token.type

/-- The token at a position; one past the end is the end of input, one before the start the first. -/
def tokenAt (s : TokenStream) (i : Int) : Token := (s.body[i.toNat]?).getD s.finish

def item (s : TokenStream) (i : Int) : Except Fault Token :=
  match Position.get? s.tokens i with
  | some t => .ok t
  | none => .error .tuplePosition

/-- The text from the start of one token to the end of another. -/
def textBetween (s : TokenStream) (start stop : Int) : String :=
  if stop < start then ""
  else String.ofList (s.source.extract (s.tokenAt start).start (s.tokenAt stop).stop).toList

end TokenStream

end RuleNetwork
