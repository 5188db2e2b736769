import RuleNetwork.Number.Decimal
import RuleNetwork.Text.Hex

/-!
JSON values and their two written forms, the compact one and the one indented by two spaces. Fields
keep the order in which they were written.
-/

set_option autoImplicit false

namespace RuleNetwork

inductive Json where
  | null
  | bool (b : Bool)
  | int (i : Int)
  | real (x : Number.Binary64)
  | str (s : String)
  | arr (items : List Json)
  | obj (fields : List (String × Json))
  deriving Inhabited, BEq

namespace Json

/-- The value of a field; of several fields with one key, the last. -/
def field? (key : String) : Json → Option Json
  | .obj fields => (fields.reverse.find? fun e => e.1 == key).map Prod.snd
  | _ => none

def ofOption {α : Type} (f : α → Json) : Option α → Json
  | none => .null
  | some a => f a

def ofList {α : Type} (f : α → Json) (l : List α) : Json := .arr (l.map f)

def ofStrings (l : List String) : Json := ofList .str l

def ofNat (n : Nat) : Json := .int (Int.ofNat n)

def intText : Int → List Char
  | .ofNat n => Nat.toDigits 10 n
  | .negSucc n => '-' :: Nat.toDigits 10 (n + 1)

/-- Only the quote, the backslash and the controls below U+0020 are escaped. -/
def escape (c : Char) : List Char :=
  if c = '"' then ['\\', '"']
  else if c = '\\' then ['\\', '\\']
  else if c = '\x08' then ['\\', 'b']
  else if c = '\t' then ['\\', 't']
  else if c = '\n' then ['\\', 'n']
  else if c = '\x0c' then ['\\', 'f']
  else if c = '\r' then ['\\', 'r']
  else if c.toNat < 0x20 then '\\' :: 'u' :: Text.hexDigits 4 c.toNat
  else [c]

def quote (s : String) : List Char := '"' :: s.toList.flatMap escape ++ ['"']

/-- What is not a finite number has no number to stand for it. -/
def realText : Number.Binary64 → List Char
  | .finite negative m e => (Number.Binary64.finite negative m e).toReport.toList
  | _ => "null".toList

mutual

def wire : Json → List Char
  | .null => "null".toList
  | .bool true => "true".toList
  | .bool false => "false".toList
  | .int i => intText i
  | .real x => realText x
  | .str s => quote s
  | .arr [] => ['[', ']']
  | .arr (v :: r) => '[' :: (v.wire ++ wireItems r)
  | .obj [] => ['\x7b', '\x7d']
  | .obj ((k, v) :: r) => '\x7b' :: (quote k ++ ':' :: (v.wire ++ wireFields r))

def wireItems : List Json → List Char
  | [] => [']']
  | v :: r => ',' :: (v.wire ++ wireItems r)

def wireFields : List (String × Json) → List Char
  | [] => ['\x7d']
  | (k, v) :: r => ',' :: (quote k ++ ':' :: (v.wire ++ wireFields r))

end

def newline (depth : Nat) : List Char := '\n' :: List.replicate (2 * depth) ' '

mutual

def pretty (depth : Nat) : Json → List Char
  | .null => "null".toList
  | .bool true => "true".toList
  | .bool false => "false".toList
  | .int i => intText i
  | .real x => realText x
  | .str s => quote s
  | .arr [] => ['[', ']']
  | .arr (v :: r) => '[' :: (newline (depth + 1) ++ (v.pretty (depth + 1) ++ prettyItems depth r))
  | .obj [] => ['\x7b', '\x7d']
  | .obj ((k, v) :: r) =>
    '\x7b' :: (newline (depth + 1) ++ (quote k ++ ':' :: ' ' ::
      (v.pretty (depth + 1) ++ prettyFields depth r)))

def prettyItems (depth : Nat) : List Json → List Char
  | [] => newline depth ++ [']']
  | v :: r => ',' :: (newline (depth + 1) ++ (v.pretty (depth + 1) ++ prettyItems depth r))

def prettyFields (depth : Nat) : List (String × Json) → List Char
  | [] => newline depth ++ ['\x7d']
  | (k, v) :: r =>
    ',' :: (newline (depth + 1) ++ (quote k ++ ':' :: ' ' ::
      (v.pretty (depth + 1) ++ prettyFields depth r)))

end

def compact (v : Json) : String := String.ofList v.wire

def indented (v : Json) : String := String.ofList (v.pretty 0)

end Json

end RuleNetwork
