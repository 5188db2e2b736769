import RuleNetwork.Text.Hex
import RuleNetwork.Text.Printable

/-!
Text quoted for messages: in single quotes, or in double quotes when it holds a single quote and no
double one. The backslash, the quote in use, tab and the two line ends have short escapes; all else
that is not printable is written by its code point.
-/

set_option autoImplicit false

namespace RuleNetwork.Text.Quoted

def mark (s : List Char) : Char :=
  if '\'' ∈ s ∧ '"' ∉ s then '"' else '\''

def escape (quote c : Char) : List Char :=
  if c = quote ∨ c = '\\' then ['\\', c]
  else if c = '\n' then ['\\', 'n']
  else if c = '\r' then ['\\', 'r']
  else if c = '\t' then ['\\', 't']
  else if isPrintable c then [c]
  else if c.toNat < 0x100 then '\\' :: 'x' :: hexDigits 2 c.toNat
  else if c.toNat < 0x10000 then '\\' :: 'u' :: hexDigits 4 c.toNat
  else '\\' :: 'U' :: hexDigits 8 c.toNat

def encode (s : List Char) : List Char :=
  mark s :: s.flatMap (escape (mark s)) ++ [mark s]

end RuleNetwork.Text.Quoted

namespace RuleNetwork.Text

def quoted (s : String) : String := String.ofList (Quoted.encode s.toList)

example : quoted "it's" = "\"it's\"" ∧ quoted "a\n" = "'a\\n'" := by decide

end RuleNetwork.Text
