import RuleNetwork.Fault
import RuleNetwork.Text.Uppercase

/-!
Rule bodies as expressions over tokens and rule calls. A symbol written as text is a token when it is
quoted or begins with an uppercase letter, and a call otherwise.
-/

set_option autoImplicit false

namespace RuleNetwork

/-- A rule body whose calls refer to rules by values of type `ρ`. -/
inductive Element (ρ : Type) where
  /-- One token out of the names. -/
  | token (names : List String)
  | call (rule : ρ)
  | guard (text : String)
  | empty
  | sequence (items : List (Element ρ))
  | choice (options : List (Element ρ))
  | star (body : Element ρ)
  | plus (body : Element ρ)
  | option (body : Element ρ)
  /-- An element that cannot be laid out. -/
  | unknown
  deriving Inhabited

namespace Element

variable {ρ : Type}

/-- Several elements in a row; one alone stands for itself. -/
def group : List (Element ρ) → Element ρ
  | [e] => e
  | l => .sequence l

/-- The number of alternatives that a rule with this body offers. -/
def alternatives : Element ρ → Nat
  | .choice options => options.length
  | _ => 1

def ofSymbol (s : String) : Except Fault (Element String) :=
  match s.toList with
  | [] => .error (.grammar .emptySymbol)
  | c :: _ => .ok (if c = '\'' ∨ Text.isUppercase c then .token [s] else .call s)

end Element

end RuleNetwork
