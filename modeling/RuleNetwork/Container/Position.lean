/-!
Positions counted from either end of a row: 0 is the first entry and -1 the last.
-/

set_option autoImplicit false

namespace RuleNetwork.Position

def resolve (size : Nat) (i : Int) : Option Nat :=
  if 0 ≤ i then if i < size then some i.toNat else none
  else if -i ≤ size then some (i + size).toNat else none

theorem resolve_of_lt {size : Nat} {i : Nat} (h : i < size) : resolve size i = some i := by
  simp [resolve, h]

def get? {α : Type} (xs : Array α) (i : Int) : Option α :=
  (resolve xs.size i).bind fun n => xs[n]?

/-- Positions from the front only. -/
def forward? {α : Type} (xs : Array α) (i : Int) : Option α :=
  if 0 ≤ i then xs[i.toNat]? else none

end RuleNetwork.Position
