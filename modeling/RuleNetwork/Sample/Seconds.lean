import RuleNetwork.Fault

/-!
How long a sample may take. A wait is counted in nanoseconds, of which there are less than 2^63.
-/

set_option autoImplicit false

namespace RuleNetwork

/-- A number of seconds as it was given. -/
inductive Seconds where
  | whole (i : Int)
  | real (x : Number.Binary64)
  deriving DecidableEq, Repr, Inhabited

namespace Seconds

/-- What is granted where nothing better is said. -/
def usual : Seconds := .whole 5

def nonpositive : Seconds → Bool
  | .whole i => i ≤ 0
  | .real x => x.nonpositive

def shown : Seconds → String
  | .whole i => toString i
  | .real x => x.toMessage

def toReal? : Seconds → Option Number.Binary64
  | .real x => some x
  | .whole i => Number.Binary64.ofInt? i

def waitLimit : Nat := Nat.pow 2 63

def nanoseconds : Nat := Nat.pow 10 9

/-- Whether the wait can be counted. -/
def budget (s : Seconds) : Except Fault Number.Binary64 :=
  match s with
  | .whole i =>
    match Number.Binary64.ofInt? i with
    | some x => if i * nanoseconds < waitLimit then .ok x else .error (.tooManySeconds true)
    | none => .error (.tooManySeconds true)
  | .real x =>
    if x.isNaN then .error .notANumberOfSeconds
    else if x.reaches waitLimit nanoseconds then .error (.tooManySeconds false)
    else .ok x

/-- The time granted if a call may name one. -/
def granted (asked : Option Seconds) (absent : Seconds) : Seconds :=
  let s := asked.getD absent
  if s.nonpositive then usual else s

/-- A default has to be some time. -/
def checkDefault (s : Seconds) : Except Fault Seconds :=
  if s.nonpositive then .error (.badTimeout s.shown) else .ok s

end Seconds

end RuleNetwork
