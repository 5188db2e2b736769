import RuleNetwork.Json.Value
import RuleNetwork.Number.Decimal
import RuleNetwork.Text.Quoted

/-!
Values of settings, and how messages show them. A value is shown from the outside in, by as many levels
as there is room for; how much room there is depends on who asks, so it is a parameter.
-/

set_option autoImplicit false

namespace RuleNetwork.Settings

structure Date where
  year : Nat
  month : Nat
  day : Nat
  deriving DecidableEq, Repr, Inhabited

structure Clock where
  hour : Nat
  minute : Nat
  second : Nat := 0
  micros : Nat := 0
  deriving DecidableEq, Repr, Inhabited

inductive Moment where
  | date (d : Date)
  | clock (c : Clock)
  /-- The zone is given by its distance in minutes, if at all. -/
  | both (d : Date) (c : Clock) (zone : Option Int)
  deriving DecidableEq, Repr, Inhabited

namespace Date

def isLeap (year : Nat) : Bool := year % 4 == 0 && (year % 100 != 0 || year % 400 == 0)

def daysIn (year month : Nat) : Nat :=
  if month = 2 then if isLeap year then 29 else 28
  else if month = 4 ∨ month = 6 ∨ month = 9 ∨ month = 11 then 30
  else 31

/-- Whether the calendar has the day; it has no year 0. -/
def isValid (d : Date) : Bool := 1 ≤ d.year && d.day ≤ daysIn d.year d.month

def parts (d : Date) : List Nat := [d.year, d.month, d.day]

end Date

/-- Seconds and smaller parts are shown only where they say something. -/
def Clock.parts (c : Clock) : List Nat :=
  [c.hour, c.minute] ++
    if c.micros = 0 then if c.second = 0 then [] else [c.second] else [c.second, c.micros]

namespace Moment

def call (name : String) (arguments : List String) : String :=
  "datetime." ++ name ++ "(" ++ ", ".intercalate arguments ++ ")"

def zoneText (minutes : Int) : String :=
  if minutes = 0 then "datetime.timezone.utc"
  else if 0 < minutes then call "timezone" [call "timedelta" [s!"seconds={minutes * 60}"]]
  else call "timezone" [call "timedelta" ["days=-1", s!"seconds={86400 + minutes * 60}"]]

def text : Moment → String
  | .date d => call "date" (d.parts.map toString)
  | .clock c => call "time" (c.parts.map toString)
  | .both d c zone =>
    call "datetime" ((d.parts ++ c.parts).map toString ++ (zone.map fun z => "tzinfo=" ++ zoneText z).toList)

/-- A zone is shown within its moment, and the distance of one that has no name within the zone. -/
def levels : Moment → Nat
  | .date _ | .clock _ | .both _ _ none => 1
  | .both _ _ (some zone) => if zone = 0 then 2 else 3

end Moment

inductive Value where
  | null
  | bool (b : Bool)
  | int (i : Int)
  | real (x : Number.Binary64)
  | text (s : String)
  | moment (m : Moment)
  | list (items : List Value)
  | table (rows : List (String × Value))
  deriving Inhabited, BEq

/-- Why a value is not shown. -/
inductive Unshown where
  /-- A whole number in it has too many digits. -/
  | tooLong
  /-- There is no room for so many levels. -/
  | tooDeep
  deriving DecidableEq, Repr

namespace Value

/-- Something that takes so many levels. -/
def within (room levels : Nat) (text : String) : Except Unshown String :=
  if room < levels then .error .tooDeep else .ok text

mutual

/-- The value as messages show it. -/
def shown (room : Nat) : Value → Except Unshown String
  | .null => within room 1 "None"
  | .bool true => within room 1 "True"
  | .bool false => within room 1 "False"
  | .int i => do
    let text ← within room 1 (toString i)
    if Number.isWritable i then .ok text else .error .tooLong
  | .real x => within room 1 x.toMessage
  | .text s => within room 1 (Text.quoted s)
  | .moment m => within room m.levels m.text
  | .list items => do
    let _ ← within room 1 ""
    return "[" ++ ", ".intercalate (← shownItems (room - 1) items) ++ "]"
  | .table rows => do
    let _ ← within room 1 ""
    return "\x7b" ++ ", ".intercalate (← shownRows (room - 1) rows) ++ "\x7d"

def shownItems (room : Nat) : List Value → Except Unshown (List String)
  | [] => .ok []
  | v :: r => do return (← shown room v) :: (← shownItems room r)

/-- A key takes a level as its value does. -/
def shownRows (room : Nat) : List (String × Value) → Except Unshown (List String)
  | [] => .ok []
  | (k, v) :: r => do return (Text.quoted k ++ ": " ++ (← shown room v)) :: (← shownRows room r)

end

mutual

def ofJson : Json → Value
  | .null => .null
  | .bool b => .bool b
  | .int i => .int i
  | .real x => .real x
  | .str s => .text s
  | .arr items => .list (ofItems items)
  | .obj fields => .table (ofFields fields)

def ofItems : List Json → List Value
  | [] => []
  | v :: r => ofJson v :: ofItems r

def ofFields : List (String × Json) → List (String × Value)
  | [] => []
  | (k, v) :: r => (k, ofJson v) :: ofFields r

end

end Value

end RuleNetwork.Settings
