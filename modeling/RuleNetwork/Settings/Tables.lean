import RuleNetwork.Settings.Value

/-!
Tables under construction. A statement of a settings text opens a table, adds one to an array of
tables or sets one key; each of the three may run into what earlier statements have closed.

A value that is a table or a list is frozen with all below it. A table that a statement has opened is
settled: it is not opened again.
-/

set_option autoImplicit false

namespace RuleNetwork.Settings

abbrev Path := List String

abbrev Table := List (String × Value)

/-- A path as messages show it. -/
def pathText : Path → String
  | [k] => "(" ++ Text.quoted k ++ ",)"
  | p => "(" ++ ", ".intercalate (p.map Text.quoted) ++ ")"

namespace Table

def get? (t : Table) (k : String) : Option Value := (t.find? fun e => e.1 == k).map Prod.snd

def set (k : String) (v : Value) : Table → Table
  | [] => [(k, v)]
  | e :: r => if e.1 = k then (k, v) :: r else e :: set k v r

end Table

/-- Applies a change to the table that a path leads to, and makes the tables that are missing on the
way. With `throughLists` an array of tables stands for its last one. Nothing where another value is in
the way or the change refuses. -/
def editAt (throughLists : Bool) (change : Table → Option Table) : Path → Table → Option Table
  | [], t => change t
  | k :: rest, t =>
    match Table.get? t k with
    | none => do return Table.set k (.table (← editAt throughLists change rest [])) t
    | some (.table inner) => do
      return Table.set k (.table (← editAt throughLists change rest inner)) t
    | some (.list items) =>
      match throughLists, items.getLast? with
      | true, some (.table inner) => do
        let last ← editAt throughLists change rest inner
        return Table.set k (.list (items.dropLast ++ [.table last])) t
      | _, _ => none
    | some _ => none

structure Tables where
  root : Table := []
  settled : List Path := []
  frozen : List Path := []
  /-- Paths that the next header settles. -/
  pending : List Path := []

inductive TableFlaw where
  | declaredTwice (path : Path)
  | redefined (path : Path)
  | immutable (path : Path)
  | overwritten
  deriving DecidableEq, Repr

namespace Tables

def isSettled (t : Tables) (p : Path) : Bool := t.settled.contains p

def isFrozen (t : Tables) (p : Path) : Bool := t.frozen.any fun q => q.isPrefixOf p

def edit (t : Tables) (change : Table → Option Table) (p : Path) : Except TableFlaw Tables :=
  match editAt true change p t.root with
  | some root => .ok { t with root := root }
  | none => .error .overwritten

/-- A header ends the section before it. -/
def settlePending (t : Tables) : Tables :=
  { t with settled := t.pending ++ t.settled, pending := [] }

def openTable (t : Tables) (p : Path) : Except TableFlaw Tables :=
  if t.isSettled p || t.isFrozen p then .error (.declaredTwice p)
  else { t with settled := p :: t.settled }.edit some p

/-- A new table at the end of an array of tables; what was known below the array is forgotten. -/
def appendTable (t : Tables) (p : Path) : Except TableFlaw Tables :=
  if t.isFrozen p then .error (.immutable p)
  else
    let keep (q : Path) : Bool := !p.isPrefixOf q
    let t := { t with settled := p :: t.settled.filter keep, frozen := t.frozen.filter keep }
    let key := p.getLast?.getD ""
    t.edit (fun inner =>
      match Table.get? inner key with
      | none => some (Table.set key (.list [.table []]) inner)
      | some (.list items) => some (Table.set key (.list (items ++ [.table []])) inner)
      | some _ => none) p.dropLast

def isNested : Value → Bool
  | .table _ | .list _ => true
  | _ => false

def setNew (key : String) (v : Value) (t : Table) : Option Table :=
  match Table.get? t key with
  | none => some (Table.set key v t)
  | some _ => none

/-- The tables on the way to a dotted key, under its section. -/
def onTheWay (header key : Path) : List Path := ((List.range key.length).drop 1).map fun n => header ++ key.take n

def setKey (t : Tables) (header key : Path) (v : Value) : Except TableFlaw Tables := do
  let way := onTheWay header key
  if let some p := way.find? t.isSettled then throw (.redefined p)
  let parent := header ++ key.dropLast
  if t.isFrozen parent then throw (.immutable parent)
  let t ← { t with pending := way ++ t.pending }.edit (setNew (key.getLast?.getD "") v) parent
  return if isNested v then { t with frozen := (header ++ key) :: t.frozen } else t

end Tables

end RuleNetwork.Settings
