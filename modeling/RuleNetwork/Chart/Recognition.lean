import RuleNetwork.Chart.Index
import RuleNetwork.Container.OrderedSet
import RuleNetwork.Fault

/-!
The chart of a parse. An item in column `k` says that a rule was entered after `origin` tokens and
that, `k` tokens having been read, the parse can be at a state of that rule. A column is closed under
entering the rules it calls and resuming the callers of the rules it completes; a token carries its
items into the next column.

A caller may arrive after its callee has already been completed on an empty span, so a column notes
the rules completed that way.
-/

set_option autoImplicit false

namespace RuleNetwork

structure Item where
  state : Int
  origin : Nat
  deriving DecidableEq, Repr, Inhabited, Hashable

structure Column where
  items : OrderedSet Item := ∅
  /-- A callee and the item with which its caller resumes. -/
  waiting : Array (Int × Item) := #[]
  /-- Rules completed without input at this column. -/
  empties : OrderedSet Int := ∅

instance : Inhabited Column := ⟨{}⟩

namespace Column

def insert (c : Column) (i : Item) : Column := { c with items := c.items.insert i }

def insertAll (c : Column) (l : List Item) : Column := { c with items := c.items.insertAll l }

/-- The items with which the callers of a rule resume. -/
def resuming (c : Column) (rule : Int) : List Item :=
  (c.waiting.toList.filter fun w => w.1 == rule).map Prod.snd

end Column

/-- A column being closed, and what it carries into the next one. -/
structure Draft where
  column : Column
  next : OrderedSet Item := ∅

namespace Draft

variable (ix : ChartIndex) (token : Option String) (done : Array Column) (item : Item)

/-- Enters a rule. -/
def enter (callee follow : Int) (d : Draft) : Except Fault Draft := do
  let resumed : Item := ⟨follow, item.origin⟩
  let c := { d.column with waiting := d.column.waiting.push (callee, resumed) }
  let c := c.insert ⟨← ix.startOf callee, done.size⟩
  return { d with column := if c.empties.contains callee then c.insert resumed else c }

def pass (d : Draft) (t : Transition) : Except Fault Draft :=
  match t.kind with
  | .terminal =>
    if token.any t.tokens.contains then
      .ok { d with next := d.next.insert ⟨t.target, item.origin⟩ }
    else .ok d
  | .ruleCall =>
    match t.call? with
    | some (callee, follow) => d.enter ix done item callee follow
    | none => .ok d
  | .epsilon | .predicate => .ok { d with column := d.column.insert ⟨t.target, item.origin⟩ }

/-- Resumes the callers of a rule that has come to its end. -/
def complete (rule : Int) (d : Draft) : Draft :=
  if item.origin = done.size then
    let c := { d.column with empties := d.column.empties.insert rule }
    { d with column := c.insertAll (c.resuming rule) }
  else
    { d with column := d.column.insertAll (((done[item.origin]?).getD {}).resuming rule) }

def expand (d : Draft) : Except Fault Draft := do
  let s ← ix.grammar.network.state item.state
  if s.kind == .ruleStop then return d.complete done item s.rule
  (← ix.grammar.network.outgoing item.state).foldlM (pass ix token done item) d

end Draft

namespace Column

/-- Expands the items from the `i`th on. -/
def closeFrom (ix : ChartIndex) (token : Option String) (done : Array Column) :
    Nat → Nat → Draft → Except Fault Draft
  | 0, _, d => .ok d
  | bound + 1, i, d =>
    match d.column.items.get? i with
    | none => .ok d
    | some item => do closeFrom ix token done bound (i + 1) (← d.expand ix token done item)

/-- A column holds at most one item for every state and every column so far. -/
def close (ix : ChartIndex) (token : Option String) (done : Array Column) (items : OrderedSet Item) :
    Except Fault Draft :=
  closeFrom ix token done (ix.grammar.network.states.size * (done.size + 1) + 1) 0
    { column := { items := items } }

/-- Fills the columns from one with the given items on. After a column without items all are empty. -/
def fill (ix : ChartIndex) (done : Array Column) (items : OrderedSet Item) :
    List String → Stage (Array Column)
  | [] =>
    ⟨done.size + 1, .reading,
      if items.isEmpty then .ok (done.push {})
      else do return done.push (← close ix none done items).column⟩
  | t :: rest =>
    if items.isEmpty then
      ⟨done.size + 1, .reading, .ok (done ++ Array.replicate (rest.length + 2) {})⟩
    else
      match close ix (some t) done items with
      | .error f => ⟨done.size + 1, .reading, .error f⟩
      | .ok d => fill ix (done.push d.column) d.next rest

end Column

structure Chart where
  index : ChartIndex
  types : Array String
  startRule : Int
  /-- The item that ends a derivation. -/
  goal : Item
  columns : Array Column

/-- An item together with its column. -/
structure Visit where
  state : Int
  origin : Nat
  position : Nat
  deriving DecidableEq, Repr, Inhabited, Hashable

/-- A rule entered at a position. -/
structure Invocation where
  rule : Int
  origin : Nat
  deriving DecidableEq, Repr, Inhabited, Hashable

def Visit.precedes (a b : Visit) : Bool :=
  a.state < b.state ||
    (a.state == b.state && (a.origin < b.origin || (a.origin == b.origin && a.position ≤ b.position)))

def Invocation.precedes (a b : Invocation) : Bool :=
  a.rule < b.rule || (a.rule == b.rule && a.origin ≤ b.origin)

namespace Chart

/-- Reads tokens from the start of a rule. -/
def recognize (ix : ChartIndex) (types : List String) (startRule : Int) : Stage Chart :=
  match ix.rule startRule with
  | .error f => ⟨0, .reading, .error f⟩
  | .ok r =>
    let filled := Column.fill ix #[] (.ofList [⟨r.start, 0⟩]) types
    { filled with
      result := filled.result.map fun columns => ⟨ix, types.toArray, startRule, ⟨r.stop, 0⟩, columns⟩ }

variable (c : Chart)

def contains (v : Visit) : Bool := (c.columns[v.position]?).any fun d => d.items.contains ⟨v.state, v.origin⟩

/-- The column in which a derivation ends. The end of input may belong to the derivation or not. -/
def accept? : Option Nat :=
  [c.types.size, c.types.size - 1].find? fun k => c.contains ⟨c.goal.state, c.goal.origin, k⟩

def isAccepted : Bool := c.accept?.isSome

/-- The last column with an item. -/
def furthest : Nat := (c.columns.toList.takeWhile fun d => !d.items.isEmpty).length - 1

def itemCount : Nat := (c.columns.toList.map fun d => d.items.size).foldr (· + ·) 0

end Chart

end RuleNetwork
