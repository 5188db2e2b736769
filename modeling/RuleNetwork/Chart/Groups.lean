import RuleNetwork.Chart.Useful
import RuleNetwork.Graph.Components
import Std.Data.HashMap

/-!
Left-recursive groups. Nested invocations of a left-recursive rule begin at the same token and share
their items in the chart; the useful calls among them form cycles, and the invocations on such a cycle
are one group.
-/

set_option autoImplicit false

namespace RuleNetwork

structure Groups where
  members : List (List Invocation)
  number : Std.HashMap Invocation Nat

namespace Groups

def ofMembers (members : List (List Invocation)) : Groups where
  members := members
  number := (members.mapIdx fun i l => l.map fun v => (v, i)).flatten.foldl
    (fun m e => m.insert e.1 e.2) ∅

def group? (g : Groups) (i : Invocation) : Option Nat := g.number[i]?

/-- The invocations of an invocation's group, itself alone where it has none. -/
def membersOf (g : Groups) (i : Invocation) : List Invocation :=
  match g.group? i with
  | some n => (g.members[n]?).getD [i]
  | none => [i]

/-- Whether both are in one group. -/
def together (g : Groups) (a b : Invocation) : Bool :=
  match g.group? a, g.group? b with
  | some m, some n => m == n
  | _, _ => false

end Groups

namespace Chart

variable (c : Chart)

/-- The invocation that a visit belongs to. -/
def invocation (v : Visit) : Except Fault Invocation := do
  return ⟨(← c.index.grammar.network.state v.state).rule, v.origin⟩

/-- Calls made before any input, as pairs of caller and callee. -/
def emptyCalls (useful : OrderedSet Visit) (v : Visit) : Except Fault (List (Invocation × Invocation)) := do
  if v.position ≠ v.origin then return []
  let caller ← c.invocation v
  let called ← (← c.index.grammar.network.outgoing v.state).mapM fun t => do
    match t.kind, t.rule with
    | .ruleCall, some callee =>
      let entered : Visit := ⟨← c.index.startOf callee, v.origin, v.origin⟩
      return if useful.contains entered then some (caller, (⟨callee, v.origin⟩ : Invocation)) else none
    | _, _ => return none
  return called.filterMap id

/-- The graph of the calls made before any input. -/
def emptyCallGraph (calls : List (Invocation × Invocation)) : Digraph Invocation :=
  let add (rows : OrderedMap Invocation (List Invocation)) (e : Invocation × Invocation) :
      OrderedMap Invocation (List Invocation) :=
    let known := (rows.get? e.1).getD []
    if known.contains e.2 then rows else rows.put e.1 (known ++ [e.2])
  ⟨calls.foldl add ∅⟩

/-- The components that hold a cycle. -/
def cyclicComponents (g : Digraph Invocation) (nodes : List Invocation) : List (List Invocation) :=
  (g.components nodes).filter fun l =>
    1 < l.length || l.any fun i => (g.successors i).contains i

def groups (useful : OrderedSet Visit) : Except Fault Groups := do
  let calls := (← useful.toList.mapM (c.emptyCalls useful)).flatten
  let nodes := (OrderedSet.ofList (calls.flatMap fun e => [e.1, e.2])).toList
  return .ofMembers (cyclicComponents (emptyCallGraph calls) (nodes.mergeSort Invocation.precedes))

end Chart

end RuleNetwork
