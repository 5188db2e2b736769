import RuleNetwork.Graph.Components

/-!
How deep the components of a graph lie. The components with the edges between them form a graph without
cycles; the depth of a component is the length of the longest path to it. Components are taken in
turn, each as soon as all that lead to it have been taken.
-/

set_option autoImplicit false

namespace RuleNetwork

namespace Digraph

/-- The graph of the components, told by their places: the components that each leads to, and how many
lead to it. -/
structure Condensed where
  links : OrderedMap Nat (List Nat) := ∅
  degrees : OrderedMap Nat Nat := ∅

namespace Condensed

def linksOf (d : Condensed) (i : Nat) : List Nat := (d.links.get? i).getD []

/-- Adds an edge, unless it is known or leads from a component to itself. -/
def link (d : Condensed) (i j : Nat) : Condensed :=
  if i = j ∨ j ∈ d.linksOf i then d
  else ⟨d.links.put i (d.linksOf i ++ [j]), d.degrees.put j ((d.degrees.get? j).getD 0 + 1)⟩

end Condensed

/-- Depths so far, how many components are still to come before each, and those that can be taken. -/
structure Levels where
  degrees : OrderedMap Nat Nat
  depths : OrderedMap Nat Nat := ∅
  queue : List Nat

namespace Levels

def depth (s : Levels) (i : Nat) : Nat := (s.depths.get? i).getD 0

def degree (s : Levels) (i : Nat) : Nat := (s.degrees.get? i).getD 0

/-- A component taken lies before another one. -/
def lower (i : Nat) (s : Levels) (j : Nat) : Levels where
  degrees := s.degrees.put j (s.degree j - 1)
  depths := s.depths.put j (max (s.depth j) (s.depth i + 1))
  queue := if s.degree j - 1 = 0 then s.queue ++ [j] else s.queue

/-- Takes a component and leaves the rest of the queue. -/
def take (links : Nat → List Nat) (s : Levels) (i : Nat) (queue : List Nat) : Levels :=
  (links i).mergeSort.foldl (lower i) { s with queue := queue }

/-- Takes components in turn. -/
def settle (links : Nat → List Nat) : Nat → Levels → Levels
  | 0, s => s
  | bound + 1, s =>
    match s.queue with
    | [] => s
    | i :: queue => settle links bound (s.take links i queue)

end Levels

variable {α : Type} [DecidableEq α] [Hashable α]

/-- The place of the component that each node lies in. -/
def places (components : List (List α)) : OrderedMap α Nat :=
  .ofList (components.zipIdx.flatMap fun (c, i) => c.map fun a => (a, i))

/-- The component of a node must be known. -/
def placeOf (places : OrderedMap α Nat) (a : α) : Except α Nat :=
  match places.get? a with
  | some i => .ok i
  | none => .error a

def condense (g : Digraph α) (places : OrderedMap α Nat) : Except α Condensed :=
  (g.rows.entries.flatMap fun (a, l) => l.map fun b => (a, b)).foldlM (fun d (a, b) => do
    return d.link (← placeOf places a) (← placeOf places b)) {}

/-- The depth of every node of the components: nodes of one component share it. A row with successors
whose own node is in none of them has no depth to give. -/
def depthsOf (g : Digraph α) (components : List (List α)) : Except α (List (α × Nat)) := do
  let places := places components
  let d ← g.condense places
  let free := (List.range components.length).filter fun i => (d.degrees.get? i).getD 0 = 0
  let levels := Levels.settle d.linksOf components.length { degrees := d.degrees, queue := free }
  return places.entries.map fun (a, i) => (a, levels.depth i)

def depths (g : Digraph α) (order : List α) : Except α (List (α × Nat)) :=
  g.depthsOf (g.components order)

/-- Depths of the nodes that those asked for lead to, or else all nodes with rows. -/
def depthsOr (g : Digraph Int) (order : Option (List Int)) : Except Int (List (Int × Nat)) :=
  g.depthsOf (g.sortedComponents order)

end Digraph

end RuleNetwork
