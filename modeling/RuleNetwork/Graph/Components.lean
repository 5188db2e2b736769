import Std.Data.HashMap.Lemmas
import RuleNetwork.Graph.Digraph

/-!
The strongly connected components of a graph, found in one depth-first exploration. A node is numbered
when it is entered, and held until its component is complete. An open node keeps the least number of a
held node that it is known to lead to; if that is its own when its successors have been looked at, then
it is held back by nothing before it, and its component is what has been held since.
-/

set_option autoImplicit false

namespace RuleNetwork

namespace Digraph

/-- An open node, the place of the successor to look at next, and the least number known of it. -/
structure Frame (α : Type) where
  node : α
  next : Nat
  low : Nat

structure Linking (α : Type) [BEq α] [Hashable α] where
  numbers : Std.HashMap α Nat := ∅
  counter : Nat := 0
  /-- The latest first. -/
  held : List α := []
  /-- The open nodes, each a successor of the next one. -/
  work : List (Frame α) := []
  /-- The latest first. -/
  found : List (List α) := []

variable {α : Type} [DecidableEq α] [Hashable α]

namespace Linking

def enter (t : Linking α) (a : α) : Linking α :=
  { t with
    numbers := t.numbers.insert a t.counter
    counter := t.counter + 1
    held := a :: t.held
    work := ⟨a, 0, t.counter⟩ :: t.work }

/-- Looks at a successor of the latest open node, the rest of which are given. -/
def look (t : Linking α) (f : Frame α) (rest : List (Frame α)) (b : α) : Linking α :=
  let f := { f with next := f.next + 1 }
  match t.numbers[b]? with
  | none => { t with work := f :: rest }.enter b
  | some n =>
    if b ∈ t.held then { t with work := { f with low := min f.low n } :: rest }
    else { t with work := f :: rest }

/-- Tells the node before of the least number. -/
def lower (low : Nat) : List (Frame α) → List (Frame α)
  | [] => []
  | f :: rest => { f with low := min f.low low } :: rest

/-- Leaves the latest open node, with its component if that is complete. -/
def leave (t : Linking α) (f : Frame α) (rest : List (Frame α)) : Linking α :=
  let work := lower f.low rest
  if t.numbers[f.node]? = some f.low then
    { t with
      work := work
      held := (t.held.dropWhile (· ≠ f.node)).tail
      found := (t.held.takeWhile (· ≠ f.node) ++ [f.node]) :: t.found }
  else { t with work := work }

end Linking

variable (g : Digraph α)

def advance (t : Linking α) : Linking α :=
  match t.work with
  | [] => t
  | f :: rest =>
    match (g.successors f.node)[f.next]? with
    | some b => t.look f rest b
    | none => t.leave f rest

/-- Goes on until no node is open. -/
def drain : Nat → Linking α → Linking α
  | 0, t => t
  | bound + 1, t => if t.work.isEmpty then t else drain bound (g.advance t)

/-- Each node takes a step for each of its successors and one to leave it. -/
def linkingBound (order : List α) : Nat := (g.bound + order.length) * (g.bound + 1)

def linking (order : List α) : Linking α :=
  order.foldl (fun t a =>
    if t.numbers.contains a then t else g.drain (g.linkingBound order) (t.enter a)) {}

/-- The components that the nodes asked for lead to, each after those that it leads to. -/
def components (order : List α) : List (List α) := (g.linking order).found.reverse

/-- The nodes asked for, or else those with rows, the least first. -/
def nodesOr (g : Digraph Int) (order : Option (List Int)) : List Int :=
  order.getD g.rows.keys.mergeSort

/-- Components with the members of each in ascending order. -/
def sortedComponents (g : Digraph Int) (order : Option (List Int)) : List (List Int) :=
  (g.components (g.nodesOr order)).map List.mergeSort

end Digraph

end RuleNetwork
