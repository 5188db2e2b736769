import RuleNetwork.Container.OrderedMap
import RuleNetwork.Graph.Search

/-!
Directed graphs given by rows of successors. A depth-first exploration yields the cycles that its back
edges close, and the order in which nodes are finished.
-/

set_option autoImplicit false

namespace RuleNetwork

structure Digraph (α : Type) where
  rows : OrderedMap α (List α)

namespace Digraph

variable {α : Type} [DecidableEq α] [Hashable α]

/-- A later row for the same node replaces the earlier one. -/
def ofRows (l : List (α × List α)) : Digraph α := ⟨.ofList l⟩

def successors (g : Digraph α) (a : α) : List α := (g.rows.get? a).getD []

/-- At least the number of nodes that rows mention. -/
def bound (g : Digraph α) : Nat := (g.rows.entries.map fun e => e.2.length + 1).foldr (· + ·) 0

def reach (g : Digraph α) (roots : List α) : OrderedSet α :=
  Search.closure g.successors (g.bound + roots.length) roots

structure Exploration (α : Type) [BEq α] [Hashable α] where
  seen : OrderedSet α := ∅
  /-- The latest first. -/
  finished : List α := []
  /-- The latest first, each from its entry on. -/
  cycles : List (List α) := []

def sameMembers (a b : List α) : Bool := a.all (decide <| · ∈ b) && b.all (decide <| · ∈ a)

namespace Exploration

def discover (e : Exploration α) (a : α) : Exploration α := { e with seen := e.seen.insert a }

def finish (e : Exploration α) (a : α) : Exploration α := { e with finished := a :: e.finished }

/-- Notes the cycle from `b` along the path back to `b`, unless one with the same members is known.
The path lists the latest node first. -/
def close (e : Exploration α) (path : List α) (b : α) : Exploration α :=
  let cycle := b :: (path.takeWhile (· ≠ b)).reverse
  if e.cycles.any (sameMembers cycle) then e else { e with cycles := cycle :: e.cycles }

end Exploration

def visit (g : Digraph α) : Nat → List α → α → Exploration α → Exploration α
  | 0, _, _, e => e
  | bound + 1, path, a, e =>
    ((g.successors a).foldl (fun e b =>
        if b ∈ a :: path then e.close (a :: path) b
        else if e.seen.contains b then e
        else g.visit bound (a :: path) b e)
      (e.discover a)).finish a

def explore (g : Digraph α) (order : List α) : Exploration α :=
  order.foldl (fun e a =>
    if e.seen.contains a then e else g.visit (g.bound + order.length) [] a e) {}

/-- Cycles in the order found, one for each set of members. -/
def cycles (g : Digraph α) (order : List α) : List (List α) := (g.explore order).cycles.reverse

end Digraph

end RuleNetwork
