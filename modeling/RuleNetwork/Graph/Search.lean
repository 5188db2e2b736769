import RuleNetwork.Container.OrderedSet

/-!
Searches over a graph that is given by a step function. A step may fail, and then the search fails
with it. Breadth first, a node is listed in the order of discovery; depth first, in the order in
which it is taken off the stack.

Every node is expanded once, so a bound on the number of nodes bounds the search.
-/

set_option autoImplicit false

namespace RuleNetwork.Search

variable {α ε : Type} [BEq α] [Hashable α] [LawfulBEq α]

/-- Expands the nodes found so far from the `i`th on. -/
def spread (next : α → Except ε (List α)) : Nat → OrderedSet α → Nat → Except ε (OrderedSet α)
  | 0, found, _ => .ok found
  | bound + 1, found, i =>
    match found.get? i with
    | none => .ok found
    | some a => do spread next bound (found.insertAll (← next a)) (i + 1)

/-- All that a number of starts lead to, nearest first. -/
def breadthFirst (next : α → Except ε (List α)) (bound : Nat) (starts : List α) :
    Except ε (OrderedSet α) :=
  spread next bound (.ofList starts) 0

/-- A search whose steps never fail. -/
def closure (next : α → List α) (bound : Nat) (starts : List α) : OrderedSet α :=
  match (breadthFirst (fun a => .ok (next a)) bound starts : Except Empty (OrderedSet α)) with
  | .ok s => s

/-- Takes nodes off the stack until a goal has been taken off. A node is marked when it is pushed, so
none is pushed twice. -/
def descend (next : α → Except ε (List α)) (goal : α → Bool) :
    Nat → List α → OrderedSet α → List α → Except ε (List α)
  | 0, _, _, taken => .ok taken.reverse
  | _, [], _, taken => .ok taken.reverse
  | bound + 1, a :: stack, marked, taken =>
    if goal a then .ok (a :: taken).reverse
    else do
      let marked' := marked.insertAll (← next a)
      let fresh := marked'.toList.drop marked.size
      descend next goal bound (fresh.reverse ++ stack) marked' (a :: taken)

/-- The nodes taken up to the goal, if it is met, and else all that the start leads to. -/
def depthFirst (next : α → Except ε (List α)) (goal : α → Bool) (bound : Nat) (start : α) :
    Except ε (List α) :=
  descend next goal bound [start] (.ofList [start]) []

end RuleNetwork.Search
