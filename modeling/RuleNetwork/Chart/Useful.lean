import RuleNetwork.Chart.Recognition
import RuleNetwork.Graph.Search

/-!
The useful part of a chart: what lies on a derivation. It is found by walking backwards from where
derivations end; a completed call is walked back into the callee as well as to the caller.
-/

set_option autoImplicit false

namespace RuleNetwork.Chart

variable (c : Chart)

/-- The goal of an accepted input; of a rejected one all that the furthest column holds. -/
def seeds : List Visit :=
  match c.accept? with
  | some k => [⟨c.goal.state, c.goal.origin, k⟩]
  | none => ((c.columns[c.furthest]?).getD {}).items.toList.map fun i => ⟨i.state, i.origin, c.furthest⟩

/-- The visits of a caller and of its completed callee between which a token position may fall. -/
def callBefore (v : Visit) (caller : Int) (stop : Int) : List Visit :=
  ((List.range (v.position + 1)).drop v.origin).flatMap fun j =>
    let before : Visit := ⟨caller, v.origin, j⟩
    let inner : Visit := ⟨stop, j, v.position⟩
    if c.contains before && c.contains inner then [before, inner] else []

def freeBefore (v : Visit) : Except Fault (List Visit) := do
  let sources ← Backlinks.row c.index.links.free v.state
  return (sources.map fun s => ⟨s, v.origin, v.position⟩).filter c.contains

/-- The token read right before a position. -/
def tokenBefore (position : Nat) : Except Fault String :=
  match c.types[position - 1]? with
  | some t => .ok t
  | none => .error .listPosition

def scanSources (v : Visit) : Except Fault (List Visit) := do
  if v.position = 0 then return []
  let token ← c.tokenBefore v.position
  let sources ← Backlinks.row c.index.links.scan v.state
  return (sources.filter fun s => s.2.contains token).map fun s => ⟨s.1, v.origin, v.position - 1⟩

def before (v : Visit) : Except Fault (List Visit) := do
  let free ← c.freeBefore v
  let scanned := (← c.scanSources v).filter c.contains
  let calls ← (← Backlinks.row c.index.links.call v.state).mapM fun (caller, callee) => do
    return c.callBefore v caller (← c.index.stopOf callee)
  return free ++ scanned ++ calls.flatten

def failsBefore (v : Visit) : Bool := (c.before v).toBool == false

/-- The visits walked back from some seeds, in the order in which they are taken up; the walk ends at
one that cannot be walked back from. -/
def walkBack (seeds : List Visit) : List Visit :=
  let next (v : Visit) : List Visit :=
    match c.before v with
    | .ok l => l
    | .error _ => []
  let taken : Except Empty (List Visit) :=
    Search.descend (fun v => .ok (next v)) c.failsBefore (seeds.length + c.itemCount + 1) seeds.reverse
      (.ofList seeds) []
  match taken with
  | .ok l => l

/-- The visits on a derivation that ends in a seed. -/
def useful (seeds : List Visit) : Stage (OrderedSet Visit) :=
  let taken := c.walkBack seeds
  ⟨taken.length, fun _ => .analysis, do
    if let some last := taken.getLast? then
      let _ ← c.before last
    return .ofList taken⟩

end RuleNetwork.Chart
