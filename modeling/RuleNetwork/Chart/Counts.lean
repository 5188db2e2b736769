import RuleNetwork.Chart.Groups

/-!
How many ways lead from the start of an invocation to each useful visit. Two is all it takes to be
ambiguous, so counts stop there.

Given groups, a completed call counts once unless caller and callee are of one group; then a count of
two belongs to the invocation's own body and not to a rule nested in it.
-/

set_option autoImplicit false

namespace RuleNetwork

abbrev Counts := Std.HashMap Visit Nat

namespace Counts

/-- Where counts stop. -/
def ambiguous : Nat := 2

def of (counts : Counts) (v : Visit) : Nat := counts.getD v 0

end Counts

namespace Chart

variable (c : Chart) (groups : Option Groups)

/-- What a completed call contributes: all its ways, or one if it is passed as a whole. -/
def innerCount (caller callee : Invocation) (ways : Nat) : Nat :=
  match groups with
  | none => ways
  | some g => if g.together caller callee then ways else min ways 1

/-- The ways over completed calls of one callee that resume at a visit. -/
def callCount (counts : Counts) (caller : Invocation) (v : Visit) (site callee stop : Int) : Nat :=
  (((List.range (v.position + 1)).drop v.origin).map fun j =>
    let ways := counts.of ⟨stop, j, v.position⟩
    if ways = 0 then 0
    else counts.of ⟨site, v.origin, j⟩ * innerCount groups caller ⟨callee, j⟩ ways).foldr (· + ·) 0

def incoming (counts : Counts) (v : Visit) : Except Fault Nat := do
  let caller ← c.invocation v
  let own := if (← c.index.startOf caller.rule) = v.state ∧ v.origin = v.position then 1 else 0
  let sources ← Backlinks.row c.index.links.free v.state
  let free := (sources.map fun s => counts.of ⟨s, v.origin, v.position⟩).foldr (· + ·) 0
  let scanned := ((← c.scanSources v).map counts.of).foldr (· + ·) 0
  let called ← (← Backlinks.row c.index.links.call v.state).mapM fun (site, callee) => do
    return callCount groups counts caller v site callee (← c.index.stopOf callee)
  return min (own + free + scanned + called.foldr (· + ·) 0) Counts.ambiguous

/-- Raises each count to what leads to its visit; tells whether one was raised. -/
def countRound (visits : List Visit) (counts : Counts) : Except Fault (Counts × Bool) :=
  visits.foldlM (fun (counts, raised) v => do
    let n ← c.incoming groups counts v
    return if counts.of v < n then (counts.insert v n, true) else (counts, raised)) (counts, false)

/-- Rounds at one position until none raises a count. -/
def countRounds (visits : List Visit) : Nat → Nat → Counts → Stage Counts
  | 0, done, counts => ⟨done, fun _ => .counting, .ok counts⟩
  | bound + 1, done, counts =>
    match c.countRound groups visits counts with
    | .error f => ⟨done + 1, fun _ => .counting, .error f⟩
    | .ok (counts, true) => countRounds visits bound (done + 1) counts
    | .ok (counts, false) => ⟨done + 1, fun _ => .counting, .ok counts⟩

/-- Every round but the last raises one of the counts at a position, each of which rises twice at
most. -/
def countAt (visits : List Visit) (s : Stage Counts) : Stage Counts :=
  match s.result with
  | .error _ => s
  | .ok counts =>
    if visits.isEmpty then s else c.countRounds groups visits (2 * visits.length + 1) s.checks counts

/-- Counts position by position, since what leads to a visit is never further on. -/
def counts (useful : OrderedSet Visit) : Stage Counts :=
  let visits := useful.toList.mergeSort Visit.precedes
  let last := (visits.map Visit.position).foldl max 0
  (List.range (last + 1)).foldl
    (fun s k => c.countAt groups (visits.filter fun v => v.position == k) s)
    ⟨0, fun _ => .counting, .ok ∅⟩

end Chart

end RuleNetwork
