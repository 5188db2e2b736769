import RuleNetwork.Chart.Counts

/-!
Ties between the alternatives of a decision. Viability is read off items that nested invocations of a
left-recursive rule share, so two viable alternatives may belong to two levels of one derivation. They
tie only if both complete the input under one calling context.

A context is a call from outside of the invocation's group, or the end of the parse; it accepts the
ends of the group from which it can resume. It is ambiguous if it accepts two ends, or one end that can
be reached in two ways inside the group.
-/

set_option autoImplicit false

namespace RuleNetwork

/-- Where an invocation of a rule ends; nowhere if it is still open when a rejected input stops. -/
structure RuleEnd where
  rule : Int
  stop : Option Nat
  deriving DecidableEq, Repr, Inhabited, Hashable

abbrev Context := List RuleEnd

structure Ties where
  chart : Chart
  useful : OrderedSet Visit
  groups : Groups
  counts : Counts
  /-- Where a rejected input stops. -/
  openAt : Option Nat
  ends : Std.HashMap Invocation (List Nat)
  /-- For a callee, the visits that call it and where they resume. -/
  callers : Std.HashMap Invocation (List (Visit × Int))
  openCounts : Std.HashMap Invocation Nat

namespace Ties

def endsOf (t : Ties) (i : Invocation) : List Nat := t.ends.getD i []

def callersOf (t : Ties) (i : Invocation) : List (Visit × Int) := t.callers.getD i []

def noteOpen (t : Ties) (i : Invocation) (v : Visit) : Ties :=
  if t.openAt = some v.position then
    { t with openCounts := t.openCounts.insert i (max (t.openCounts.getD i 0) (t.counts.of v)) }
  else t

def noteEnd (t : Ties) (i : Invocation) (v : Visit) : Ties :=
  { t with ends := t.ends.insert i (t.endsOf i ++ [v.position]) }

def noteCall (v : Visit) (t : Ties) (edge : Transition) : Ties :=
  match edge.call? with
  | some (callee, follow) =>
    let i : Invocation := ⟨callee, v.position⟩
    { t with callers := t.callers.insert i (t.callersOf i ++ [(v, follow)]) }
  | none => t

def note (t : Ties) (v : Visit) : Except Fault Ties := do
  let n := t.chart.index.grammar.network
  let s ← n.state v.state
  let i : Invocation := ⟨s.rule, v.origin⟩
  let t := t.noteOpen i v
  if s.kind == .ruleStop then return t.noteEnd i v
  return (← n.outgoing v.state).foldl (noteCall v) t

def ofChart (c : Chart) (useful : OrderedSet Visit) : Cancellable Ties := do
  let groups ← (c.groups useful : Except Fault Groups)
  let counts ← (c.counts (some groups) useful).run
  let openAt := if c.isAccepted then none else some c.furthest
  let start : Ties := ⟨c, useful, groups, counts, openAt, ∅, ∅, ∅⟩
  (useful.toList.foldlM note start : Except Fault Ties)

variable (t : Ties)

/-- Whether a visit's invocation calls the callee from within their common group. -/
def isInternal (v : Visit) (callee : Invocation) : Except Fault Bool := do
  return t.groups.together (← t.chart.invocation v) callee

/-- The ends of a callee from which a caller resumes. -/
def accepted (member : Invocation) (caller : Visit) (follow : Int) : Context :=
  ((t.endsOf member).filter fun m => t.useful.contains ⟨follow, caller.origin, m⟩).eraseDups.map
    fun m => ⟨member.rule, some m⟩

def callerContexts (member : Invocation) : Except Fault (List Context) := do
  let found ← (t.callersOf member).mapM fun (caller, follow) => do
    return if ← t.isInternal caller member then [] else t.accepted member caller follow
  return found.filter fun c => !c.isEmpty

def goalContexts (members : List Invocation) : List Context :=
  match t.chart.accept? with
  | some k =>
    if members.contains ⟨t.chart.startRule, 0⟩ then [[⟨t.chart.startRule, some k⟩]] else []
  | none => []

def openContexts (members : List Invocation) : List Context :=
  let still := members.filter fun i => t.openAt.isSome && (t.openCounts[i]?).isSome
  if still.isEmpty then [] else [(still.map fun i => (⟨i.rule, none⟩ : RuleEnd)).eraseDups]

/-- The calling contexts of an invocation. -/
def contexts (i : Invocation) : Except Fault (List Context) := do
  let members := t.groups.membersOf i
  let called ← members.mapM t.callerContexts
  return called.flatten ++ t.goalContexts members ++ t.openContexts members

/-- In how many ways an invocation entered at `origin` comes to an end. -/
def waysTo (origin : Nat) (e : RuleEnd) : Except Fault Nat := do
  match e.stop with
  | none => return t.openCounts.getD ⟨e.rule, origin⟩ 0
  | some m => return t.counts.of ⟨← t.chart.index.stopOf e.rule, origin, m⟩

/-- Whether a context accepts what has been read in more than one way. -/
def isAmbiguous (origin : Nat) (c : Context) : Except Fault Bool := do
  if 2 ≤ c.length then return true
  return (← c.mapM (t.waysTo origin)).any (Counts.ambiguous ≤ ·)

/-- The useful visits right after a transition taken from a position. -/
def after (edge : Transition) (origin position : Nat) : List Visit :=
  let candidates : List Visit :=
    match edge.kind with
    | .terminal =>
      if (t.chart.types[position]?).any edge.tokens.contains then [⟨edge.target, origin, position + 1⟩]
      else []
    | .ruleCall =>
      match edge.call? with
      | some (callee, follow) => (t.endsOf ⟨callee, position⟩).map fun m => ⟨follow, origin, m⟩
      | none => []
    | .epsilon | .predicate => [⟨edge.target, origin, position⟩]
  candidates.filter t.useful.contains

/-- The visits of callers in the same group that resume after an invocation. -/
def resumed (i : Invocation) (position : Nat) : Except Fault (List Visit) := do
  let found ← (t.callersOf i).mapM fun (caller, follow) => do
    let internal := caller.origin == i.origin && (← t.isInternal caller i)
    return if internal then [(⟨follow, i.origin, position⟩ : Visit)] else []
  return found.flatten.filter t.useful.contains

def onward (origin : Nat) (v : Visit) : Except Fault (List Visit) := do
  let n := t.chart.index.grammar.network
  let s ← n.state v.state
  if s.kind == .ruleStop then return ← t.resumed ⟨s.rule, origin⟩ v.position
  return (← n.outgoing v.state).flatMap fun e => t.after e origin v.position

def endsAt (v : Visit) : Except Fault (List RuleEnd) := do
  let s ← t.chart.index.grammar.network.state v.state
  return (if t.openAt = some v.position then [⟨s.rule, none⟩] else []) ++
    (if s.kind == .ruleStop then [⟨s.rule, some v.position⟩] else [])

/-- The ends of the group that some visits lead to without leaving it. -/
def reached (starts : List Visit) (origin : Nat) : Except Fault (List RuleEnd) := do
  let met ← Search.breadthFirst (t.onward origin) (t.useful.size + starts.length + 1) starts
  return (← met.toList.mapM t.endsAt).flatten

/-- The viable alternatives that tie under some context, the lowest first. -/
def tied (v : Visit) (viable : List Nat) : Except Fault (List Nat) := do
  let edges ← t.chart.index.grammar.network.outgoing v.state
  let reaches ← viable.mapM fun a => do
    let starts := ((edges[a - 1]?).map fun e => t.after e v.origin v.position).getD []
    return (a, ← t.reached starts v.origin)
  let contexts ← (← t.contexts (← t.chart.invocation v)).filterM (t.isAmbiguous v.origin)
  let hits (c : Context) : List Nat := (reaches.filter fun r => r.2.any c.contains).map Prod.fst
  let shared := (contexts.map hits).filter fun l => 2 ≤ l.length
  return viable.filter fun a => shared.any (·.contains a)

end Ties

end RuleNetwork
