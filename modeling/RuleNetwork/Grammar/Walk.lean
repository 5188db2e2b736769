import RuleNetwork.Container.OrderedMap
import RuleNetwork.Graph.Search
import RuleNetwork.Grammar.Basic

/-!
Walks inside a rule. A walk starts at the rule's start state, stays among the rule's own states and
steps over calls. A walk without input may not pass a terminal, and passes a call only if its callee
can match nothing.
-/

set_option autoImplicit false

namespace RuleNetwork

namespace Network

/-- Every state that a walk expands is one of the network's own. -/
def walkBound (n : Network) : Nat := n.states.size + 1

def steps (n : Network) (s : Int) : Except Fault (List Int) := do
  .ok ((← n.edges s).map Prod.snd)

/-- Whether a walk without input may take the transition. -/
def isSilent (nullable : Int → Bool) (t : Transition) : Bool :=
  match t.kind with
  | .terminal => false
  | .ruleCall => t.rule.any nullable
  | .epsilon | .predicate => true

def silentSteps (n : Network) (nullable : Int → Bool) (s : Int) : Except Fault (List Int) := do
  .ok (((← n.edges s).filter fun e => isSilent nullable e.1).map Prod.snd)

/-- The states met by a walk without input, up to the goal if it is met. -/
def silentWalk (n : Network) (nullable : Int → Bool) (source : Int) (goal : Int → Bool) :
    Except Fault (List Int) :=
  Search.depthFirst (n.silentSteps nullable) goal n.walkBound source

def reachesStop (n : Network) (nullable : Int → Bool) (source stop : Int) : Except Fault Bool := do
  .ok ((← n.silentWalk nullable source (· == stop)).contains stop)

end Network

namespace Grammar

/-- The states of a rule that its start state leads to, nearest first. -/
def walk (g : Grammar) (rule : Int) : Except Fault (List Int) := do
  let r ← g.ruleAt rule
  .ok (← Search.breadthFirst g.network.steps g.network.walkBound [r.start]).toList

/-- The transitions that leave the states of a rule. -/
def transitionsOf (g : Grammar) (rule : Int) : Except Fault (List Transition) := do
  .ok (← (← g.walk rule).mapM g.network.outgoing).flatten

def calls (g : Grammar) (rule : Int) : Except Fault (List Transition) := do
  .ok ((← g.transitionsOf rule).filter fun t => t.kind == .ruleCall)

/-- Adds every rule that matches nothing, given those known so far; a rule found helps the next. -/
def nullableRound (g : Grammar) (known : OrderedSet Int) : Except Fault (OrderedSet Int) :=
  g.ruleList.foldlM (fun known r => do
    if known.contains r.index then return known
    if ← g.network.reachesStop known.contains r.start r.stop then return known.insert r.index
    return known) known

def nullableRounds (g : Grammar) : Nat → OrderedSet Int → Except Fault (OrderedSet Int)
  | 0, known => .ok known
  | bound + 1, known => do
    let known' ← g.nullableRound known
    if known'.size = known.size then .ok known' else nullableRounds g bound known'

/-- The rules that can match nothing. Every round but the last finds a rule. -/
def nullable (g : Grammar) : Except Fault (OrderedSet Int) :=
  g.nullableRounds (g.rules.size + 1) ∅

def reachable (g : Grammar) (rules : List Int) : Except Fault (OrderedMap Int (List Int)) := do
  .ok (.ofList (← rules.mapM fun i => do return (i, ← g.walk i)))

/-- The first rule among whose states this one is. -/
def owner? (g : Grammar) (reachable : OrderedMap Int (List Int)) (state : Int) : Option Int :=
  (g.ruleList.find? fun r => ((reachable.get? r.index).getD []).contains state).map Rule.index

end Grammar

end RuleNetwork
