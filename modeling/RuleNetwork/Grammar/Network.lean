import RuleNetwork.Container.Position
import RuleNetwork.Fault

/-!
The transition network of a grammar: states and transitions in two flat tables that refer to each
other by number. A state belongs to one rule; a rule call leads to the callee's start state and
names the state where the caller resumes.

The numbers come from documents, so nothing is taken for granted about them: a look-up refuses a
number that is not in the table.
-/

set_option autoImplicit false

namespace RuleNetwork

inductive StateKind where
  | basic
  | decision
  | ruleStart
  | ruleStop
  deriving DecidableEq, Repr, Inhabited

namespace StateKind

def name : StateKind → String
  | .basic => "basic"
  | .decision => "decision"
  | .ruleStart => "rule_start"
  | .ruleStop => "rule_stop"

def all : List StateKind := [.basic, .decision, .ruleStart, .ruleStop]

end StateKind

inductive TransitionKind where
  /-- Consumes nothing. -/
  | epsilon
  /-- Consumes one token out of a set. -/
  | terminal
  /-- Enters another rule and resumes after it. -/
  | ruleCall
  /-- A guard that only a running parser can decide; consumes nothing. -/
  | predicate
  deriving DecidableEq, Repr, Inhabited

namespace TransitionKind

def name : TransitionKind → String
  | .epsilon => "epsilon"
  | .terminal => "terminal"
  | .ruleCall => "rule_call"
  | .predicate => "predicate"

def all : List TransitionKind := [.epsilon, .terminal, .ruleCall, .predicate]

end TransitionKind

structure Transition where
  kind : TransitionKind
  target : Int
  tokens : List String := []
  rule : Option Int := none
  follow : Option Int := none
  predicate : Option String := none
  deriving DecidableEq, Repr, Inhabited

namespace Transition

/-- Whether the transition is passed without input and without a call. -/
def isFree (t : Transition) : Bool :=
  match t.kind with
  | .epsilon | .predicate => true
  | .terminal | .ruleCall => false

/-- The state where a walk that stays in the rule goes on. -/
def next (t : Transition) : Int :=
  match t.kind, t.follow with
  | .ruleCall, some f => f
  | _, _ => t.target

/-- The callee and the state to resume in, of a call that has both. -/
def call? (t : Transition) : Option (Int × Int) :=
  match t.kind, t.rule, t.follow with
  | .ruleCall, some callee, some follow => some (callee, follow)
  | _, _, _ => none

/-- A short text for displays. A call shows the callee's name if `names` has it. -/
def label (t : Transition) (names : Array String) : String :=
  match t.kind with
  | .terminal => if t.tokens.isEmpty then "?" else ", ".intercalate t.tokens
  | .ruleCall =>
    match t.rule with
    | some r => (Position.forward? names r).getD s!"rule{r}"
    | none => "ruleNone"
  | .predicate => "pred"
  | .epsilon => "ε"

end Transition

structure State where
  id : Int
  rule : Int
  kind : StateKind := .basic
  transitions : List Int := []
  deriving DecidableEq, Repr, Inhabited

/-- A state where a parser has to choose; its number is its place among them. -/
structure Decision where
  id : Nat
  rule : Int
  state : Int
  alternatives : Nat
  deriving DecidableEq, Repr, Inhabited

structure Network where
  states : Array State := #[]
  transitions : Array Transition := #[]
  deriving DecidableEq, Repr, Inhabited

namespace Network

def state (n : Network) (id : Int) : Except Fault State :=
  match Position.forward? n.states id with
  | some s => .ok s
  | none => .error (.dangling (.state id))

def transition (n : Network) (id : Int) : Except Fault Transition :=
  match Position.forward? n.transitions id with
  | some t => .ok t
  | none => .error (.dangling (.transition id))

/-- The transitions that leave a state, in the order of its alternatives. -/
def outgoing (n : Network) (id : Int) : Except Fault (List Transition) := do
  let s ← n.state id
  s.transitions.mapM n.transition

def isDecision (s : State) : Bool := s.kind == .decision && 2 ≤ s.transitions.length

def decisions (n : Network) : List Decision :=
  (n.states.toList.filter isDecision).mapIdx fun i s => ⟨i, s.rule, s.id, s.transitions.length⟩

/-- The transitions that stay in the state's rule, each with the state it leads to. A call is
stepped over. -/
def edges (n : Network) (id : Int) : Except Fault (List (Transition × Int)) := do
  let owner := (← n.state id).rule
  let steps ← (← n.outgoing id).mapM fun t => do
    let s ← n.state t.next
    .ok (t, t.next, s.rule)
  .ok (steps.filterMap fun (t, next, rule) => if rule = owner then some (t, next) else none)

end Network

/-- The sizes of a network. -/
structure NetworkSize where
  states : Nat := 0
  transitions : Nat := 0
  decisions : Nat := 0
  deriving DecidableEq, Repr, Inhabited

def Network.size (n : Network) : NetworkSize :=
  ⟨n.states.size, n.transitions.size, n.decisions.length⟩

end RuleNetwork
