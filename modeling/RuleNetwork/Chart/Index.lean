import RuleNetwork.Grammar.Basic

/-!
The edges of a network, read backwards. For every state: the states that lead to it without input,
those that lead to it by a token, and the calls that resume at it.
-/

set_option autoImplicit false

namespace RuleNetwork

structure Backlinks where
  free : Array (List Int)
  scan : Array (List (Int × List String))
  /-- The calling state and the callee. -/
  call : Array (List (Int × Int))

structure ChartIndex where
  grammar : Grammar
  links : Backlinks

namespace Backlinks

def empty (states : Nat) : Backlinks :=
  ⟨Array.replicate states [], Array.replicate states [], Array.replicate states []⟩

/-- Lists an edge under the state it leads to. -/
def record {α : Type} (rows : Array (List α)) (target : Int) (a : α) : Except Fault (Array (List α)) :=
  match Position.resolve rows.size target with
  | some n => .ok (rows.modify n (· ++ [a]))
  | none => .error .listPosition

def add (source : Int) (b : Backlinks) (t : Transition) : Except Fault Backlinks :=
  match t.kind with
  | .terminal => do return { b with scan := ← record b.scan t.target (source, t.tokens) }
  | .ruleCall =>
    match t.call? with
    | some (callee, follow) => do return { b with call := ← record b.call follow (source, callee) }
    | none => .ok b
  | .epsilon | .predicate => do return { b with free := ← record b.free t.target source }

def addState (n : Network) (b : Backlinks) (s : State) : Except Fault Backlinks := do
  if s.kind == .ruleStop then return b
  (← n.outgoing s.id).foldlM (add s.id) b

def ofNetwork (n : Network) : Except Fault Backlinks :=
  n.states.toList.foldlM (addState n) (empty n.states.size)

def row {α : Type} (rows : Array (List α)) (state : Int) : Except Fault (List α) :=
  match Position.get? rows state with
  | some l => .ok l
  | none => .error .listPosition

end Backlinks

namespace ChartIndex

def ofGrammar (g : Grammar) : Except Fault ChartIndex := do
  return ⟨g, ← Backlinks.ofNetwork g.network⟩

/-- The rule of a number, which a document may count from either end. -/
def rule (ix : ChartIndex) (i : Int) : Except Fault Rule :=
  match Position.get? ix.grammar.rules i with
  | some r => .ok r
  | none => .error .listPosition

def startOf (ix : ChartIndex) (i : Int) : Except Fault Int := do return (← ix.rule i).start

def stopOf (ix : ChartIndex) (i : Int) : Except Fault Int := do return (← ix.rule i).stop

end ChartIndex

end RuleNetwork
