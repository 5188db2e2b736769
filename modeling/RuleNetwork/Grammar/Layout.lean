import RuleNetwork.Grammar.Basic
import RuleNetwork.Grammar.Element

/-!
Laying out rule bodies as a network. Every body becomes a piece with one entry and one exit state:
alternatives branch from a decision state and merge in an end state, and a loop branches from a
decision state at its head, or at its tail when its body runs at least once.
-/

set_option autoImplicit false

namespace RuleNetwork

/-- A network under construction. -/
structure Arena where
  states : Array State := #[]
  transitions : Array Transition := #[]
  deriving Inhabited

/-- The entry and the exit state of a piece of network. -/
structure Piece where
  entry : Int
  exit : Int
  deriving DecidableEq, Repr, Inhabited

abbrev Layout := StateM Arena

namespace Layout

def fresh (rule : Nat) (kind : StateKind) : Layout Int := fun a =>
  let id := Int.ofNat a.states.size
  (id, { a with states := a.states.push { id, rule := Int.ofNat rule, kind } })

/-- Adds a transition as the last alternative of its source. -/
def connect (source : Int) (t : Transition) : Layout Unit := fun a =>
  let id := Int.ofNat a.transitions.size
  ((), { states := a.states.modify source.toNat fun s => { s with transitions := s.transitions ++ [id] }
         transitions := a.transitions.push t })

def epsilon (source target : Int) : Layout Unit := connect source { kind := .epsilon, target }

/-- Two fresh states with one transition between them. -/
def step (rule : Nat) (t : Int → Transition) : Layout Piece := do
  let a ← fresh rule .basic
  let b ← fresh rule .basic
  connect a (t b)
  return ⟨a, b⟩

def point (rule : Nat) : Layout Piece := do
  let a ← fresh rule .basic
  return ⟨a, a⟩

end Layout

open Layout

mutual

/-- The piece of a body in a rule; `startOf` gives the start state of each callee. -/
def Element.layout (startOf : Nat → Int) (rule : Nat) : Element Nat → Layout Piece
  | .token names => step rule fun b => { kind := .terminal, target := b, tokens := names }
  | .call callee => step rule fun b =>
      { kind := .ruleCall, target := startOf callee, rule := some (Int.ofNat callee), follow := some b }
  | .guard text => step rule fun b => { kind := .predicate, target := b, predicate := some text }
  | .empty | .unknown => point rule
  | .sequence [] => point rule
  | .sequence (e :: r) => do
    let first ← e.layout startOf rule
    let exit ← layoutRest startOf rule first.exit r
    return ⟨first.entry, exit⟩
  | .choice [e] => e.layout startOf rule
  | .choice options => do
    let decision ← fresh rule .decision
    let finish ← fresh rule .basic
    layoutOptions startOf rule decision finish options
    return ⟨decision, finish⟩
  | .option body => do
    let decision ← fresh rule .decision
    let finish ← fresh rule .basic
    let piece ← body.layout startOf rule
    epsilon decision piece.entry
    epsilon decision finish
    epsilon piece.exit finish
    return ⟨decision, finish⟩
  | .star body => do
    let head ← fresh rule .decision
    let finish ← fresh rule .basic
    let piece ← body.layout startOf rule
    epsilon head piece.entry
    epsilon head finish
    epsilon piece.exit head
    return ⟨head, finish⟩
  | .plus body => do
    let piece ← body.layout startOf rule
    let tail ← fresh rule .decision
    let finish ← fresh rule .basic
    epsilon piece.exit tail
    epsilon tail piece.entry
    epsilon tail finish
    return ⟨piece.entry, finish⟩

/-- Strings further elements after an exit state and gives the last exit. -/
def layoutRest (startOf : Nat → Int) (rule : Nat) (exit : Int) : List (Element Nat) → Layout Int
  | [] => return exit
  | e :: r => do
    let piece ← e.layout startOf rule
    epsilon exit piece.entry
    layoutRest startOf rule piece.exit r

def layoutOptions (startOf : Nat → Int) (rule : Nat) (decision finish : Int) :
    List (Element Nat) → Layout Unit
  | [] => return ()
  | e :: r => do
    let piece ← e.layout startOf rule
    epsilon decision piece.entry
    epsilon piece.exit finish
    layoutOptions startOf rule decision finish r

end

/-- The start and stop states of rule `i`, which stand in pairs before all others. -/
def startState (i : Nat) : Int := 2 * Int.ofNat i

def stopState (i : Nat) : Int := 2 * Int.ofNat i + 1

def layoutBounds : Nat → Nat → Layout Unit
  | _, 0 => return ()
  | i, n + 1 => do
    let _ ← fresh i .ruleStart
    let _ ← fresh i .ruleStop
    layoutBounds (i + 1) n

/-- Joins the piece of a body to the bounds of its rule. -/
def layoutRule (i : Nat) (body : Element Nat) : Layout Unit := do
  let piece ← body.layout startState i
  epsilon (startState i) piece.entry
  epsilon piece.exit (stopState i)

def layoutRules : Nat → List (Element Nat) → Layout Unit
  | _, [] => return ()
  | i, e :: r => do
    layoutRule i e
    layoutRules (i + 1) r

/-- The network of the rules with the given bodies. -/
def networkOf (bodies : List (Element Nat)) : Network :=
  let program : Layout Unit := do
    layoutBounds 0 bodies.length
    layoutRules 0 bodies
  let a := (program.run {}).2
  ⟨a.states, a.transitions⟩

end RuleNetwork
