import RuleNetwork.RuleGraph.Build
import RuleNetwork.Text.CodeRanges

/-!
Left recursion: which rules can call themselves before any input is consumed, alone or through
others. With verification a call counts only if nothing can be consumed before it, and callees that
can match nothing are passed; without it a walk ends at the first call, and recursion through others
is read off the plain rule graph.

Rules that a preparation step has already freed of left recursion carry precedence guards.

Precedence guards. A guard names a level in a call of `precpred` whose first argument is any text
without brackets and commas and whose second is a numeral. Which rules carry guards is known from the
numerals alone; a level is read off its numeral only where it is asked for, and a numeral of too many
digits is refused then.
-/

set_option autoImplicit false

namespace RuleNetwork.Precedence

def isArgument (c : Char) : Bool := c != ',' && c != '(' && c != ')'

def opening : List Char := "precpred(".toList

def digitsValue (digits : List Char) : Nat :=
  digits.foldl (fun n c => n * 10 + (Text.digitValue? c).getD 0) 0

/-- The level that a numeral stands for. -/
def level (digits : List Char) : Except Fault Nat :=
  if Number.digitLimit < digits.length then .error (.longNumeral digits.length)
  else .ok (digitsValue digits)

/-- The numeral and the text after a call of two arguments, read from its opening bracket on. -/
def arguments? (s : List Char) : Option (List Char × List Char) :=
  match s.takeWhile isArgument, s.dropWhile isArgument with
  | _ :: _, ',' :: r =>
    let r := r.dropWhile Text.isBlank
    let digits := r.takeWhile Text.isDecimalDigit
    match digits, (r.dropWhile Text.isDecimalDigit).dropWhile Text.isBlank with
    | _ :: _, ')' :: rest => some (digits, rest)
    | _, _ => none
  | _, _ => none

def call? (s : List Char) : Option (List Char × List Char) :=
  if opening.isPrefixOf s then arguments? (s.drop opening.length) else none

def numeralsFrom : Nat → List Char → List (List Char)
  | 0, _ => []
  | _, [] => []
  | fuel + 1, c :: r =>
    match call? (c :: r) with
    | some (digits, rest) => digits :: numeralsFrom fuel rest
    | none => numeralsFrom fuel r

/-- The numerals by which a guard names levels, in the order of the text. -/
def numerals (guard : String) : List (List Char) := numeralsFrom guard.length guard.toList

end RuleNetwork.Precedence

namespace RuleNetwork

structure LeftRecursion where
  grammar : Grammar
  verified : Bool
  nullable : OrderedSet Int

namespace LeftRecursion

def ofGrammar (g : Grammar) (verified : Bool) : Except Fault LeftRecursion := do
  return ⟨g, verified, ← if verified then g.nullable else .ok ∅⟩

variable (a : LeftRecursion)

/-- The rules that a rule can call before it consumes anything, in the order of discovery. -/
def leftmostCalls (rule : Int) : Except Fault (List Int) := do
  let n := a.grammar.network
  let start := (← a.grammar.ruleAt rule).start
  let met ← n.silentWalk a.nullable.contains start (fun _ => false)
  let edges ← met.mapM n.edges
  let called (t : Transition) : Option Int := if t.kind == .ruleCall then t.rule else none
  return (OrderedSet.ofList (edges.flatten.filterMap fun e => called e.1)).toList

def isDirect (r : Rule) : Except Fault Bool := do return (← a.leftmostCalls r.index).contains r.index

/-- The numerals by which the guards of a rule name levels. -/
def guardNumerals (r : Rule) : Except Fault (List (List Char)) := do
  let guards := (← a.grammar.transitionsOf r.index).filter fun t => t.kind == .predicate
  return guards.flatMap fun t => Precedence.numerals (t.predicate.getD "")

def isTransformed (r : Rule) : Except Fault Bool := do return !(← a.guardNumerals r).isEmpty

/-- Each level once, the lowest first. -/
def levels (r : Rule) : Except Fault (List Nat) := do
  return (OrderedSet.ofList (← (← a.guardNumerals r).mapM Precedence.level)).toList.mergeSort

def calleesOf (order : List Int) (rule : Int) : Except Fault (List Int) := do
  return (← a.leftmostCalls rule).filter order.contains

/-- The graph in which recursion through several parser rules shows as a cycle. -/
def graph (order : List Int) : Except Fault (Digraph Int) := do
  if a.verified then return .ofRows (← order.mapM fun i => do return (i, ← a.calleesOf order i))
  let table ← a.grammar.callTable
  return .ofRows (order.map fun i => (i, (table.calleesOf i).filter order.contains))

/-- Cycles of two rules or more. -/
def indirect : Except Fault (List (List String)) := do
  let order := a.grammar.parserRules.map Rule.index
  let cycles := (← a.graph order).cycles order
  return (cycles.filter fun c => 1 < c.length).map fun c => c.map a.grammar.nameOf

end LeftRecursion

end RuleNetwork
