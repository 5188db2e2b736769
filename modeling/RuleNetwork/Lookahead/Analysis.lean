import RuleNetwork.Grammar.Walk
import RuleNetwork.Lookahead.Inclusions
import RuleNetwork.Lookahead.Set

/-!
Static lookahead. FIRST of a rule holds the tokens that can be consumed first inside it, FOLLOW the
tokens that can come after it. Both are least solutions of inclusions read off scans of the network: a
scan goes on from a state without input, stays in the rule and ends at its stop state.
-/

set_option autoImplicit false

namespace RuleNetwork

/-- What a scan meets. A callee contributes its own FIRST set. -/
structure Scan where
  tokens : List String := []
  callees : List Int := []
  reachesStop : Bool := false
  hitsPredicate : Bool := false
  deriving Repr, Inhabited

namespace Scan

def step (s : Scan) (t : Transition) : Scan :=
  match t.kind with
  | .terminal => { s with tokens := s.tokens ++ t.tokens }
  | .ruleCall => { s with callees := s.callees ++ t.rule.toList }
  | .predicate => { s with hitsPredicate := true }
  | .epsilon => s

def merge (a b : Scan) : Scan where
  tokens := a.tokens ++ b.tokens
  callees := a.callees ++ b.callees
  reachesStop := a.reachesStop || b.reachesStop
  hitsPredicate := a.hitsPredicate || b.hitsPredicate

def inclusion (s : Scan) (into : Int) : Inclusion := ⟨into, s.tokens, s.callees⟩

end Scan

namespace Grammar

variable (g : Grammar) (nullable : Int → Bool)

/-- The edges that a scan looks at; it does not go on from the stop state. -/
def scanEdges (stop s : Int) : Except Fault (List (Transition × Int)) :=
  if s = stop then .ok [] else g.network.edges s

def scanSteps (stop s : Int) : Except Fault (List Int) := do
  return ((← g.scanEdges stop s).filter fun e => Network.isSilent nullable e.1).map Prod.snd

def scan (s : Int) : Except Fault Scan := do
  let stop := (← g.ruleAt (← g.network.state s).rule).stop
  let met ← Search.depthFirst (g.scanSteps nullable stop) (fun _ => false) g.network.walkBound s
  let edges ← met.mapM (g.scanEdges stop)
  let found := (edges.flatten.map Prod.fst).foldl Scan.step {}
  return { found with reachesStop := met.contains stop }

/-- A place where one rule calls another, and where it resumes. -/
structure CallSite where
  caller : Int
  callee : Int
  follow : Int

def callSites : Except Fault (List CallSite) := do
  let perRule ← g.ruleList.mapM fun r => do
    return (← g.calls r.index).filterMap fun t => do return ⟨r.index, ← t.rule, ← t.follow⟩
  return perRule.flatten

def emptyTable : TokenTable := .ofList (g.ruleList.map fun r => (r.index, ∅))

def firstTable : Except Fault TokenTable := do
  let system ← g.ruleList.mapM fun r => do return (← g.scan nullable r.start).inclusion r.index
  return g.emptyTable.solve system

/-- The tokens of a scan, given the FIRST sets. -/
def scanTokens (first : TokenTable) (s : Scan) : List String :=
  s.tokens ++ s.callees.flatMap fun c => (first.tokens c).toList

/-- What comes after a call: the tokens met from where the caller resumes, and if the caller may end
there, what comes after the caller. -/
def followInclusion (first : TokenTable) (site : CallSite) (s : Scan) : Inclusion :=
  ⟨site.callee, scanTokens first s, if s.reachesStop then [site.caller] else []⟩

def followTable (first : TokenTable) (entries : List Int) : Except Fault TokenTable := do
  let start := entries.foldl (fun t e => t.add e [endOfInput]) g.emptyTable
  let sites ← g.callSites
  let scans ← sites.mapM fun site => g.scan nullable site.follow
  if let some site := sites.find? fun site => (start.get? site.callee).isNone then
    throw (.missingKey site.callee)
  return start.solve ((sites.zip scans).map fun (site, s) => followInclusion first site s)

end Grammar

structure Lookahead where
  grammar : Grammar
  /-- Whether only the first decision of a rule counts as its conflict. -/
  firstOnly : Bool
  nullable : OrderedSet Int
  first : TokenTable
  follow : TokenTable

namespace Lookahead

/-- The end of input follows the entry rules. -/
def ofGrammar (g : Grammar) (asked : List String) (firstOnly : Bool) : Except Fault Lookahead := do
  let entries ← (g.entriesOr asked).mapM g.ruleIndex
  let nullable ← g.nullable
  let first ← g.firstTable nullable.contains
  let follow ← g.followTable nullable.contains first entries
  return ⟨g, firstOnly, nullable, first, follow⟩

variable (a : Lookahead)

def isNullable (rule : String) : Except Fault Bool := do
  return a.nullable.contains (← a.grammar.ruleIndex rule)

def firstOf (rule : String) : Except Fault LookaheadSet := do
  let i ← a.grammar.ruleIndex rule
  return .of (a.first.tokens i).toList (a.nullable.contains i) false

def followOf (rule : String) : Except Fault LookaheadSet := do
  return .ofTokens (a.follow.tokens (← a.grammar.ruleIndex rule)).toList

def decision (id : Int) : Except Fault Decision :=
  match a.grammar.decisions.find? fun d => Int.ofNat d.id == id with
  | some d => .ok d
  | none => .error (.dangling (.decision id))

/-- The state after the first step of an alternative. -/
def landing (t : Transition) : Option Int := if t.kind == .ruleCall then t.follow else some t.target

/-- All that an alternative meets before it consumes a token or its rule ends. -/
def alternativeScan (d : Decision) (t : Transition) : Except Fault Scan := do
  let start := Scan.step {} t
  if !Network.isSilent a.nullable.contains t then return start
  match landing t with
  | none => return start
  | some s =>
    if (← a.grammar.network.state s).rule = d.rule then
      return start.merge (← a.grammar.scan a.nullable.contains s)
    else return start

/-- An alternative that meets a guard is dynamic. One that may end its rule is followed by all that
may follow the rule. -/
def alternativeSet (follow : OrderedSet String) (s : Scan) : LookaheadSet :=
  if s.hitsPredicate then .makeDynamic
  else
    .ofTokens (Grammar.scanTokens a.first s ++ if s.reachesStop then follow.toList else [])

def lookaheads (d : Decision) : Except Fault (List LookaheadSet) := do
  match a.follow.get? d.rule with
  | none => throw (.missingKey d.rule)
  | some follow =>
    (← a.grammar.network.outgoing d.state).mapM fun t => do
      return a.alternativeSet follow (← a.alternativeScan d t)

/-- The tokens that predict more than one alternative. -/
def conflictingTokens (d : Decision) : Except Fault LookaheadSet := do
  return LookaheadSet.shared (← a.lookaheads d) {}

def hasConflict (d : Decision) : Except Fault Bool := do return 0 < (← a.conflictingTokens d).size

/-- The decisions of a rule, nearest to its start first. -/
def ruleDecisions (r : Rule) : Except Fault (List Decision) := do
  let own := (a.grammar.decisions.filter fun d => d.rule == r.index).reverse
  return (← a.grammar.walk r.index).filterMap fun s => own.find? fun d => d.state == s

def ruleConflicts (rule : String) : Except Fault (List Nat) := do
  let decisions ← a.ruleDecisions (← a.grammar.rule rule)
  let counted := if a.firstOnly then decisions.take 1 else decisions
  return (← counted.filterM a.hasConflict).map Decision.id

end Lookahead

end RuleNetwork
