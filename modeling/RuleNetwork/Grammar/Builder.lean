import RuleNetwork.Grammar.Layout

/-!
Building a grammar from declarations. A declaration that fails is reported and the next one goes on
from what the builder holds by then; a build may be repeated after further declarations.
-/

set_option autoImplicit false

namespace RuleNetwork

/-- A declared rule. Without a body it is one terminal over its pattern. -/
structure Declaration where
  name : String
  kind : RuleKind
  body : Option (Element String)
  pattern : Option String := none
  line : Option Int := none
  deriving Inhabited

structure Builder where
  name : String
  entryRules : List String := []
  rules : List Declaration := []
  literals : List TokenType := []
  named : List TokenType := []
  deriving Inhabited

/-- A step of a builder. What it changed before a fault stays changed. -/
abbrev Building := ExceptT Fault (StateM Builder)

namespace Builder

def declares (b : Builder) (name : String) : Bool := b.rules.any fun d => d.name == name

def index? (b : Builder) (name : String) : Option Nat := b.rules.findIdx? fun d => d.name == name

def declare (d : Declaration) : Building Unit := do
  let b ← get
  if b.declares d.name then throw (.grammar (.duplicateRule d.name))
  set { b with rules := b.rules ++ [d] }

def rule (name : String) (body : Element String) (line : Option Int) : Building Unit :=
  declare { name, kind := .parser, body := some body, line }

def token (name pattern : String) (skip : Bool) : Building Unit := do
  let b ← get
  if b.named.any fun t => t.name == name then throw (.grammar (.duplicateToken name))
  let t : TokenType := { name, pattern, skip }
  set { b with named := b.named ++ [t] }

/-- A lexer rule that is no fragment is a token too. -/
def lexerRule (name pattern : String) (skip isFragment : Bool) (body : Option (Element String)) :
    Building Unit := do
  let kind : RuleKind := if isFragment then .fragment else .lexer
  declare { name, kind, body, pattern := some pattern }
  unless isFragment do token name pattern skip

def quoteLiteral (text : String) : String := s!"'{text}'"

def addLiteral (text : String) (b : Builder) : Builder :=
  if b.literals.any fun t => t.name == quoteLiteral text then b
  else
    let t : TokenType := { name := quoteLiteral text, pattern := text, isLiteral := true }
    { b with literals := b.literals ++ [t] }

/-- Declares a literal token and gives its quoted name. -/
def literal (text : String) : Building String := do
  modify (addLiteral text)
  return quoteLiteral text

/-- The text between the quotes of a quoted name. -/
def unquoted? (name : String) : Option String :=
  match name.toList with
  | '\'' :: r =>
    if 2 ≤ r.length ∧ r.getLast? = some '\'' then some (String.ofList r.dropLast) else none
  | _ => none

/-- A token that a parser rule names has to be quoted, declared or the end of input. -/
def resolveToken (d : Declaration) (name : String) : Building Unit :=
  if d.kind ≠ .parser then pure ()
  else
    match unquoted? name with
    | some text => modify (addLiteral text)
    | none => do
      let b ← get
      unless name == endOfInput || b.named.any (fun t => t.name == name) do
        throw (.grammar (.undefinedToken d.name name))

mutual

/-- The body with its calls resolved to rule numbers. Literals that it names are declared. -/
def resolve (d : Declaration) : Element String → Building (Element Nat)
  | .token names => do
    names.forM (resolveToken d)
    return .token names
  | .call callee => do
    let b ← get
    match b.index? callee with
    | some i => return .call i
    | none => throw (.grammar (.undefinedRule d.name callee))
  | .guard text => return .guard text
  | .empty => return .empty
  | .sequence items => do
    let items ← resolveAll d items
    return .sequence items
  | .choice options => do
    let options ← resolveAll d options
    return .choice options
  | .star body => do
    let body ← resolve d body
    return .star body
  | .plus body => do
    let body ← resolve d body
    return .plus body
  | .option body => do
    let body ← resolve d body
    return .option body
  | .unknown => throw (.grammar (.unknownElement d.name))

def resolveAll (d : Declaration) : List (Element String) → Building (List (Element Nat))
  | [] => return []
  | e :: r => do
    let first ← resolve d e
    let rest ← resolveAll d r
    return first :: rest

end

/-- The one terminal of a rule without a body: its pattern, or its name if the pattern is empty. -/
def terminalText (d : Declaration) : String :=
  match d.pattern with
  | some p => if p.isEmpty then d.name else p
  | none => d.name

def resolveBody (d : Declaration) : Building (Element Nat) :=
  match d.body with
  | some body => resolve d body
  | none => return .token [terminalText d]

def resolveRules : List Declaration → Building (List (Element Nat))
  | [] => return []
  | d :: r => do
    let body ← resolveBody d
    let rest ← resolveRules r
    return body :: rest

def ruleOf (i : Nat) (d : Declaration) : Rule where
  index := Int.ofNat i
  name := d.name
  kind := d.kind
  alternatives := Int.ofNat (d.body.elim 1 Element.alternatives)
  start := startState i
  stop := stopState i
  line := d.line

def build : Building Grammar := do
  let rules := (← get).rules
  let bodies ← resolveRules rules
  let b ← get
  match b.entryRules.find? fun name => !b.declares name with
  | some name => throw (.grammar (.undeclaredEntry name))
  | none =>
    return {
      name := b.name
      rules := (rules.mapIdx ruleOf).toArray
      network := networkOf bodies
      tokens := b.literals ++ b.named
      entryRules := b.entryRules }

end Builder

end RuleNetwork
