import RuleNetwork.Grammar.Network

/-!
A compiled grammar: its rules, the network that lays them out, the tokens that sample text is cut
into and the rules at which a parse may start.
-/

set_option autoImplicit false

namespace RuleNetwork

inductive RuleKind where
  | parser
  | lexer
  | fragment
  deriving DecidableEq, Repr, Inhabited

namespace RuleKind

def name : RuleKind → String
  | .parser => "parser"
  | .lexer => "lexer"
  | .fragment => "fragment"

def all : List RuleKind := [.parser, .lexer, .fragment]

end RuleKind

structure Rule where
  index : Int
  name : String
  kind : RuleKind := .parser
  alternatives : Int := 1
  start : Int
  stop : Int
  line : Option Int := none
  deriving DecidableEq, Repr, Inhabited

/-- A literal token matches its own text, any other a pattern. Skipped tokens are dropped. -/
structure TokenType where
  name : String
  pattern : String
  isLiteral : Bool := false
  skip : Bool := false
  deriving DecidableEq, Repr, Inhabited

structure Grammar where
  name : String
  rules : Array Rule := #[]
  network : Network := {}
  tokens : List TokenType := []
  entryRules : List String := []
  deriving DecidableEq, Repr, Inhabited

/-- The token that ends every input. -/
def endOfInput : String := "EOF"

namespace Grammar

def ruleNames (g : Grammar) : Array String := g.rules.map Rule.name

def hasRule (g : Grammar) (name : String) : Bool := g.rules.any fun r => r.name == name

/-- The number that the first rule of that name bears. -/
def ruleIndex (g : Grammar) (name : String) : Except Fault Int :=
  match g.rules.find? fun r => r.name == name with
  | some r => .ok r.index
  | none => .error (.ruleNotFound name)

/-- The rule in the place that the first rule of that name gives as its own. -/
def rule (g : Grammar) (name : String) : Except Fault Rule := do
  let i ← g.ruleIndex name
  match Position.get? g.rules i with
  | some r => .ok r
  | none => .error .tuplePosition

def ruleAt (g : Grammar) (index : Int) : Except Fault Rule :=
  match Position.forward? g.rules index with
  | some r => .ok r
  | none => .error (.dangling (.rule index))

def ruleList (g : Grammar) : List Rule := g.rules.toList

def parserRules (g : Grammar) : List Rule := g.ruleList.filter fun r => r.kind == .parser

def decisions (g : Grammar) : List Decision := g.network.decisions

/-- The declared entry rules, or else the first parser rule. -/
def defaultEntryRules (g : Grammar) : List String :=
  if g.entryRules.isEmpty then (g.parserRules.take 1).map Rule.name else g.entryRules

/-- The entry rules asked for, or else the default ones. -/
def entriesOr (g : Grammar) (asked : List String) : List String :=
  if asked.isEmpty then g.defaultEntryRules else asked

def token? (g : Grammar) (name : String) : Option TokenType :=
  g.tokens.find? fun t => t.name == name

end Grammar

end RuleNetwork
