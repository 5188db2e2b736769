import RuleNetwork.Grammar.Basic
import RuleNetwork.Json.Reader
import RuleNetwork.Json.Schema
import RuleNetwork.Text.Sha256

/-!
Grammars as JSON documents. Writing lists every field; reading fills in what has a default and passes
over what it does not know. The fingerprint of a grammar is the digest of its compact document.

What writes and reads the documents is a parameter. The program runs with the codec at hand; nothing is
built into how a grammar is checked after it has been read.
-/

set_option autoImplicit false

namespace RuleNetwork

open Json (asObject asList asString asInt asBool asOneOf required absentOr nullable ofList ofOption
  ofStrings)

namespace Transition

def toJson (t : Transition) : Json :=
  .obj [("kind", .str t.kind.name), ("target", .int t.target), ("tokens", ofStrings t.tokens),
    ("rule", ofOption .int t.rule), ("follow", ofOption .int t.follow),
    ("predicate", ofOption .str t.predicate)]

def ofJson (v : Json) : Json.Fit Transition := do
  let o ← asObject v
  let kind ← required o "kind" (asOneOf TransitionKind.name TransitionKind.all)
  let target ← required o "target" asInt
  let tokens ← absentOr o "tokens" [] (asList asString)
  let rule ← absentOr o "rule" none (nullable asInt)
  let follow ← absentOr o "follow" none (nullable asInt)
  let predicate ← absentOr o "predicate" none (nullable asString)
  return { kind, target, tokens, rule, follow, predicate }

end Transition

namespace State

def toJson (s : State) : Json :=
  .obj [("id", .int s.id), ("rule", .int s.rule), ("kind", .str s.kind.name),
    ("transitions", ofList .int s.transitions)]

def ofJson (v : Json) : Json.Fit State := do
  let o ← asObject v
  let id ← required o "id" asInt
  let rule ← required o "rule" asInt
  let kind ← absentOr o "kind" .basic (asOneOf StateKind.name StateKind.all)
  let transitions ← absentOr o "transitions" [] (asList asInt)
  return { id, rule, kind, transitions }

end State

namespace Network

def toJson (n : Network) : Json :=
  .obj [("states", ofList State.toJson n.states.toList),
    ("transitions", ofList Transition.toJson n.transitions.toList)]

def ofJson (v : Json) : Json.Fit Network := do
  let o ← asObject v
  let states ← absentOr o "states" [] (asList State.ofJson)
  let transitions ← absentOr o "transitions" [] (asList Transition.ofJson)
  return { states := states.toArray, transitions := transitions.toArray }

end Network

namespace Rule

def toJson (r : Rule) : Json :=
  .obj [("index", .int r.index), ("name", .str r.name), ("kind", .str r.kind.name),
    ("alternative_count", .int r.alternatives), ("start_state", .int r.start),
    ("stop_state", .int r.stop), ("line", ofOption .int r.line)]

def ofJson (v : Json) : Json.Fit Rule := do
  let o ← asObject v
  let index ← required o "index" asInt
  let name ← required o "name" asString
  let kind ← absentOr o "kind" .parser (asOneOf RuleKind.name RuleKind.all)
  let alternatives ← absentOr o "alternative_count" 1 asInt
  let start ← required o "start_state" asInt
  let stop ← required o "stop_state" asInt
  let line ← absentOr o "line" none (nullable asInt)
  return { index, name, kind, alternatives, start, stop, line }

end Rule

namespace TokenType

def toJson (t : TokenType) : Json :=
  .obj [("name", .str t.name), ("pattern", .str t.pattern), ("is_literal", .bool t.isLiteral),
    ("skip", .bool t.skip)]

def ofJson (v : Json) : Json.Fit TokenType := do
  let o ← asObject v
  let name ← required o "name" asString
  let pattern ← required o "pattern" asString
  let isLiteral ← absentOr o "is_literal" false asBool
  let skip ← absentOr o "skip" false asBool
  return { name, pattern, isLiteral, skip }

end TokenType

namespace Grammar

def toJson (g : Grammar) : Json :=
  .obj [("name", .str g.name), ("rules", ofList Rule.toJson g.rules.toList),
    ("automaton", g.network.toJson), ("tokens", ofList TokenType.toJson g.tokens),
    ("entry_rules", ofStrings g.entryRules)]

def ofJson (v : Json) : Json.Fit Grammar := do
  let o ← asObject v
  let name ← required o "name" asString
  let rules ← absentOr o "rules" [] (asList Rule.ofJson)
  let network ← absentOr o "automaton" {} Network.ofJson
  let tokens ← absentOr o "tokens" [] (asList TokenType.ofJson)
  let entryRules ← absentOr o "entry_rules" [] (asList asString)
  return { name, rules := rules.toArray, network, tokens, entryRules }

/-- The first rule that does not bear the number of its place. -/
def misplacedRule? (g : Grammar) : Option GrammarFlaw :=
  ((g.rules.toList.zipIdx).find? fun (r, i) => r.index != Int.ofNat i).map fun (r, i) =>
    .misplacedRule r.name r.index i

/-- The first state that does not bear the number of its place. -/
def misplacedState? (g : Grammar) : Option GrammarFlaw :=
  ((g.network.states.toList.zipIdx).find? fun (s, i) => s.id != Int.ofNat i).map fun (s, i) =>
    .misplacedState s.id i

/-- Every rule and state bears the number of its place. -/
def inPlace (g : Grammar) : Except Fault Grammar :=
  match g.misplacedRule?, g.misplacedState? with
  | some flaw, _ | none, some flaw => .error (.grammar flaw)
  | none, none => .ok g

end Grammar

/-- Why a text is not read as a grammar, and where in its document. -/
structure Misreading where
  path : List String
  detail : String

/-- What writes grammars as documents, compact and indented, and reads the bytes of a document. -/
structure GrammarCodec where
  compact : Grammar → String
  indented : Grammar → String
  read : Text.Bytes → Except Misreading Grammar

namespace GrammarCodec

/-- The grammar that a value describes, as the codec at hand sees it. -/
def readValue (v : Json) : Except Misreading Grammar :=
  (Grammar.ofJson v).mapError fun m => ⟨m.path, m.misfit.message⟩

/-- The codec at hand. -/
def builtIn : GrammarCodec where
  compact g := g.toJson.compact
  indented g := g.toJson.indented
  read bytes :=
    match Json.read (Text.Utf8.symbols bytes) with
    | .ok v => readValue v
    | .error message => .error ⟨[], s!"Invalid JSON: {message}"⟩

end GrammarCodec

namespace Grammar

/-- What is read, whatever numbers it bears, or the fault of a document that is no grammar's. -/
def ofReading (x : Except Misreading Grammar) : Except Fault Grammar :=
  x.mapError fun m => .grammar (.malformed (".".intercalate m.path) m.detail)

section Codec

variable (codec : GrammarCodec)

/-- A grammar from the bytes of its document. -/
def ofBytes (bytes : Text.Bytes) : Except Fault Grammar := do
  let g ← ofReading (codec.read bytes)
  g.inPlace

/-- A grammar from the text of its document. -/
def ofText (s : String) : Except Fault Grammar := ofBytes codec (Text.Utf8.encode s)

/-- The document that files hold. -/
def dump (g : Grammar) : String := codec.indented g

def fingerprint (g : Grammar) : String := Text.Sha256.digest (Text.Utf8.encode (codec.compact g))

end Codec

end Grammar

end RuleNetwork
