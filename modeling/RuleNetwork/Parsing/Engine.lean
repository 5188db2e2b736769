import RuleNetwork.Parsing.Parse
import RuleNetwork.Sample.Lexer

/-!
An engine that keeps what it has prepared of the grammars it was last asked about: the lexer, and the
tables of their parses. A grammar is known by a handle; two equal grammars may go under two handles. What
fails to be prepared is not kept.
-/

set_option autoImplicit false

namespace RuleNetwork

structure Prepared where
  lexer : Lexer
  tables : ParseTables

def Prepared.ofGrammar (patterns : PatternEngine) (g : Grammar) : Except Fault Prepared := do
  let lexer ← Lexer.ofGrammar patterns g
  let tables ← ParseTables.ofGrammar g
  return ⟨lexer, tables⟩

structure Engine where
  limit : Nat
  patterns : PatternEngine := .builtIn
  /-- Least recently used first. -/
  prepared : List (Nat × Prepared) := []

/-- Work with an engine, which keeps what it has prepared even if the work fails. -/
abbrev Parsing := ExceptT Fault (StateM Engine)

namespace Engine

def defaultLimit : Int := 16

def withLimit (limit : Int) : Except Fault Engine :=
  if limit < 1 then .error (.tooSmall "max_prepared" limit) else .ok { limit := limit.toNat }

/-- Puts what is prepared in the last place and drops the first ones beyond the limit. -/
def keep (e : Engine) (handle : Nat) (p : Prepared) : Engine :=
  let kept := e.prepared.filter (fun x => x.1 != handle) ++ [(handle, p)]
  { e with prepared := kept.drop (kept.length - e.limit) }

def prepare (handle : Nat) (g : Grammar) : Parsing Prepared := do
  let e ← get
  let p ← match e.prepared.find? fun x => x.1 == handle with
    | some (_, p) => pure p
    | none => (Prepared.ofGrammar e.patterns g : Except Fault Prepared)
  set (e.keep handle p)
  return p

def tokenize (handle : Nat) (g : Grammar) (text : String) : Parsing TokenStream := do
  let p ← prepare handle g
  (p.lexer.tokenize text none : Except Fault TokenStream)

def parse (handle : Nat) (g : Grammar) (rule : Int) (tokens : TokenStream) (granted : Option Nat) :
    Parsing Execution := do
  let p ← prepare handle g
  (((p.tables.parse rule tokens).run granted).map Prod.fst : Except Fault Execution)

end Engine

end RuleNetwork
