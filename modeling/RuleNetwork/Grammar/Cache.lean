import RuleNetwork.Grammar.Document

/-!
Grammars read from files, kept by the digest of their content. Past its limit the cache drops what was
used longest ago.
-/

set_option autoImplicit false

namespace RuleNetwork

/-- A grammar as it came from a file. Two loads share a reading only if the second found it kept. -/
structure Reading where
  number : Nat
  grammar : Grammar

structure GrammarCache where
  limit : Nat
  /-- By the digest of the content, least recently used first. -/
  entries : List (String × Reading) := []
  hits : Nat := 0
  misses : Nat := 0
  evictions : Nat := 0

/-- Operations on a cache. What one has changed before a fault stays changed. -/
abbrev Caching := ExceptT Fault (StateM GrammarCache)

/-- The key under which content is kept. -/
def contentKey (bytes : Text.Bytes) : String := Text.Sha256.digest bytes

namespace GrammarCache

def defaultLimit : Int := 32

def checkLimit (limit : Int) : Except Fault Nat :=
  if limit < 1 then .error (.tooSmall "max_entries" limit) else .ok limit.toNat

def withLimit (limit : Int) : Except Fault GrammarCache := do return { limit := ← checkLimit limit }

section Changes

variable (c : GrammarCache)

def size : Nat := c.entries.length

def get? (key : String) : Option Reading := (c.entries.find? fun e => e.1 == key).map Prod.snd

/-- Puts an entry in the last place. -/
def touch (key : String) (r : Reading) : GrammarCache :=
  { c with entries := c.entries.filter (fun e => e.1 != key) ++ [(key, r)] }

/-- Drops the first entries beyond the limit. -/
def evict : GrammarCache :=
  let excess := c.entries.length - c.limit
  { c with entries := c.entries.drop excess, evictions := c.evictions + excess }

end Changes

/-- The reading kept for the content, or else a new one. Readings are numbered in the order in which they
are made. -/
def load (codec : GrammarCodec) (path : String) (content : Except ReadFault Text.Bytes) :
    Caching Reading := do
  match content with
  | .error f => throw (.grammar (.unreadable path f))
  | .ok bytes =>
    match (← get).get? (contentKey bytes) with
    | some r =>
      modify fun c => { c.touch (contentKey bytes) r with hits := c.hits + 1 }
      return r
    | none =>
      let g ← Grammar.ofBytes codec bytes
      let r : Reading := ⟨(← get).misses, g⟩
      modify fun c => ({ c.touch (contentKey bytes) r with misses := c.misses + 1 }).evict
      return r

def resize (limit : Int) : Caching Unit := do
  let limit ← checkLimit limit
  modify fun c => { c with limit }.evict

def clear : Caching Unit := modify fun c => { c with entries := [] }

end GrammarCache

/-- The grammar in a file, read anew. -/
def Grammar.ofFile (codec : GrammarCodec) (path : String) (content : Except ReadFault Text.Bytes) :
    Except Fault Grammar :=
  match content with
  | .ok bytes => Grammar.ofBytes codec bytes
  | .error f => .error (.grammar (.unreadable path f))

end RuleNetwork
