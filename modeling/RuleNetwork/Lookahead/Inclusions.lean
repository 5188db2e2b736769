import RuleNetwork.Container.OrderedMap
import RuleNetwork.Container.OrderedSet

/-!
Systems of inclusions between token sets. An inclusion says that some tokens, and all that some other
sets hold, belong to one set. The solution grown round by round from given sets is the least one
above them.
-/

set_option autoImplicit false

namespace RuleNetwork

structure Inclusion where
  into : Int
  tokens : List String
  sources : List Int
  deriving Repr, Inhabited

abbrev TokenTable := OrderedMap Int (OrderedSet String)

namespace TokenTable

def tokens (t : TokenTable) (key : Int) : OrderedSet String := (OrderedMap.get? t key).getD ∅

def size (t : TokenTable) : Nat := (t.entries.map fun e => e.2.size).foldr (· + ·) 0

def add (t : TokenTable) (key : Int) (names : List String) : TokenTable :=
  OrderedMap.put t key ((t.tokens key).insertAll names)

/-- Makes one inclusion hold. -/
def satisfy (t : TokenTable) (i : Inclusion) : TokenTable :=
  (i.sources.foldl (fun t s => t.add i.into (t.tokens s).toList) (t.add i.into i.tokens))

def round (t : TokenTable) (system : List Inclusion) : TokenTable := system.foldl satisfy t

def solveWithin (system : List Inclusion) : Nat → TokenTable → TokenTable
  | 0, t => t
  | bound + 1, t =>
    let t' := t.round system
    if t'.size = t.size then t' else solveWithin system bound t'

/-- Every round but the last adds a token to a set. -/
def solve (t : TokenTable) (system : List Inclusion) : TokenTable :=
  let names := t.size + (system.map fun i => i.tokens.length).foldr (· + ·) 0
  solveWithin system ((t.entries.length + system.length) * names + 1) t

end TokenTable

end RuleNetwork
