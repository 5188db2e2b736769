import Mathlib.Data.List.Basic

/-!
A reader for the part of the DOT language that draws nodes and arrows: settings, defaults, nodes and
edges, each closed by a semicolon.

A quoted name ends at the first quote that no backslash stands before. A backslash and a quote stand for a
quote; any other backslash stands for itself. So a name can be put between quotes as it is just if it
holds no quote and does not end in a backslash.
-/

set_option autoImplicit false

namespace RuleNetwork.Dot

inductive Lexeme where
  | word (text : String)
  | quoted (text : String)
  | mark (c : Char)
  | arrow
  deriving DecidableEq, Repr

/-- Where in a token the reader is. The characters read so far stand last first. -/
inductive Mode where
  | gap
  | word (done : List Char)
  | dash
  | quoted (done : List Char)
  deriving DecidableEq, Repr

def isWordChar (c : Char) : Bool := c.isAlphanum || c == '_'

def marks : List Char := ['\x7b', '\x7d', '[', ']', '=', ';', ',']

/-- The first character of a token, or one between tokens. A word does not start with a digit. -/
def begin? (c : Char) : Option (List Lexeme × Mode) :=
  if c.isWhitespace then some ([], .gap)
  else if c == '"' then some ([], .quoted [])
  else if c == '-' then some ([], .dash)
  else if marks.contains c then some ([.mark c], .gap)
  else if isWordChar c && !c.isDigit then some ([], .word [c])
  else none

/-- A quote after some characters of a quoted name: the end of the name, or a quote in it. -/
def endQuote : List Char → List Lexeme × Mode
  | '\\' :: done => ([], .quoted ('"' :: done))
  | done => ([.quoted (String.ofList done.reverse)], .gap)

/-- What a character adds: the tokens that it ends, and where the reader is then. -/
def step : Mode → Char → Option (List Lexeme × Mode)
  | .gap, c => begin? c
  | .word done, c =>
    if isWordChar c then some ([], .word (c :: done))
    else (begin? c).map fun p => (.word (String.ofList done.reverse) :: p.1, p.2)
  | .dash, c => if c = '>' then some ([.arrow], .gap) else none
  | .quoted done, c => some (if c = '"' then endQuote done else ([], .quoted (c :: done)))

def walk : Mode → List Char → Option (List Lexeme × Mode)
  | m, [] => some ([], m)
  | m, c :: cs => (step m c).bind fun p => (walk p.2 cs).map fun q => (p.1 ++ q.1, q.2)

def semicolon : Lexeme := .mark ';'

def closing : Lexeme := .mark '\x7d'

/-- The clauses up to the closing brace, without the semicolons that end them. -/
def clauses : List Lexeme → Option (List (List Lexeme))
  | [] => none
  | t :: ts =>
    if t = semicolon then (clauses ts).map ([] :: ·)
    else if t = closing ∧ ts = [] then some []
    else
      match clauses ts with
      | some (g :: gs) => some ((t :: g) :: gs)
      | _ => none

/-- What the language writes in small or capital letters alike and keeps for itself. -/
def keywords : List String := ["node", "edge", "graph", "digraph", "subgraph", "strict"]

def Lexeme.name? : Lexeme → Option String
  | .word w => if keywords.contains (String.ofList (w.toList.map Char.toLower)) then none else some w
  | .quoted s => some s
  | .mark _ | .arrow => none

inductive Statement where
  | setting (key value : String)
  | defaults (kind : String) (attributes : List (String × String))
  | node (name : String) (attributes : List (String × String))
  | edge (tail head : String) (attributes : List (String × String))
  deriving DecidableEq, Repr

/-- What stands between the brackets, the closing one included. -/
def attributes : List Lexeme → Option (List (String × String))
  | [.mark ']'] => some []
  | [a, .mark '=', b, .mark ']'] => do return [(← a.name?, ← b.name?)]
  | a :: .mark '=' :: b :: .mark ',' :: ts => do return (← a.name?, ← b.name?) :: (← attributes ts)
  | _ => none

def bracketed : List Lexeme → Option (List (String × String))
  | [] => some []
  | .mark '[' :: ts => attributes ts
  | _ => none

def statement? : List Lexeme → Option Statement
  | [a, .mark '=', b] => do return .setting (← a.name?) (← b.name?)
  | a :: .arrow :: b :: ts => do return .edge (← a.name?) (← b.name?) (← bracketed ts)
  | .word w :: .mark '[' :: ts =>
    if ["node", "edge", "graph"].contains w then (attributes ts).map (.defaults w)
    else do return .node (← (Lexeme.word w).name?) (← attributes ts)
  | a :: ts => do return .node (← a.name?) (← bracketed ts)
  | [] => none

def Statement.node? : Statement → Option String
  | .node name _ => some name
  | _ => none

def Statement.edge? : Statement → Option (String × String)
  | .edge tail head _ => some (tail, head)
  | _ => none

def statements (ts : List Lexeme) : Option (List Statement) := (clauses ts).bind (·.mapM statement?)

/-- The statements of a text that follows an opening brace. -/
def body (cs : List Char) : Option (List Statement) :=
  match walk .gap cs with
  | some (ts, .gap) => statements ts
  | _ => none

/-- The statements of a drawing with arrows. -/
def read (s : String) : Option (List Statement) :=
  match walk .gap s.toList with
  | some (.word "digraph" :: name :: .mark '\x7b' :: ts, .gap) => name.name?.bind fun _ => statements ts
  | _ => none

/-- A name that stands for itself between quotes. -/
def Plain (name : String) : Prop := '"' ∉ name.toList ∧ name.toList.getLast? ≠ some '\\'

instance (name : String) : Decidable (Plain name) := inferInstanceAs (Decidable (_ ∧ _))

theorem walk_append (m : Mode) (x y : List Char) :
    walk m (x ++ y) = (walk m x).bind fun p => (walk p.2 y).map fun q => (p.1 ++ q.1, q.2) := by
  induction x generalizing m with
  | nil => simp [walk]
  | cons c x ih =>
    simp only [List.cons_append, walk]
    cases step m c with
    | none => rfl
    | some p =>
      simp only [Option.bind_some, ih]
      cases walk p.2 x with
      | none => rfl
      | some q => cases hy : walk q.2 y <;> simp [hy]

theorem walk_append_of {m m' : Mode} {x : List Char} {ts : List Lexeme} (h : walk m x = some (ts, m'))
    (y : List Char) : walk m (x ++ y) = (walk m' y).map fun q => (ts ++ q.1, q.2) := by
  rw [walk_append, h]
  rfl

theorem walk_quoted {s : List Char} (h : '"' ∉ s) (done : List Char) :
    walk (.quoted done) s = some ([], .quoted (s.reverse ++ done)) := by
  induction s generalizing done with
  | nil => rfl
  | cons c s ih =>
    have hc : c ≠ '"' := fun hc => h (hc ▸ List.mem_cons_self ..)
    simp [walk, step, hc, ih fun hs => h (List.mem_cons_of_mem _ hs)]

theorem endQuote_of_ne {done : List Char} (h : done.head? ≠ some '\\') :
    endQuote done = ([.quoted (String.ofList done.reverse)], .gap) := by
  unfold endQuote
  split
  · exact absurd rfl h
  · rfl

theorem walk_quote (done r : List Char) :
    walk (.quoted done) ('"' :: r) =
      (walk (endQuote done).2 r).map fun q => ((endQuote done).1 ++ q.1, q.2) := by
  simp [walk, step]

theorem walk_gap_quote (cs : List Char) : walk .gap ('"' :: cs) = walk (.quoted []) cs := by
  simp [walk, step, begin?]

/-- A plain name is read up to the quote that is to end it. -/
theorem walk_plain {name : String} (h : Plain name) (r : List Char) :
    walk .gap ('"' :: (name.toList ++ '"' :: r)) =
      (walk .gap r).map fun q => (.quoted name :: q.1, q.2) := by
  have hlast : (name.toList.reverse ++ []).head? ≠ some '\\' := by
    rw [List.append_nil, List.head?_reverse]
    exact h.2
  rw [walk_gap_quote, walk_append_of (walk_quoted h.1 []), walk_quote, endQuote_of_ne hlast]
  cases walk .gap r <;> simp

/-- What a quoted name holds before a character that is no backslash, it holds when it ends. -/
theorem exists_quoted {done s : List Char} {ts : List Lexeme} (held : List Char)
    (hdone : done.head? ≠ some '\\') (h : walk (.quoted (held ++ done)) s = some (ts, .gap)) :
    ∃ x ts', ts = .quoted x :: ts' ∧ done.reverse <+: x.toList := by
  induction s generalizing held ts with
  | nil => simp [walk] at h
  | cons c s ih =>
    by_cases hc : c = '"'
    · subst hc
      rw [walk_quote] at h
      by_cases hheld : (held ++ done).head? = some '\\'
      · obtain _ | ⟨b, held⟩ := held
        · exact absurd hheld hdone
        · obtain rfl : b = '\\' := by simpa using hheld
          refine ih ('"' :: held) ?_
          simpa [endQuote] using h
      · rw [endQuote_of_ne hheld] at h
        obtain ⟨q, -, hq⟩ := Option.map_eq_some_iff.1 h
        obtain ⟨rfl, -⟩ := Prod.mk.inj hq
        refine ⟨_, _, rfl, ?_⟩
        rw [String.toList_ofList, List.reverse_append]
        exact List.prefix_append _ _
    · refine ih (c :: held) ?_
      simpa [walk, step, hc] using h

/-- What is read up to the first quote: a name that ends there, or one with a quote where a backslash
stood. -/
theorem read_first {s r : List Char} {x : String} {ts : List Lexeme} (hs : '"' ∉ s)
    (h : walk .gap ('"' :: (s ++ '"' :: r)) = some (.quoted x :: ts, .gap)) :
    (x.toList = s ∧ s.getLast? ≠ some '\\') ∨ ∃ s', s = s' ++ ['\\'] ∧ s' ++ ['"'] <+: x.toList := by
  rw [walk_gap_quote, walk_append_of (walk_quoted hs []), walk_quote, List.append_nil] at h
  by_cases hlast : s.getLast? = some '\\'
  · obtain ⟨s', rfl⟩ := List.getLast?_eq_some_iff.1 hlast
    refine .inr ⟨s', rfl, ?_⟩
    have hquote : walk (.quoted ('"' :: s'.reverse)) r = some (.quoted x :: ts, .gap) := by
      simpa [endQuote] using h
    obtain ⟨x', ts', heq, hfront⟩ := exists_quoted [] (by simp) hquote
    obtain ⟨rfl, rfl⟩ : x = x' ∧ ts = ts' := by simpa using heq
    simpa using hfront
  · rw [endQuote_of_ne (by rwa [List.head?_reverse]), List.reverse_reverse] at h
    obtain ⟨p, hp, hx⟩ := Option.map_eq_some_iff.1 h
    obtain ⟨q, -, rfl⟩ := Option.map_eq_some_iff.1 hp
    obtain ⟨rfl, -⟩ : String.ofList s = x ∧ q.1 = ts := by simpa using (Prod.mk.inj hx).1
    exact .inl ⟨String.toList_ofList, hlast⟩

/-- Only a plain name is read back. -/
theorem plain_of_walk {name : String} {r : List Char} {ts : List Lexeme}
    (h : walk .gap ('"' :: (name.toList ++ '"' :: r)) = some (.quoted name :: ts, .gap)) : Plain name := by
  have hne : ∀ s' l, s' ++ ['"'] <+: s' ++ '\\' :: l → False := fun s' l hl => by
    obtain ⟨hquote, -⟩ := List.cons_prefix_cons.1 ((List.prefix_append_right_inj s').1 hl)
    exact absurd hquote (by decide)
  by_cases hmem : '"' ∈ name.toList
  · obtain ⟨s, s₂, hname, hs⟩ := List.eq_append_cons_of_mem hmem
    rw [hname, List.append_assoc, List.cons_append] at h
    obtain ⟨hx, -⟩ | ⟨s', rfl, hfront⟩ := read_first hs h
    · rw [hname] at hx
      simp at hx
    · rw [hname, List.append_assoc] at hfront
      exact (hne s' _ hfront).elim
  · obtain ⟨-, hlast⟩ | ⟨s', hname, hfront⟩ := read_first hmem h
    · exact ⟨hmem, hlast⟩
    · rw [hname] at hfront
      exact (hne s' _ hfront).elim

theorem clauses_append {g : List Lexeme} (hg : semicolon ∉ g) (ts : List Lexeme) :
    clauses (g ++ semicolon :: ts) = (clauses ts).map (g :: ·) := by
  induction g with
  | nil => simp [clauses]
  | cons t g ih =>
    have ht : t ≠ semicolon := fun ht => hg (ht ▸ List.mem_cons_self ..)
    have hend : ¬ (t = closing ∧ g ++ semicolon :: ts = []) := fun h => by simp at h
    rw [List.cons_append, clauses, if_neg ht, if_neg hend, ih fun h => hg (List.mem_cons_of_mem _ h)]
    cases clauses ts <;> rfl

theorem exists_clause {x : String} {ts : List Lexeme} {l : List (List Lexeme)}
    (h : clauses (.quoted x :: ts) = some l) : ∃ g l', l = (.quoted x :: g) :: l' := by
  rw [clauses, if_neg (by simp [semicolon]), if_neg (by simp [closing])] at h
  split at h
  · cases h
    exact ⟨_, _, rfl⟩
  · cases h

/-- A node statement that begins with a quoted name is about that name. -/
theorem name_of_statement {x name : String} {g : List Lexeme} {l : List (String × String)}
    (h : statement? (.quoted x :: g) = some (.node name l)) : name = x := by
  unfold statement? at h
  split at h
  · obtain ⟨a, -, h⟩ := Option.bind_eq_some_iff.1 h
    obtain ⟨b, -, h⟩ := Option.bind_eq_some_iff.1 h
    cases h
  · obtain ⟨a, -, h⟩ := Option.bind_eq_some_iff.1 h
    obtain ⟨b, -, h⟩ := Option.bind_eq_some_iff.1 h
    obtain ⟨l', -, h⟩ := Option.bind_eq_some_iff.1 h
    cases h
  · cases ‹Lexeme.quoted x :: g = _›
  · rename_i heq
    cases heq
    obtain ⟨y, hy, h⟩ := Option.bind_eq_some_iff.1 h
    obtain ⟨l', -, h⟩ := Option.bind_eq_some_iff.1 h
    cases hy
    cases h
    rfl
  · cases h

/-- A clause that stands first adds its statement. -/
theorem body_append {x : List Char} {g : List Lexeme} {st : Statement}
    (hx : walk .gap x = some (g ++ [semicolon], .gap)) (hg : semicolon ∉ g) (hst : statement? g = some st)
    (rest : List Char) : body (x ++ rest) = (body rest).map (st :: ·) := by
  unfold body
  rw [walk_append_of hx]
  obtain _ | ⟨ts, m⟩ := walk .gap rest
  · rfl
  · cases m with
    | gap =>
      simp only [Option.map_some, List.append_assoc, List.singleton_append, statements, clauses_append hg]
      cases clauses ts with
      | none => rfl
      | some l => cases hl : l.mapM statement? <;> simp [List.mapM_cons, hst, hl]
    | word _ | dash | quoted _ => rfl

theorem body_gap {x : List Char} (hx : walk .gap x = some ([], .gap)) (rest : List Char) :
    body (x ++ rest) = body rest := by
  unfold body
  rw [walk_append_of hx]
  simp

theorem read_eq_body {s : String} {x cs : List Char} {name : Lexeme} {w : String} (hs : s.toList = x ++ cs)
    (hx : walk .gap x = some ([.word "digraph", name, .mark '\x7b'], .gap)) (hname : name.name? = some w) :
    read s = body cs := by
  unfold read body
  rw [hs, walk_append_of hx]
  obtain _ | ⟨ts, m⟩ := walk .gap cs
  · rfl
  · cases m <;> simp [hname]

/-- A node statement that is read back as it was meant has a plain name. -/
theorem plain_of_body {name : String} {r : List Char} {l : List (String × String)} {sts : List Statement}
    (h : body ('"' :: (name.toList ++ '"' :: r)) = some (.node name l :: sts)) : Plain name := by
  unfold body at h
  split at h
  · rename_i ts hts
    obtain ⟨x, ts', rfl, -⟩ := exists_quoted [] (by simp) ((walk_gap_quote _).symm.trans hts)
    obtain ⟨cs, hcs, h⟩ := Option.bind_eq_some_iff.1 h
    obtain ⟨g, cs', rfl⟩ := exists_clause hcs
    rw [List.mapM_cons] at h
    obtain ⟨st, hst, h⟩ := Option.bind_eq_some_iff.1 h
    obtain ⟨sts', -, h⟩ := Option.bind_eq_some_iff.1 h
    obtain ⟨rfl, rfl⟩ : st = .node name l ∧ sts' = sts := by simpa using h
    obtain rfl := name_of_statement hst
    exact plain_of_walk hts
  · cases h

end RuleNetwork.Dot
