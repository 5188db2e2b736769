import RuleNetwork.Proofs.Json.Numeral
import RuleNetwork.Proofs.Json.Quoted

/-!
One step of the reader over a written value: blanks are passed over, and what a container holds is read
item by item.
-/

set_option autoImplicit false

namespace RuleNetwork.Json

open Text (Symbol)

/-- A number does not go on with a blank. -/
theorem not_part_of_isSpace {c : Symbol} (h : isSpace c = true) :
    isDigit c = false ∧ c ≠ .char '.' ∧ isExponentMark c = false := by
  have hc : c = .char ' ' ∨ c = .char '\n' ∨ c = .char '\t' ∨ c = .char '\r' := by
    simpa [isSpace, or_assoc] using h
  obtain rfl | rfl | rfl | rfl := hc <;> decide

theorem skipSpace_cons {c : Symbol} {r : List Symbol} (h : isSpace c = false) :
    skipSpace (c :: r) = c :: r :=
  List.dropWhile_cons_of_neg (by simp [h])

namespace Blanks

variable (b : Blanks) (rest : List Symbol)

theorem skip : skipSpace (b.chars.map .char ++ rest) = skipSpace rest := by
  refine List.dropWhile_append_of_pos fun c hc => ?_
  obtain ⟨x, hx, rfl⟩ := List.mem_map.1 hc
  exact b.blank x hx

/-- Blanks before a symbol that is none are passed over. -/
theorem skip_cons (c : Char) (hc : isSpace (.char c) = false) (r : List Char) :
    skipSpace ((b.chars ++ c :: r).map .char ++ rest) = .char c :: (r.map .char ++ rest) := by
  rw [List.map_append, List.append_assoc, b.skip]
  exact skipSpace_cons hc

theorem stops {rest : List Symbol} (hrest : Stops rest) : Stops (b.chars.map .char ++ rest) := by
  cases hb : b.chars with
  | nil => exact hrest
  | cons c r =>
    obtain ⟨hd, hp, he⟩ := not_part_of_isSpace (b.blank c (hb ▸ List.mem_cons_self ..))
    exact stops_cons hd hp he

end Blanks

/-- The text begins with a symbol that a value may begin with. -/
def Opens (t : List Symbol) : Prop :=
  ∃ c r, t = c :: r ∧ isSpace c = false ∧ c ≠ .char ']'

theorem Opens.skipSpace {t : List Symbol} (h : Opens t) : skipSpace t = t := by
  obtain ⟨c, r, rfl, hc, -⟩ := h
  exact skipSpace_cons hc

theorem exists_digit (n : Nat) :
    ∃ c r, Nat.toDigits 10 n = c :: r ∧ isDigit (.char c) = true := by
  obtain ⟨c, r, hc⟩ := List.exists_cons_of_ne_nil (Nat.toDigits_ne_nil (n := n) (b := 10))
  refine ⟨c, r, hc, isDigit_of_mem_toDigits (n := n) ?_⟩
  rw [hc]
  exact List.mem_cons_self ..

theorem opens_intText (i : Int) (rest : List Symbol) : Opens ((intText i).map .char ++ rest) := by
  cases i with
  | ofNat n =>
    obtain ⟨c, r, hc, hd⟩ := exists_digit n
    refine ⟨.char c, r.map .char ++ rest, by rw [intText, hc]; rfl, ?_, ?_⟩
    · refine Bool.eq_false_iff.2 fun hspace => ?_
      rw [(not_part_of_isSpace hspace).1] at hd
      exact absurd hd Bool.false_ne_true
    · rintro h
      rw [h] at hd
      exact absurd hd (by decide)
  | negSucc n => exact ⟨_, _, rfl, rfl, by decide⟩

/-- A text of a value without blanks before it begins with a symbol of the value. -/
theorem Written.opens {v : Json} {text : List Char} (h : Written v text) (rest : List Symbol) :
    Opens (text.map .char ++ rest) := by
  cases h with
  | int i => exact opens_intText i rest
  | _ => exact ⟨_, _, rfl, rfl, by decide⟩

/-- Blanks before a value are skipped. -/
theorem Written.skipSpace {v : Json} {text : List Char} (h : Written v text) (b : Blanks)
    (tail : List Char) (rest : List Symbol) :
    skipSpace ((b.chars ++ (text ++ tail)).map .char ++ rest) =
      text.map .char ++ (tail.map .char ++ rest) := by
  rw [List.map_append, List.append_assoc, b.skip, List.map_append, List.append_assoc,
    (h.opens _).skipSpace]

variable {limit d : Nat}

section Words

attribute [local simp] readValue readWord bind Except.bind

variable {rest : List Symbol}

theorem readValue_null : readValue limit d ("null".toList.map .char ++ rest) = .ok (.null, rest) := by
  simp

theorem readValue_true : readValue limit d ("true".toList.map .char ++ rest) = .ok (.bool true, rest) := by
  simp

theorem readValue_false : readValue limit d ("false".toList.map .char ++ rest) = .ok (.bool false, rest) := by
  simp

theorem readValue_arr_nil (b : Blanks) :
    readValue limit d (('[' :: (b.chars ++ [']'])).map .char ++ rest) = .ok (.arr [], rest) := by
  have hskip := b.skip_cons rest ']' rfl []
  rw [List.map_cons, List.cons_append]
  simp only [readValue, hskip]
  rfl

theorem readValue_obj_nil (b : Blanks) :
    readValue limit d (('\x7b' :: (b.chars ++ ['\x7d'])).map .char ++ rest) = .ok (.obj [], rest) := by
  have hskip := b.skip_cons rest '\x7d' rfl []
  rw [List.map_cons, List.cons_append]
  simp only [readValue, hskip]
  rfl

theorem Quoted.append {k : String} (q : Quoted k) (rest : List Symbol) :
    q.text.map .char ++ rest = .char '"' :: (q.inner.map .char ++ .char '"' :: rest) := by
  simp [Quoted.text]

theorem readValue_quoted {k : String} (q : Quoted k) :
    readValue limit d (q.text.map .char ++ rest) = .ok (.str k, rest) := by
  rw [q.append]
  simp [q.read]

theorem readValue_digit {c : Symbol} {r : List Symbol} (hd : isDigit c = true) :
    readValue limit d (c :: r) = readUnsigned limit (c :: r) false (c :: r) := by
  unfold readValue
  split
  case h_1 heq => cases heq
  case h_11 heq =>
    cases heq
    exact if_pos hd
  -- no digit is among the symbols that begin other values
  all_goals
    rename_i heq
    cases heq
    exact absurd hd (by decide)

end Words

section Containers

variable {one : Reader Json} {fuel : Nat} {text t u : List Symbol}

theorem readItems_comma {done : List Json} (h : skipSpace text = .char ',' :: t) (hu : skipSpace t = u)
    (hopens : Opens u) :
    readItems one (fuel + 1) done text =
      (one u >>= fun x => readItems one fuel (x.1 :: done) x.2) := by
  obtain ⟨c, r, heq, -, hc⟩ := hopens
  simp only [readItems, h, hu]
  split
  · cases heq
  · cases heq
    exact absurd rfl hc
  · rfl

theorem readKey_colon {key : String} {rest : List Symbol} (hkey : readString text = .ok (key, t))
    (ht : skipSpace t = .char ':' :: rest) (hu : skipSpace rest = u) (hopens : Opens u) :
    readKey text = .ok (key, u) := by
  obtain ⟨c, r, heq, -, -⟩ := hopens
  simp only [readKey, hkey, bind, Except.bind, ht, hu, heq]

theorem readValue_bracket (hu : skipSpace text = u) (hopens : Opens u) :
    readValue limit (d + 1) (.char '[' :: text) =
      (readValue limit d u >>= fun x => readItems (readValue limit d) x.2.length [x.1] x.2) := by
  obtain ⟨c, r, heq, -, hc⟩ := hopens
  simp only [readValue, hu]
  split
  · cases heq
  · cases heq
    exact absurd rfl hc
  · rfl

variable {rest : List Symbol}

theorem stops_writtenAfter {α : Type} (written : α → List Char) (close : Blanks) {bracket : Char}
    (hbracket : ∀ r, Stops (.char bracket :: r)) (l : List (Blanks × α)) :
    Stops ((writtenAfter written close bracket l).map .char ++ rest) := by
  cases l with
  | nil =>
    rw [writtenAfter, List.map_append, List.append_assoc]
    exact close.stops (hbracket rest)
  | cons e r =>
    rw [writtenAfter, List.map_append, List.append_assoc]
    exact e.1.stops (stops_cons rfl (by decide) rfl)

theorem stops_items (close : Blanks) (l : List (Blanks × Item)) :
    Stops ((writtenAfter Item.written close ']' l).map .char ++ rest) :=
  stops_writtenAfter _ close (fun _ => stops_cons rfl (by decide) rfl) l

theorem stops_fields (close : Blanks) (l : List (Blanks × Entry)) :
    Stops ((writtenAfter Entry.written close '\x7d' l).map .char ++ rest) :=
  stops_writtenAfter _ close (fun _ => stops_cons rfl (by decide) rfl) l

theorem readItems_nil (close : Blanks) {done : List Json} :
    readItems one (fuel + 1) done ((writtenAfter Item.written close ']' []).map .char ++ rest) =
      .ok (.arr done.reverse, rest) := by
  have hskip := close.skip_cons rest ']' rfl []
  simp only [readItems, writtenAfter, hskip]
  rfl

theorem readFields_nil (close : Blanks) {done : List (String × Json)} :
    readFields one (fuel + 1) done ((writtenAfter Entry.written close '\x7d' []).map .char ++ rest) =
      .ok (.obj done.reverse, rest) := by
  have hskip := close.skip_cons rest '\x7d' rfl []
  simp only [readFields, writtenAfter, hskip]
  rfl

section Item

variable {i : Item} (hi : Written i.value i.text) {close : Blanks} {l : List (Blanks × Item)}
include hi

theorem readItems_cons {gap : Blanks} {done : List Json} :
    readItems one (fuel + 1) done
        ((writtenAfter Item.written close ']' ((gap, i) :: l)).map .char ++ rest) =
      (one (i.text.map .char ++ ((writtenAfter Item.written close ']' l).map .char ++ rest)) >>=
        fun x => readItems one fuel (x.1 :: done) x.2) := by
  rw [writtenAfter]
  refine readItems_comma (gap.skip_cons _ _ rfl _) ?_ (hi.opens _)
  rw [Item.written, List.append_assoc]
  exact hi.skipSpace i.before _ rest

theorem readValue_arr :
    readValue limit (d + 1)
        (('[' :: (i.written ++ writtenAfter Item.written close ']' l)).map .char ++ rest) =
      (readValue limit d (i.text.map .char ++
          ((writtenAfter Item.written close ']' l).map .char ++ rest)) >>=
        fun x => readItems (readValue limit d) x.2.length [x.1] x.2) := by
  rw [List.map_cons, List.cons_append]
  refine readValue_bracket ?_ (hi.opens _)
  rw [Item.written, List.append_assoc]
  exact hi.skipSpace i.before _ rest

end Item

section Entry

variable {e : Entry} (he : Written e.item.value e.item.text)
include he

/-- A field's value is found after its key. -/
theorem readKey_written (tail : List Char) (rest : List Symbol) :
    ∃ t, skipSpace ((e.written ++ tail).map .char ++ rest) = .char '"' :: t ∧
      readKey t = .ok (e.key, e.item.text.map .char ++ (tail.map .char ++ rest)) := by
  have hvalue := he.skipSpace e.item.before tail rest
  refine ⟨_, ?_, readKey_colon (e.quoted.read _) (e.colon.skip_cons _ _ rfl _) hvalue (he.opens _)⟩
  simp only [Entry.written, Item.written, List.append_assoc, List.cons_append]
  rw [List.map_append, List.append_assoc, e.before.skip, List.map_append, List.append_assoc,
    e.quoted.append]
  exact skipSpace_cons rfl

variable {close : Blanks} {l : List (Blanks × Entry)}

theorem readFields_cons {gap : Blanks} {done : List (String × Json)} :
    readFields one (fuel + 1) done
        ((writtenAfter Entry.written close '\x7d' ((gap, e) :: l)).map .char ++ rest) =
      (one (e.item.text.map .char ++ ((writtenAfter Entry.written close '\x7d' l).map .char ++ rest)) >>=
        fun x => readFields one fuel ((e.key, x.1) :: done) x.2) := by
  obtain ⟨t, ht, hkey⟩ := readKey_written he (writtenAfter Entry.written close '\x7d' l) rest
  have hcomma := gap.skip_cons rest ',' rfl
    (e.written ++ writtenAfter Entry.written close '\x7d' l)
  simp only [readFields, writtenAfter, hcomma, ht, hkey, bind, Except.bind]

theorem readValue_obj :
    readValue limit (d + 1)
        (('\x7b' :: (e.written ++ writtenAfter Entry.written close '\x7d' l)).map .char ++ rest) =
      (readValue limit d (e.item.text.map .char ++
          ((writtenAfter Entry.written close '\x7d' l).map .char ++ rest)) >>=
        fun x => readFields (readValue limit d) x.2.length [(e.key, x.1)] x.2) := by
  obtain ⟨t, ht, hkey⟩ := readKey_written he (writtenAfter Entry.written close '\x7d' l) rest
  rw [List.map_cons, List.cons_append]
  simp only [readValue, ht, hkey, bind, Except.bind]

end Entry

end Containers

end RuleNetwork.Json
