import RuleNetwork.Proofs.Attempt
import RuleNetwork.Proofs.Json.Steps

/-!
A value is read from each of its texts, as long as its containers do not nest too deep and its whole
numbers are not too long. A number that is too long spoils the whole text.

A text is the text of one value only: some limit is wide enough for all numbers of any two values.
-/

set_option autoImplicit false

namespace RuleNetwork.Json

open Text (Symbol)

section Outcome

variable {α β ε : Type} {limit : Nat} {l m : List Int} {x : Except ε α} {a : α}

/-- Work over these numbers gives the result, unless one of them is too long. -/
def Outcome (limit : Nat) (l : List Int) (x : Except ε α) (a : α) : Prop :=
  (∀ i ∈ l, Short limit i) ∧ x = .ok a ∨ (∃ i ∈ l, ¬ Short limit i) ∧ ∃ e, x = .error e

namespace Outcome

theorem of_ok (h : x = .ok a) : Outcome limit [] x a := .inl ⟨fun _ hi => absurd hi List.not_mem_nil, h⟩

theorem bind (hx : Outcome limit l x a) {f : α → Except ε β} {b : β} (hf : Outcome limit m (f a) b) :
    Outcome limit (l ++ m) (x >>= f) b := by
  obtain ⟨hl, rfl⟩ | ⟨⟨i, hi, hlong⟩, e, rfl⟩ := hx
  · obtain ⟨hm, hb⟩ | ⟨⟨i, hi, hlong⟩, he⟩ := hf
    · exact .inl ⟨fun i hi => (List.mem_append.1 hi).elim (hl i) (hm i), hb⟩
    · exact .inr ⟨⟨i, List.mem_append_right _ hi, hlong⟩, he⟩
  · exact .inr ⟨⟨i, List.mem_append_left _ hi, hlong⟩, e, rfl⟩

theorem eq_ok (h : Outcome limit l x a) (hshort : ∀ i ∈ l, Short limit i) : x = .ok a := by
  obtain ⟨-, hx⟩ | ⟨⟨i, hi, hlong⟩, -⟩ := h
  · exact hx
  · exact absurd (hshort i hi) hlong

theorem eq_error (h : Outcome limit l x a) {i : Int} (hi : i ∈ l) (hlong : ¬ Short limit i) :
    ∃ e, x = .error e := by
  obtain ⟨hshort, -⟩ | ⟨-, he⟩ := h
  · exact absurd (hshort i hi) hlong
  · exact he

end Outcome

end Outcome

variable {limit d : Nat} {rest : List Symbol}

/-- The reader takes the value from the text and no more, unless a number is too long. -/
def Reads (limit : Nat) (one : Reader Json) (v : Json) (text : List Char) : Prop :=
  ∀ rest, Stops rest → Outcome limit v.numbers (one (text.map .char ++ rest)) (v, rest)

theorem reads_int (i : Int) : Reads limit (readValue limit d) (.int i) (intText i) := by
  intro rest hrest
  have hnumber (i : Int) (n : Nat) (negative : Bool) (start : List Symbol)
      (hlen : (intText i).length = (Nat.toDigits 10 n).length + if negative then 1 else 0)
      (hi : i = if negative then -Int.ofNat n else Int.ofNat n) :
      Outcome limit [i]
        (readUnsigned limit start negative ((Nat.toDigits 10 n).map .char ++ rest)) (.int i, rest) := by
    rw [readUnsigned_toDigits limit start negative hrest]
    obtain hlt | hle := Nat.lt_or_ge limit ((Nat.toDigits 10 n).length + if negative then 1 else 0)
    · refine .inr ⟨⟨i, List.mem_singleton.2 rfl, fun hshort => ?_⟩, finish_of_lt hlt⟩
      exact absurd (hlen ▸ hshort) (Nat.not_le.2 hlt)
    · refine .inl ⟨fun j hj => ?_, hi ▸ finish_of_le hle⟩
      rw [List.mem_singleton.1 hj]
      exact Nat.le_trans (Nat.le_of_eq hlen) hle
  cases i with
  | ofNat n =>
    obtain ⟨c, r, hc, hd⟩ := exists_digit n
    have h := hnumber (.ofNat n) n false ((intText (.ofNat n)).map .char ++ rest) rfl rfl
    simp only [intText, hc, List.map_cons, List.cons_append] at h ⊢
    rw [readValue_digit hd]
    exact h
  | negSucc n =>
    simp only [intText, List.map_cons, List.cons_append, readValue]
    exact hnumber (.negSucc n) (n + 1) true _ rfl rfl

theorem length_lt_writtenAfter {α : Type} (written : α → List Char) (close : Blanks) (bracket : Char)
    (l : List (Blanks × α)) (rest : List Symbol) :
    l.length < ((writtenAfter written close bracket l).map Symbol.char ++ rest).length := by
  rw [List.length_append, List.length_map]
  induction l with
  | nil =>
    simp only [writtenAfter, List.length_nil, List.length_cons, List.length_append]
    omega
  | cons a r ih =>
    simp only [writtenAfter, List.length_cons, List.length_append]
    omega

section Containers

variable {one : Reader Json} (close : Blanks)

theorem reads_items {l : List (Blanks × Item)} (hwritten : ∀ i ∈ l, Written i.2.value i.2.text)
    (hone : ∀ i ∈ l, Reads limit one i.2.value i.2.text) (done : List Json) {fuel : Nat}
    (hfuel : l.length < fuel) :
    Outcome limit (itemNumbers (l.map fun i => i.2.value))
      (readItems one fuel done ((writtenAfter Item.written close ']' l).map .char ++ rest))
      (.arr (done.reverse ++ l.map fun i => i.2.value), rest) := by
  induction l generalizing done fuel with
  | nil =>
    obtain _ | fuel := fuel
    · exact absurd hfuel (Nat.not_lt_zero _)
    rw [List.map_nil, List.append_nil]
    exact .of_ok (readItems_nil close)
  | cons i r ih =>
    obtain _ | fuel := fuel
    · exact absurd hfuel (Nat.not_lt_zero _)
    obtain ⟨hi, hr⟩ := List.forall_mem_cons.1 hwritten
    obtain ⟨hhead, htail⟩ := List.forall_mem_cons.1 hone
    have h := ih hr htail (i.2.value :: done) (Nat.lt_of_succ_lt_succ hfuel)
    rw [List.reverse_cons, List.append_assoc] at h
    rw [readItems_cons hi]
    exact (hhead _ (stops_items close r)).bind h

theorem reads_fields {l : List (Blanks × Entry)}
    (hwritten : ∀ e ∈ l, Written e.2.item.value e.2.item.text)
    (hone : ∀ e ∈ l, Reads limit one e.2.item.value e.2.item.text) (done : List (String × Json))
    {fuel : Nat} (hfuel : l.length < fuel) :
    Outcome limit (fieldNumbers (l.map fun e => e.2.field))
      (readFields one fuel done ((writtenAfter Entry.written close '\x7d' l).map .char ++ rest))
      (.obj (done.reverse ++ l.map fun e => e.2.field), rest) := by
  induction l generalizing done fuel with
  | nil =>
    obtain _ | fuel := fuel
    · exact absurd hfuel (Nat.not_lt_zero _)
    rw [List.map_nil, List.append_nil]
    exact .of_ok (readFields_nil close)
  | cons e r ih =>
    obtain _ | fuel := fuel
    · exact absurd hfuel (Nat.not_lt_zero _)
    obtain ⟨he, hr⟩ := List.forall_mem_cons.1 hwritten
    obtain ⟨hhead, htail⟩ := List.forall_mem_cons.1 hone
    have h := ih hr htail (e.2.field :: done) (Nat.lt_of_succ_lt_succ hfuel)
    rw [List.reverse_cons, List.append_assoc] at h
    rw [readFields_cons he]
    exact (hhead _ (stops_fields close r)).bind h

theorem reads_arr {first : Item} {l : List (Blanks × Item)} (hwritten : Written first.value first.text)
    (hl : ∀ i ∈ l, Written i.2.value i.2.text)
    (hfirst : Reads limit (readValue limit d) first.value first.text)
    (hone : ∀ i ∈ l, Reads limit (readValue limit d) i.2.value i.2.text) :
    Reads limit (readValue limit (d + 1)) (.arr (first.value :: l.map fun i => i.2.value))
      ('[' :: (first.written ++ writtenAfter Item.written close ']' l)) := by
  intro rest _
  rw [readValue_arr hwritten]
  exact (hfirst _ (stops_items close l)).bind
    (reads_items close hl hone [first.value] (length_lt_writtenAfter _ close ']' l rest))

theorem reads_obj {first : Entry} {l : List (Blanks × Entry)}
    (hwritten : Written first.item.value first.item.text)
    (hl : ∀ e ∈ l, Written e.2.item.value e.2.item.text)
    (hfirst : Reads limit (readValue limit d) first.item.value first.item.text)
    (hone : ∀ e ∈ l, Reads limit (readValue limit d) e.2.item.value e.2.item.text) :
    Reads limit (readValue limit (d + 1)) (.obj (first.field :: l.map fun e => e.2.field))
      ('\x7b' :: (first.written ++ writtenAfter Entry.written close '\x7d' l)) := by
  intro rest _
  rw [readValue_obj hwritten]
  exact (hfirst _ (stops_fields close l)).bind
    (reads_fields close hl hone [first.field] (length_lt_writtenAfter _ close '\x7d' l rest))

end Containers

/-- By how the value is written: what a container holds is read with one container less to open. -/
theorem Written.reads {v : Json} {text : List Char} (h : Written v text) (hnests : v.Nests d) :
    Reads limit (readValue limit d) v text := by
  induction h generalizing d with
  | null => exact fun _ _ => .of_ok readValue_null
  | true => exact fun _ _ => .of_ok readValue_true
  | false => exact fun _ _ => .of_ok readValue_false
  | int i => exact reads_int i
  | str q => exact fun _ _ => .of_ok (readValue_quoted q)
  | arrNil b => exact fun _ _ => .of_ok (readValue_arr_nil b)
  | arr first l close hfirst hl ih ihl =>
    obtain ⟨d, rfl, hitems⟩ := hnests.items
    obtain ⟨hhead, htail⟩ := List.forall_mem_cons.1 hitems
    exact reads_arr close hfirst hl (ih hhead) fun i hi =>
      ihl i hi (List.forall_mem_map.1 htail i hi)
  | objNil b => exact fun _ _ => .of_ok (readValue_obj_nil b)
  | obj first l close hfirst hl ih ihl =>
    obtain ⟨d, rfl, hfields⟩ := hnests.fields
    obtain ⟨hhead, htail⟩ := List.forall_mem_cons.1 hfields
    exact reads_obj close hfirst hl (ih hhead) fun e he =>
      ihl e he (List.forall_mem_map.1 htail e he)

section Whole

variable {v : Json} {text : List Char}

theorem IsText.readWithin (h : IsText v text) (hnests : v.Nests d) :
    Outcome limit v.numbers (readWithin limit d (text.map .char)) v := by
  obtain ⟨before, after, t, ht, rfl⟩ := h
  have hskip := ht.skipSpace before after.chars []
  have hrest : Json.skipSpace (after.chars.map .char ++ []) = [] := after.skip []
  rw [List.append_nil] at hskip
  rw [Json.readWithin, hskip, ← List.append_nil v.numbers]
  refine (ht.reads hnests _ (after.stops stops_nil)).bind (.of_ok ?_)
  simp only [hrest]

theorem IsText.read (h : IsText v text) (hnests : v.Nests greatestDepth) :
    Outcome Number.digitLimit v.numbers (Json.read (text.map .char)) v := by
  obtain ⟨hl, h⟩ | ⟨hlong, e, h⟩ := h.readWithin hnests
  · exact .inl ⟨hl, by rw [Json.read, h]; rfl⟩
  · exact .inr ⟨hlong, _, by rw [Json.read, h]; rfl⟩

theorem exists_short (l : List Int) : ∃ limit, ∀ i ∈ l, Short limit i := by
  induction l with
  | nil => exact ⟨0, fun _ hi => absurd hi List.not_mem_nil⟩
  | cons i l ih =>
    obtain ⟨limit, hl⟩ := ih
    refine ⟨max (intText i).length limit, List.forall_mem_cons.2 ⟨Nat.le_max_left .., fun j hj => ?_⟩⟩
    exact Nat.le_trans (hl j hj) (Nat.le_max_right ..)

/-- No other value has this text, however long the numbers are. -/
theorem IsText.unique {w : Json} {d' : Nat} (hv : IsText v text) (hnests : v.Nests d)
    (hw : IsText w text) (hnests' : w.Nests d') : v = w := by
  obtain ⟨limit, hshort⟩ := exists_short (v.numbers ++ w.numbers)
  have hmax := Nat.le_max_left d d'
  have hreadv := (hv.readWithin (hnests.mono hmax)).eq_ok fun i hi =>
    hshort i (List.mem_append_left _ hi)
  have hreadw := (hw.readWithin (hnests'.mono (Nat.le_max_right d d'))).eq_ok fun i hi =>
    hshort i (List.mem_append_right _ hi)
  exact Except.ok.inj (hreadv.symm.trans hreadw)

end Whole

end RuleNetwork.Json
