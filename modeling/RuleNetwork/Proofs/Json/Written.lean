import RuleNetwork.Json.Reader

/-!
The texts that stand for a value. Blanks may stand around every part of a container, and most characters
of a string can be written in several ways. Fractions are left out.

The compact and the indented form are two texts of a value.
-/

set_option autoImplicit false

namespace RuleNetwork.Json

mutual

/-- The whole numbers in a value. -/
def numbers : Json → List Int
  | .int i => [i]
  | .arr items => itemNumbers items
  | .obj fields => fieldNumbers fields
  | .null | .bool _ | .real _ | .str _ => []

def itemNumbers : List Json → List Int
  | [] => []
  | v :: r => v.numbers ++ itemNumbers r

def fieldNumbers : List (String × Json) → List Int
  | [] => []
  | (_, v) :: r => v.numbers ++ fieldNumbers r

end

theorem mem_itemNumbers {i : Int} {items : List Json} :
    i ∈ itemNumbers items ↔ ∃ v ∈ items, i ∈ v.numbers := by
  induction items with
  | nil => simp [itemNumbers]
  | cons v r ih => simp [itemNumbers, ih]

theorem mem_fieldNumbers {i : Int} {fields : List (String × Json)} :
    i ∈ fieldNumbers fields ↔ ∃ e ∈ fields, i ∈ e.2.numbers := by
  induction fields with
  | nil => simp [fieldNumbers]
  | cons e r ih => simp [fieldNumbers, ih]

/-- A value without fractions whose containers nest no deeper than given; one that holds nothing does not
count. -/
inductive Nests : Nat → Json → Prop where
  | null {d : Nat} : Nests d .null
  | bool {d : Nat} (b : Bool) : Nests d (.bool b)
  | int {d : Nat} (i : Int) : Nests d (.int i)
  | str {d : Nat} (s : String) : Nests d (.str s)
  | arrNil {d : Nat} : Nests d (.arr [])
  | arr {d : Nat} {items : List Json} (h : ∀ v ∈ items, Nests d v) : Nests (d + 1) (.arr items)
  | objNil {d : Nat} : Nests d (.obj [])
  | obj {d : Nat} {fields : List (String × Json)} (h : ∀ e ∈ fields, Nests d e.2) :
    Nests (d + 1) (.obj fields)

namespace Nests

theorem succ {d : Nat} {v : Json} (h : Nests d v) : Nests (d + 1) v := by
  induction h with
  | null => exact .null
  | bool b => exact .bool b
  | int i => exact .int i
  | str s => exact .str s
  | arrNil => exact .arrNil
  | arr _ ih => exact .arr ih
  | objNil => exact .objNil
  | obj _ ih => exact .obj ih

theorem mono {d d' : Nat} {v : Json} (h : Nests d v) (hle : d ≤ d') : Nests d' v := by
  induction hle with
  | refl => exact h
  | step _ ih => exact ih.succ

theorem items {d : Nat} {v : Json} {items : List Json} (h : Nests d (.arr (v :: items))) :
    ∃ n, d = n + 1 ∧ ∀ w ∈ v :: items, Nests n w := by
  cases h with
  | arr h => exact ⟨_, rfl, h⟩

theorem fields {d : Nat} {e : String × Json} {fields : List (String × Json)}
    (h : Nests d (.obj (e :: fields))) : ∃ n, d = n + 1 ∧ ∀ e' ∈ e :: fields, Nests n e'.2 := by
  cases h with
  | obj h => exact ⟨_, rfl, h⟩

end Nests

theorem nests_ofList {α : Type} {f : α → Json} {d : Nat} {l : List α} (h : ∀ a ∈ l, Nests d (f a)) :
    Nests (d + 1) (ofList f l) := by
  refine .arr fun v hv => ?_
  obtain ⟨a, ha, rfl⟩ := List.mem_map.1 hv
  exact h a ha

theorem nests_ofOption {α : Type} {f : α → Json} {d : Nat} (h : ∀ a, Nests d (f a)) (o : Option α) :
    Nests d (ofOption f o) := by
  cases o with
  | none => exact .null
  | some a => exact h a

section Strings

/-- The number that four hexadecimal digits spell. -/
inductive FourHex : List Char → Nat → Prop where
  | mk {a b c d : Char} {i j k l : Nat} (ha : Text.hexValue? a = some i) (hb : Text.hexValue? b = some j)
    (hc : Text.hexValue? c = some k) (hd : Text.hexValue? d = some l) :
    FourHex [a, b, c, d] (((i * 16 + j) * 16 + k) * 16 + l)

/-- The ways to write a character of a string. One beyond the first plane is a pair of surrogates. -/
inductive Escaped : Char → List Char → Prop where
  | plain {c : Char} (hquote : c ≠ '"') (hslash : c ≠ '\\') (hc : 0x20 ≤ c.toNat) : Escaped c [c]
  | simple {c e : Char} (h : simpleEscape? (.char e) = some c) : Escaped c ['\\', e]
  | unicode {digits : List Char} {n : Nat} (h : FourHex digits n) (hn : n < 0xD800 ∨ 0xDFFF < n) :
    Escaped (Char.ofNat n) ('\\' :: 'u' :: digits)
  | pair {high low : List Char} {n m : Nat} (hhigh : FourHex high n) (hlow : FourHex low m)
    (hn : 0xD800 ≤ n ∧ n ≤ 0xDBFF) (hm : 0xDC00 ≤ m ∧ m ≤ 0xDFFF) :
    Escaped (Char.ofNat ((n - 0xD800) * 0x400 + (m - 0xDC00) + 0x10000))
      ('\\' :: 'u' :: (high ++ '\\' :: 'u' :: low))

/-- The texts of a run of characters. -/
inductive Spelled : List Char → List Char → Prop where
  | nil : Spelled [] []
  | cons {c : Char} {cs text rest : List Char} (hc : Escaped c text) (h : Spelled cs rest) :
    Spelled (c :: cs) (text ++ rest)

/-- A text of a string between its quotes. -/
structure Quoted (s : String) where
  inner : List Char
  spelled : Spelled s.toList inner

def Quoted.text {s : String} (q : Quoted s) : List Char := '"' :: (q.inner ++ ['"'])

theorem hexDigits_control (n : Fin 32) :
    Text.hexDigits 4 n.val = ['0', '0', Text.hexDigit (n.val / 16), Text.hexDigit (n.val % 16)] := by
  revert n
  decide

/-- The digits of a control character spell its number. -/
theorem fourHex_control {n : Nat} (hn : n < 0x20) : FourHex (Text.hexDigits 4 n) n := by
  have hzero : Text.hexValue? '0' = some 0 := by decide
  have h := FourHex.mk hzero hzero (Text.hexValue?_hexDigit ⟨n / 16, by omega⟩)
    (Text.hexValue?_hexDigit ⟨n % 16, by omega⟩)
  rw [hexDigits_control ⟨n, hn⟩]
  rwa [show ((0 * 16 + 0) * 16 + n / 16) * 16 + n % 16 = n by omega] at h

theorem escaped_escape (c : Char) : Escaped c (escape c) := by
  unfold escape
  repeat
    split
    · rename_i h
      subst h
      exact .simple rfl
  split
  · rename_i hc
    have h := Escaped.unicode (fourHex_control hc) (.inl (by omega))
    rwa [Char.ofNat_toNat] at h
  · exact .plain ‹_› ‹_› (by omega)

theorem spelled_escape (cs : List Char) : Spelled cs (cs.flatMap escape) := by
  induction cs with
  | nil => exact .nil
  | cons c cs ih => exact .cons (escaped_escape c) ih

/-- The text that the writer makes of a string. -/
def Quoted.ofString (s : String) : Quoted s := ⟨s.toList.flatMap escape, spelled_escape s.toList⟩

end Strings

/-- A stretch of blanks. -/
structure Blanks where
  chars : List Char
  blank : ∀ c ∈ chars, isSpace (.char c) = true

namespace Blanks

def empty : Blanks := ⟨[], fun _ hc => absurd hc List.not_mem_nil⟩

def ofLine (depth : Nat) : Blanks where
  chars := newline depth
  blank c hc := by
    obtain rfl | hc := List.mem_cons.1 hc
    · rfl
    · rw [List.eq_of_mem_replicate hc]
      rfl

def space : Blanks := ⟨[' '], fun _ hc => List.mem_singleton.1 hc ▸ rfl⟩

end Blanks

/-- A value with a text and the blanks before it. -/
structure Item where
  before : Blanks
  value : Json
  text : List Char

def Item.written (i : Item) : List Char := i.before.chars ++ i.text

/-- A key, the blanks before it and before the colon, and the value after the colon. -/
structure Entry where
  before : Blanks
  key : String
  quoted : Quoted key
  colon : Blanks
  item : Item

namespace Entry

def field (e : Entry) : String × Json := (e.key, e.item.value)

def written (e : Entry) : List Char :=
  e.before.chars ++ (e.quoted.text ++ (e.colon.chars ++ ':' :: e.item.written))

end Entry

/-- What follows the first part of a container: the others, each after a comma, and the bracket. -/
def writtenAfter {α : Type} (written : α → List Char) (close : Blanks) (bracket : Char) :
    List (Blanks × α) → List Char
  | [] => close.chars ++ [bracket]
  | (gap, a) :: r => gap.chars ++ ',' :: (written a ++ writtenAfter written close bracket r)

/-- The texts of a value. -/
inductive Written : Json → List Char → Prop where
  | null : Written .null "null".toList
  | true : Written (.bool true) "true".toList
  | false : Written (.bool false) "false".toList
  | int (i : Int) : Written (.int i) (intText i)
  | str {s : String} (q : Quoted s) : Written (.str s) q.text
  | arrNil (b : Blanks) : Written (.arr []) ('[' :: (b.chars ++ [']']))
  | arr (first : Item) (rest : List (Blanks × Item)) (close : Blanks)
    (hfirst : Written first.value first.text) (hrest : ∀ i ∈ rest, Written i.2.value i.2.text) :
    Written (.arr (first.value :: rest.map fun i => i.2.value))
      ('[' :: (first.written ++ writtenAfter Item.written close ']' rest))
  | objNil (b : Blanks) : Written (.obj []) ('\x7b' :: (b.chars ++ ['\x7d']))
  | obj (first : Entry) (rest : List (Blanks × Entry)) (close : Blanks)
    (hfirst : Written first.item.value first.item.text)
    (hrest : ∀ e ∈ rest, Written e.2.item.value e.2.item.text) :
    Written (.obj (first.field :: rest.map fun e => e.2.field))
      ('\x7b' :: (first.written ++ writtenAfter Entry.written close '\x7d' rest))

/-- A text that holds a value and blanks around it. -/
def IsText (v : Json) (text : List Char) : Prop :=
  ∃ (before after : Blanks) (t : List Char), Written v t ∧ text = before.chars ++ (t ++ after.chars)

/-- The blanks of a written form: before what a container at a depth holds, and after a colon. -/
structure Style where
  line : Nat → Blanks
  gap : Blanks

namespace Style

def compact : Style := ⟨fun _ => .empty, .empty⟩

def indented : Style := ⟨.ofLine, .space⟩

/-- Functions that write values, the items after the first and the fields after the first in one style. -/
structure Writes (s : Style) (value : Nat → Json → List Char) (items : Nat → List Json → List Char)
    (fields : Nat → List (String × Json) → List Char) : Prop where
  plain : ∀ depth {v}, Nests 0 v → Written v (value depth v)
  arr : ∀ depth v r, value depth (.arr (v :: r)) =
    '[' :: ((s.line (depth + 1)).chars ++ (value (depth + 1) v ++ items depth r))
  obj : ∀ depth k v r, value depth (.obj ((k, v) :: r)) =
    '\x7b' :: ((s.line (depth + 1)).chars ++ (quote k ++ ':' :: (s.gap.chars ++
      (value (depth + 1) v ++ fields depth r))))
  itemsNil : ∀ depth, items depth [] = (s.line depth).chars ++ [']']
  itemsCons : ∀ depth v r, items depth (v :: r) =
    ',' :: ((s.line (depth + 1)).chars ++ (value (depth + 1) v ++ items depth r))
  fieldsNil : ∀ depth, fields depth [] = (s.line depth).chars ++ ['\x7d']
  fieldsCons : ∀ depth k v r, fields depth ((k, v) :: r) =
    ',' :: ((s.line (depth + 1)).chars ++ (quote k ++ ':' :: (s.gap.chars ++
      (value (depth + 1) v ++ fields depth r))))

section Parts

variable (s : Style) (value : Nat → Json → List Char) (depth : Nat)

/-- A value that a container at a depth holds. -/
def item (v : Json) : Item := ⟨s.line (depth + 1), v, value (depth + 1) v⟩

def entry (e : String × Json) : Entry :=
  ⟨s.line (depth + 1), e.1, .ofString e.1, .empty, s.gap, e.2, value (depth + 1) e.2⟩

end Parts

namespace Writes

variable {s : Style} {value : Nat → Json → List Char} {items : Nat → List Json → List Char}
  {fields : Nat → List (String × Json) → List Char} (h : s.Writes value items fields) {depth : Nat}
include h

theorem items_eq (l : List Json) : items depth l =
    writtenAfter Item.written (s.line depth) ']' (l.map fun v => (.empty, s.item value depth v)) := by
  induction l with
  | nil => exact h.itemsNil depth
  | cons v r ih => simp [h.itemsCons, ih, writtenAfter, Item.written, item, Blanks.empty]

theorem fields_eq (l : List (String × Json)) : fields depth l =
    writtenAfter Entry.written (s.line depth) '\x7d' (l.map fun e => (.empty, s.entry value depth e)) := by
  induction l with
  | nil => exact h.fieldsNil depth
  | cons e r ih =>
    simp [h.fieldsCons, ih, writtenAfter, Entry.written, Item.written, entry, Blanks.empty, Quoted.ofString,
      Quoted.text, quote]

theorem written_arr {v : Json} {r : List Json} (hl : ∀ w ∈ v :: r, Written w (value (depth + 1) w)) :
    Written (.arr (v :: r)) (value depth (.arr (v :: r))) := by
  obtain ⟨hv, hr⟩ := List.forall_mem_cons.1 hl
  have hwritten := Written.arr (s.item value depth v)
    (r.map fun w => (Blanks.empty, s.item value depth w)) (s.line depth) hv (List.forall_mem_map.2 hr)
  rw [h.arr, h.items_eq]
  simpa [Function.comp_def, Item.written, item] using hwritten

theorem written_obj {e : String × Json} {r : List (String × Json)}
    (hl : ∀ e' ∈ e :: r, Written e'.2 (value (depth + 1) e'.2)) :
    Written (.obj (e :: r)) (value depth (.obj (e :: r))) := by
  obtain ⟨he, hr⟩ := List.forall_mem_cons.1 hl
  have hwritten := Written.obj (s.entry value depth e)
    (r.map fun e => (Blanks.empty, s.entry value depth e)) (s.line depth) he (List.forall_mem_map.2 hr)
  rw [h.obj, h.fields_eq]
  simpa [Function.comp_def, Entry.written, Entry.field, Item.written, entry, Blanks.empty, Quoted.ofString,
    Quoted.text, quote] using hwritten

/-- What is written in a style is a text of the value. -/
theorem written (depth : Nat) {d : Nat} {v : Json} (hv : v.Nests d) : Written v (value depth v) := by
  induction hv generalizing depth with
  | null | bool | int | str | arrNil | objNil => exact h.plain depth (by constructor)
  | @arr _ l _ ih =>
    cases l with
    | nil => exact h.plain depth .arrNil
    | cons v r => exact h.written_arr fun w hw => ih w hw (depth + 1)
  | @obj _ l _ ih =>
    cases l with
    | nil => exact h.plain depth .objNil
    | cons e r => exact h.written_obj fun e he => ih e he (depth + 1)

end Writes

end Style

theorem writes_wire : Style.compact.Writes (fun _ => wire) (fun _ => wireItems) fun _ => wireFields where
  plain _ _ h := by
    cases h with
    | null => exact .null
    | bool b =>
      cases b with
      | true => exact .true
      | false => exact .false
    | int i => exact .int i
    | str s => exact .str (.ofString s)
    | arrNil => exact .arrNil .empty
    | objNil => exact .objNil .empty
  arr _ _ _ := rfl
  obj _ _ _ _ := rfl
  itemsNil _ := rfl
  itemsCons _ _ _ := rfl
  fieldsNil _ := rfl
  fieldsCons _ _ _ _ := rfl

/-- What holds nothing is written alike in both forms. -/
theorem pretty_eq_wire {v : Json} (h : Nests 0 v) (depth : Nat) : v.pretty depth = v.wire := by
  cases h with
  | bool b => cases b <;> rfl
  | _ => rfl

theorem writes_pretty : Style.indented.Writes pretty prettyItems prettyFields where
  plain depth _ h := pretty_eq_wire h depth ▸ writes_wire.plain depth h
  arr _ _ _ := rfl
  obj _ _ _ _ := rfl
  itemsNil _ := rfl
  itemsCons _ _ _ := rfl
  fieldsNil _ := rfl
  fieldsCons _ _ _ _ := rfl

theorem Written.isText {v : Json} {text : List Char} (h : Written v text) : IsText v text :=
  ⟨.empty, .empty, text, h, (List.append_nil text).symm⟩

theorem isText_compact {d : Nat} {v : Json} (h : v.Nests d) : IsText v v.compact.toList := by
  rw [compact, String.toList_ofList]
  exact (writes_wire.written 0 h).isText

theorem isText_indented {d : Nat} {v : Json} (h : v.Nests d) : IsText v v.indented.toList := by
  rw [indented, String.toList_ofList]
  exact (writes_pretty.written 0 h).isText

end RuleNetwork.Json
