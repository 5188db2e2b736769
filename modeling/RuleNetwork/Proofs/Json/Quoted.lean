import RuleNetwork.Proofs.Json.Written

/-!
A string is read from each of its texts, whatever characters it holds.
-/

set_option autoImplicit false

namespace RuleNetwork.Json

open Text (Symbol)

attribute [local simp] readHex readChars

/-- A text of four characters or more has as many bytes. -/
theorem four_le_byteCount (a b c d : Char) (rest : List Symbol) :
    4 ≤ byteCount ([a, b, c, d].map .char ++ rest) := by
  have hpos (x : Char) : 0 < x.utf8Size := x.utf8Size_pos
  have ha := hpos a
  have hb := hpos b
  have hc := hpos c
  have hd := hpos d
  simp only [byteCount, List.map_cons, List.map_nil, List.cons_append, List.nil_append,
    List.foldr_cons, Symbol.size]
  omega

/-- Four digits are read as the number that they spell. -/
theorem FourHex.read {digits : List Char} {n : Nat} (h : FourHex digits n) (rest : List Symbol) :
    readFourHex (digits.map .char ++ rest) = .ok (n, rest) := by
  obtain ⟨ha, hb, hc, hd⟩ := h
  unfold readFourHex
  rw [if_neg (Nat.not_lt.2 (four_le_byteCount ..))]
  simp [hexSymbol?, ha, hb, hc, hd]

section Escapes

variable {digits high low : List Char} {n m : Nat} (rest : List Symbol)

theorem readUnicodeEscape_unicode (h : FourHex digits n) (hn : n < 0xD800 ∨ 0xDFFF < n) :
    readUnicodeEscape (digits.map .char ++ rest) = .ok (Char.ofNat n, rest) := by
  unfold readUnicodeEscape
  rw [h.read]
  show (if _ then _ else if _ then _ else _) = _
  rw [if_neg (by omega), if_neg (by omega)]

theorem readUnicodeEscape_pair (hhigh : FourHex high n) (hlow : FourHex low m)
    (hn : 0xD800 ≤ n ∧ n ≤ 0xDBFF) (hm : 0xDC00 ≤ m ∧ m ≤ 0xDFFF) :
    readUnicodeEscape ((high ++ '\\' :: 'u' :: low).map .char ++ rest) =
      .ok (Char.ofNat ((n - 0xD800) * 0x400 + (m - 0xDC00) + 0x10000), rest) := by
  unfold readUnicodeEscape
  rw [List.map_append, List.append_assoc, hhigh.read]
  show (if _ then _ else if _ then _ else _) = _
  rw [if_neg (by omega), if_pos hn]
  show (readFourHex (low.map .char ++ rest) >>= _) = _
  rw [hlow.read]
  exact if_pos hm

end Escapes

section Characters

variable (stretch done rest : List Symbol) (fuel : Nat)

theorem readChars_plain {c : Char} (hquote : c ≠ '"') (hslash : c ≠ '\\') (hc : 0x20 ≤ c.toNat) :
    readChars stretch done (fuel + 1) (.char c :: rest) = readChars stretch (.char c :: done) fuel rest := by
  simp [hquote, hslash, if_neg (Nat.not_lt.2 hc)]

theorem readChars_simple {c e : Char} (h : simpleEscape? (.char e) = some c) :
    readChars stretch done (fuel + 1) (.char '\\' :: .char e :: rest) =
      readChars rest (.char c :: done) fuel rest := by
  have hu : e ≠ 'u' := fun heq => by
    subst heq
    cases h
  simp [h, hu]

/-- What an escape of several digits stands for is read after its mark. -/
theorem readChars_unicode {c : Char} {digits : List Char}
    (h : readUnicodeEscape (digits.map .char ++ rest) = .ok (c, rest)) :
    readChars stretch done (fuel + 1) (('\\' :: 'u' :: digits).map .char ++ rest) =
      readChars rest (.char c :: done) fuel rest := by
  simp only [List.map_cons, List.cons_append, readChars]
  rw [if_neg (by decide), if_pos trivial, h]
  rfl

/-- A character is read from each way to write it. -/
theorem readChars_escaped {c : Char} {text : List Char} (h : Escaped c text) :
    ∃ stretch', readChars stretch done (fuel + 1) (text.map .char ++ rest) =
      readChars stretch' (.char c :: done) fuel rest := by
  cases h with
  | plain hquote hslash hc => exact ⟨stretch, readChars_plain stretch done rest fuel hquote hslash hc⟩
  | simple h => exact ⟨rest, readChars_simple stretch done rest fuel h⟩
  | unicode h hn =>
    exact ⟨rest, readChars_unicode stretch done rest fuel (readUnicodeEscape_unicode rest h hn)⟩
  | pair hhigh hlow hn hm =>
    exact ⟨rest, readChars_unicode stretch done rest fuel (readUnicodeEscape_pair rest hhigh hlow hn hm)⟩

end Characters

theorem filterMap_char (cs : List Char) : (cs.map Symbol.char).filterMap charOf? = cs := by
  induction cs with
  | nil => rfl
  | cons c cs ih =>
    rw [List.map_cons, List.filterMap_cons, ih]
    rfl

/-- The characters read so far and those still to come are the string. -/
theorem readChars_spelled {cs text : List Char} (h : Spelled cs text) (stretch rest : List Symbol)
    (done : List Char) {fuel : Nat} (hfuel : cs.length < fuel) :
    readChars stretch (done.map .char) fuel (text.map .char ++ .char '"' :: rest) =
      .ok (String.ofList (done.reverse ++ cs), rest) := by
  induction h generalizing stretch done fuel with
  | nil =>
    obtain _ | fuel := fuel
    · exact absurd hfuel (Nat.not_lt_zero _)
    have hchars : ((done.map Symbol.char).reverse).filterMap charOf? = done.reverse := by
      rw [← List.map_reverse, filterMap_char]
    simp [hchars]
  | @cons c cs text text' hc _ ih =>
    obtain _ | fuel := fuel
    · exact absurd hfuel (Nat.not_lt_zero _)
    rw [List.map_append, List.append_assoc]
    obtain ⟨stretch', h⟩ := readChars_escaped stretch (done.map .char)
      (text'.map .char ++ .char '"' :: rest) fuel hc
    rw [h, ← List.map_cons, ih stretch' (c :: done) (Nat.lt_of_succ_lt_succ hfuel)]
    simp

theorem Escaped.length_pos {c : Char} {text : List Char} (h : Escaped c text) : 0 < text.length := by
  cases h <;> exact Nat.succ_pos _

theorem Spelled.length_le {cs text : List Char} (h : Spelled cs text) : cs.length ≤ text.length := by
  induction h with
  | nil => exact Nat.le_refl _
  | cons hc _ ih =>
    have hpos := hc.length_pos
    rw [List.length_append, List.length_cons]
    omega

theorem Quoted.read {s : String} (q : Quoted s) (rest : List Symbol) :
    readString (q.inner.map .char ++ .char '"' :: rest) = .ok (s, rest) := by
  have hfuel : s.toList.length < (q.inner.map Symbol.char ++ .char '"' :: rest).length := by
    have := q.spelled.length_le
    rw [List.length_append, List.length_map, List.length_cons]
    omega
  rw [readString, ← List.map_nil, readChars_spelled q.spelled _ rest [] hfuel, List.reverse_nil,
    List.nil_append, String.ofList_toList]

end RuleNetwork.Json
