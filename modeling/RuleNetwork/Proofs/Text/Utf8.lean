import RuleNetwork.Text.Utf8

/-!
Bytes that spell a text. What is encoded is read back, character by character, whatever bytes come after
it.
-/

set_option autoImplicit false

namespace RuleNetwork.Text

namespace Utf8

variable {low high value taken n b : Nat} {r : Bytes} {c : Char}

theorem readTail_cons (hb : b < 64) (hlow : low ≤ b + 128) (hhigh : b + 128 ≤ high) :
    readTail low high value taken (n + 1) (UInt8.ofNat (b + 128) :: r) =
      readTail 0x80 0xBF (value * 64 + b) (taken + 1) n r := by
  have hbyte : (UInt8.ofNat (b + 128)).toNat = b + 128 := by
    rw [UInt8.toNat_ofNat']
    omega
  rw [readTail, hbyte, if_pos ⟨hlow, hhigh⟩]
  congr 2
  omega

/-- A continuation byte after the first one may be any. -/
theorem readTail_any (hb : b < 64) :
    readTail 0x80 0xBF value taken (n + 1) (UInt8.ofNat (b + 128) :: r) =
      readTail 0x80 0xBF (value * 64 + b) (taken + 1) n r :=
  readTail_cons hb (by omega) (by omega)

theorem tailShape_two {v : Nat} (hlow : 0x80 ≤ v) (hhigh : v < 0x800) :
    tailShape (v / 64 + 192) = some (1, 0x80, 0xBF) := by
  unfold tailShape
  rw [if_pos (by omega)]

/-- The bounds of the second of three bytes leave the character's own in. -/
theorem tailShape_three {v : Nat} (hlow : 0x800 ≤ v) (hhigh : v < 0x10000)
    (hscalar : v < 0xD800 ∨ 0xDFFF < v) :
    ∃ low high, tailShape (v / 4096 + 224) = some (2, low, high) ∧ low ≤ v / 64 % 64 + 128 ∧
      v / 64 % 64 + 128 ≤ high := by
  unfold tailShape
  rw [if_neg (by omega)]
  split
  · exact ⟨_, _, rfl, by omega, by omega⟩
  split
  · exact ⟨_, _, rfl, by omega, by omega⟩
  rw [if_pos (by omega)]
  exact ⟨_, _, rfl, by omega, by omega⟩

theorem tailShape_four {v : Nat} (hlow : 0x10000 ≤ v) (hhigh : v < 0x110000) :
    ∃ low high, tailShape (v / 262144 + 240) = some (3, low, high) ∧ low ≤ v / 4096 % 64 + 128 ∧
      v / 4096 % 64 + 128 ≤ high := by
  unfold tailShape
  rw [if_neg (by omega), if_neg (by omega), if_neg (by omega), if_neg (by omega)]
  split
  · exact ⟨_, _, rfl, by omega, by omega⟩
  split
  · exact ⟨_, _, rfl, by omega, by omega⟩
  rw [if_pos (by omega)]
  exact ⟨_, _, rfl, by omega, by omega⟩

/-- A character is read back from its bytes. -/
theorem readChar_encode (c : Char) (r : Bytes) :
    ∃ lead tail, String.utf8EncodeChar c = lead :: tail ∧ readChar lead (tail ++ r) = .ok (c, r) := by
  have hscalar : c.toNat < 0xD800 ∨ 0xDFFF < c.toNat ∧ c.toNat < 0x110000 := c.valid
  have hback : Char.ofNat c.toNat = c := Char.ofNat_toNat c
  unfold String.utf8EncodeChar
  rw [show c.val.toNat = c.toNat from rfl]
  generalize c.toNat = v at hscalar hback
  simp only
  split
  · refine ⟨_, [], rfl, ?_⟩
    have hlead : (UInt8.ofNat v).toNat = v := by rw [UInt8.toNat_ofNat']; omega
    unfold readChar
    rw [hlead, if_pos (by omega), hback]
    rfl
  split
  · have hlead : (UInt8.ofNat (v / 64 % 32 + 192)).toNat = v / 64 + 192 := by
      rw [UInt8.toNat_ofNat']
      omega
    refine ⟨_, _, rfl, ?_⟩
    unfold readChar
    rw [hlead, if_neg (by omega), tailShape_two (by omega) (by omega)]
    simp only [List.cons_append, List.nil_append, if_true]
    rw [readTail_any (by omega)]
    have hvalue : (v / 64 + 192) % 32 * 64 + v % 64 = v := by omega
    rw [hvalue, readTail, ← hback]
    rfl
  split
  · have hlead : (UInt8.ofNat (v / 4096 % 16 + 224)).toNat = v / 4096 + 224 := by
      rw [UInt8.toNat_ofNat']
      omega
    obtain ⟨low, high, hshape, hlow, hhigh⟩ := tailShape_three (v := v) (by omega) (by omega) (by omega)
    refine ⟨_, _, rfl, ?_⟩
    unfold readChar
    rw [hlead, if_neg (by omega), hshape]
    simp only [List.cons_append, List.nil_append, Nat.reduceEqDiff, if_false, if_true]
    rw [readTail_cons (by omega) hlow hhigh, readTail_any (by omega)]
    have hvalue : ((v / 4096 + 224) % 16 * 64 + v / 64 % 64) * 64 + v % 64 = v := by omega
    rw [hvalue, readTail, ← hback]
    rfl
  · have hlead : (UInt8.ofNat (v / 262144 % 8 + 240)).toNat = v / 262144 + 240 := by
      rw [UInt8.toNat_ofNat']
      omega
    obtain ⟨low, high, hshape, hlow, hhigh⟩ := tailShape_four (v := v) (by omega) (by omega)
    refine ⟨_, _, rfl, ?_⟩
    unfold readChar
    rw [hlead, if_neg (by omega), hshape]
    simp only [List.cons_append, List.nil_append, Nat.reduceEqDiff, if_false]
    rw [readTail_cons (by omega) hlow hhigh, readTail_any (by omega), readTail_any (by omega)]
    have hvalue : (((v / 262144 + 240) % 8 * 64 + v / 4096 % 64) * 64 + v / 64 % 64) * 64 + v % 64 =
        v := by omega
    rw [hvalue, readTail, ← hback]
    rfl

theorem toList_loop (bytes : ByteArray) (i : Nat) (done : List UInt8) :
    ByteArray.toList.loop bytes i done = done.reverse ++ bytes.data.toList.drop i := by
  fun_induction ByteArray.toList.loop bytes i done with
  | case1 i done hi ih =>
    have hlt : i < bytes.data.toList.length := hi
    have hget : bytes.get! i = bytes.data.toList[i] := by
      rw [Array.getElem_toList]
      exact getElem!_pos bytes.data i hi
    rw [ih, List.drop_eq_getElem_cons hlt, hget]
    simp
  | case2 i done hi =>
    rw [List.drop_eq_nil_of_le (Nat.le_of_not_lt hi), List.append_nil]

theorem encode_eq (s : String) : encode s = s.toList.flatMap String.utf8EncodeChar := by
  unfold encode ByteArray.toList
  rw [toList_loop, String.toUTF8_eq_toByteArray, ← String.utf8Encode_toList, List.utf8Encode,
    List.toList_data_toByteArray]
  rfl

theorem length_le_length_encode (l : List Char) :
    l.length ≤ (l.flatMap String.utf8EncodeChar).length := by
  induction l with
  | nil => exact Nat.le_refl 0
  | cons c l ih =>
    have hpos := List.length_pos_iff.2 (String.utf8EncodeChar_ne_nil (c := c))
    rw [List.flatMap_cons, List.length_append, List.length_cons]
    omega

theorem symbolsFrom_encode (l : List Char) {fuel : Nat} (h : l.length ≤ fuel) :
    symbolsFrom fuel (l.flatMap String.utf8EncodeChar) = l.map .char := by
  induction l generalizing fuel with
  | nil => cases fuel <;> rfl
  | cons c l ih =>
    obtain ⟨fuel, rfl⟩ : ∃ k, fuel = k + 1 := ⟨fuel - 1, by rw [List.length_cons] at h; omega⟩
    obtain ⟨lead, tail, hc, hread⟩ := readChar_encode c (l.flatMap String.utf8EncodeChar)
    rw [List.flatMap_cons, hc, List.cons_append, symbolsFrom, hread]
    simp only [List.map_cons]
    rw [ih (by rw [List.length_cons] at h; omega)]

/-- The symbols of an encoded text are its characters. -/
theorem symbols_encode (s : String) : symbols (encode s) = s.toList.map .char := by
  unfold symbols
  rw [encode_eq]
  exact symbolsFrom_encode _ (length_le_length_encode _)

end Utf8

end RuleNetwork.Text
