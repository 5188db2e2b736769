import Mathlib.Algebra.Group.Nat.Defs
import Mathlib.Data.List.Basic
import RuleNetwork.Json.Reader

/-!
Whole numbers are read as they are written, as long as they are no longer than the reader takes.
-/

set_option autoImplicit false

namespace RuleNetwork.Json

open Text (Symbol)

/-- Nothing follows that a number could go on with. -/
def Stops (rest : List Symbol) : Prop :=
  ∀ c ∈ rest.head?, isDigit c = false ∧ c ≠ .char '.' ∧ isExponentMark c = false

theorem stops_nil : Stops [] := fun _ hc => absurd hc (by simp)

theorem stops_cons {c : Symbol} {r : List Symbol} (hd : isDigit c = false) (hp : c ≠ .char '.')
    (he : isExponentMark c = false) : Stops (c :: r) := by
  intro x hx
  obtain rfl := Option.some.inj hx
  exact ⟨hd, hp, he⟩

theorem digit?_of_isDigit {c : Char} (h : c.isDigit = true) : digit? (.char c) = some (c.toNat - 48) := by
  have hbounds : '0' ≤ c ∧ c ≤ '9' := by
    rw [Char.isDigit, Bool.and_eq_true, decide_eq_true_iff, decide_eq_true_iff] at h
    exact h
  exact if_pos hbounds

theorem isDigit_of_mem_toDigits {n : Nat} {c : Symbol} (h : c ∈ (Nat.toDigits 10 n).map Symbol.char) :
    isDigit c = true := by
  obtain ⟨x, hx, rfl⟩ := List.mem_map.1 h
  unfold isDigit
  rw [digit?_of_isDigit (Nat.isDigit_of_mem_toDigits (by decide) (by decide) hx)]
  rfl

theorem digitsValue_map (l : List Char) (h : ∀ c ∈ l, c.isDigit = true) :
    digitsValue (l.map .char) = Nat.ofDigitChars 10 l 0 := by
  unfold digitsValue
  rw [Nat.ofDigitChars_eq_foldl, List.foldl_map]
  refine List.foldl_ext _ _ 0 fun n c hc => ?_
  rw [digit?_of_isDigit (h c hc), Option.getD_some, Nat.mul_comm]
  rfl

/-- The digits of a number have it for their value. -/
theorem digitsValue_toDigits (n : Nat) : digitsValue ((Nat.toDigits 10 n).map .char) = n := by
  rw [digitsValue_map _ fun c hc => Nat.isDigit_of_mem_toDigits (by decide) (by decide) hc,
    Nat.ofDigitChars_ten_toDigits]

/-- Only the number zero begins with a zero. -/
theorem toDigits_cases (n : Nat) : n = 0 ∨ ∃ c r, Nat.toDigits 10 n = c :: r ∧ c ≠ '0' := by
  induction n using Nat.strongRecOn with
  | ind n ih =>
    obtain rfl | hpos := Nat.eq_zero_or_pos n
    · exact .inl rfl
    obtain hlt | hle := Nat.lt_or_ge n 10
    · refine .inr ⟨_, [], Nat.toDigits_of_lt_base hlt, fun h => ?_⟩
      exact absurd (Nat.digitChar_eq_zero.1 h) (by omega)
    · obtain hzero | ⟨c, r, hc, hne⟩ := ih (n / 10) (by omega)
      · omega
      · exact .inr ⟨c, r ++ [_], by rw [Nat.toDigits_of_base_le (by decide) hle, hc]; rfl, hne⟩

section Reading

variable {rest : List Symbol} (limit : Nat) (start : List Symbol) (negative : Bool) (hrest : Stops rest)
include hrest

/-- The digits of a number end where nothing follows that it could go on with. -/
theorem split_digits {ds : List Symbol} (hds : ∀ c ∈ ds, isDigit c = true) :
    (ds ++ rest).takeWhile isDigit = ds ∧ (ds ++ rest).dropWhile isDigit = rest := by
  have hhead : rest.takeWhile isDigit = [] ∧ rest.dropWhile isDigit = rest := by
    cases rest with
    | nil => exact ⟨rfl, rfl⟩
    | cons c r =>
      obtain ⟨hd, -, -⟩ := hrest c rfl
      simp [hd]
  rw [List.takeWhile_append_of_pos hds, List.dropWhile_append_of_pos hds, hhead.1, hhead.2,
    List.append_nil]
  exact ⟨rfl, rfl⟩

theorem readNumberTail_stops {whole : List Symbol} :
    readNumberTail limit start negative whole rest =
      readNumberTail.finish limit start negative whole rest := by
  unfold readNumberTail
  split
  · exact absurd rfl (hrest _ rfl).2.1
  · rw [if_neg (by rw [(hrest _ rfl).2.2]; exact Bool.false_ne_true)]
  · rfl

theorem readUnsigned_toDigits (n : Nat) :
    readUnsigned limit start negative ((Nat.toDigits 10 n).map .char ++ rest) =
      readNumberTail.finish limit start negative ((Nat.toDigits 10 n).map .char) rest := by
  rw [← readNumberTail_stops limit start negative hrest]
  obtain rfl | ⟨c, r, hc, hne⟩ := toDigits_cases n
  · cases rest with
    | nil => rfl
    | cons c r =>
      obtain ⟨hd, -, -⟩ := hrest c rfl
      simp [Nat.toDigits_zero, readUnsigned, hd]
  · have hdigits : ∀ x ∈ (Nat.toDigits 10 n).map Symbol.char, isDigit x = true :=
      fun x hx => isDigit_of_mem_toDigits hx
    obtain ⟨htake, hdrop⟩ := split_digits hrest hdigits
    have hd : isDigit (.char c) = true := hdigits _ (by rw [hc]; exact List.mem_cons_self ..)
    generalize hs : (Nat.toDigits 10 n).map Symbol.char ++ rest = s at htake hdrop
    rw [hc, List.map_cons, List.cons_append] at hs
    subst hs
    unfold readUnsigned
    split
    · rename_i heq
      cases heq
    · rename_i heq
      cases heq
      exact absurd hd (by decide)
    · rename_i heq
      cases heq
      exact absurd rfl hne
    · rename_i heq
      cases heq
      rw [if_pos hd, htake, hdrop]

end Reading

variable {limit : Nat} {rest start : List Symbol} {negative : Bool} {n : Nat}

theorem finish_of_le (hn : (Nat.toDigits 10 n).length + (if negative then 1 else 0) ≤ limit) :
    readNumberTail.finish limit start negative ((Nat.toDigits 10 n).map .char) rest =
      .ok (.int (if negative then -Int.ofNat n else Int.ofNat n), rest) := by
  unfold readNumberTail.finish
  rw [List.length_map, if_neg (Nat.not_lt.2 hn), digitsValue_toDigits]

theorem finish_of_lt (hn : limit < (Nat.toDigits 10 n).length + (if negative then 1 else 0)) :
    ∃ e, readNumberTail.finish limit start negative ((Nat.toDigits 10 n).map .char) rest = .error e := by
  unfold readNumberTail.finish
  rw [List.length_map, if_pos hn]
  exact ⟨_, rfl⟩

/-- A whole number no longer than given, with its sign. -/
def Short (limit : Nat) (i : Int) : Prop := (intText i).length ≤ limit

instance (limit : Nat) (i : Int) : Decidable (Short limit i) := inferInstanceAs (Decidable (_ ≤ _))

theorem not_short {limit : Nat} (hlimit : 0 < limit) {i : Int} (h : 10 ^ limit ≤ i.natAbs) :
    ¬ Short limit i := by
  have hdigits (n : Nat) (hn : 10 ^ limit ≤ n) : limit < (Nat.toDigits 10 n).length :=
    Nat.lt_of_not_le fun hle =>
      absurd ((Nat.length_toDigits_le_iff (by decide) hlimit).1 hle) (Nat.not_lt.2 hn)
  refine Nat.not_le.2 ?_
  cases i with
  | ofNat n => exact hdigits n h
  | negSucc n => exact Nat.lt_succ_of_lt (hdigits (n + 1) h)

end RuleNetwork.Json
