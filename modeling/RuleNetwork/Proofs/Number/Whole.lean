import RuleNetwork.Number.Binary64

/-!
Doubles above zero, and whole numbers taken as doubles.
-/

set_option autoImplicit false

namespace RuleNetwork

namespace Number.Binary64

/-- A number above zero. -/
def Positive : Binary64 → Prop
  | .nan => False
  | .infinite negative => negative = false
  | .finite negative m _ => negative = false ∧ 0 < m

theorem positive_or_nan {x : Binary64} (h : x.nonpositive = false) : x.Positive ∨ x = .nan := by
  cases x with
  | nan => exact .inr rfl
  | infinite negative => exact .inl h
  | finite negative m e =>
    simp only [nonpositive, Bool.or_eq_false_iff, beq_eq_false_iff_ne] at h
    exact .inl ⟨h.1, Nat.pos_of_ne_zero h.2⟩

theorem Positive.nonpositive {x : Binary64} (h : x.Positive) : x.nonpositive = false := by
  cases x with
  | nan => exact h.elim
  | infinite negative => exact h
  | finite negative m e =>
    simp only [Binary64.nonpositive, Bool.or_eq_false_iff, beq_eq_false_iff_ne]
    exact ⟨h.1, Nat.ne_zero_of_lt h.2⟩

/-- On the grid that its leading bit asks for a whole number does not vanish. -/
theorem scaled_le {n : Nat} (hn : n ≠ 0) {e : Int} (he : e ≤ n.log2) :
    1 * Nat.pow 2 e.toNat ≤ n * Nat.pow 2 (-e).toNat := by
  have hlog := Nat.log2_self_le hn
  have hpow : Nat.pow 2 e.toNat ≤ 2 ^ n.log2 := Nat.pow_le_pow_right (by omega) (by omega)
  have hone : 1 ≤ Nat.pow 2 (-e).toNat := Nat.one_le_two_pow
  calc 1 * Nat.pow 2 e.toNat = Nat.pow 2 e.toNat * 1 := by omega
    _ ≤ n * Nat.pow 2 (-e).toNat := Nat.mul_le_mul (Nat.le_trans hpow hlog) hone

/-- The double nearest to a whole number has its sign, and is zero for zero alone. -/
theorem nearest_whole (negative : Bool) (n : Nat) :
    nearest negative n 1 = .infinite negative ∨
      ∃ m e, nearest negative n 1 = .finite negative m e ∧ (0 < m ↔ 0 < n) := by
  unfold nearest
  split
  · rename_i hn
    exact .inr ⟨0, _, rfl, by rw [hn]⟩
  · rename_i hn
    simp only
    generalize he : max leastExponent _ = e
    have hle : e ≤ n.log2 := by
      have hone : Nat.log2 1 = 0 := by decide
      rw [← he]
      refine Int.max_le.2 ⟨by unfold leastExponent; omega, ?_⟩
      split <;> (simp only [hone, Int.ofNat_eq_natCast]; omega)
    have hden : 0 < 1 * Nat.pow 2 e.toNat := by rw [Nat.one_mul]; exact Nat.two_pow_pos _
    have hm := roundDiv_pos hden (scaled_le hn hle)
    generalize roundDiv _ _ = m at hm
    by_cases hfull : m = Nat.pow 2 53
    · rw [if_pos hfull]
      simp only
      split
      · exact .inl rfl
      · exact .inr ⟨_, _, rfl, iff_of_true (by decide) (Nat.pos_of_ne_zero hn)⟩
    · rw [if_neg hfull]
      simp only
      split
      · exact .inl rfl
      · exact .inr ⟨_, _, rfl, iff_of_true hm (Nat.pos_of_ne_zero hn)⟩

/-- A whole number taken as a double is above zero just if it was. -/
theorem ofInt?_spec {i : Int} {x : Binary64} (h : ofInt? i = some x) :
    (0 < i → x.Positive) ∧ (i ≤ 0 → x.nonpositive = true) := by
  unfold ofInt? at h
  obtain hnearest | ⟨m, e, hnearest, hpos⟩ := nearest_whole (i < 0) i.natAbs
  · rw [hnearest] at h
    cases h
  · rw [hnearest] at h
    cases h
    refine ⟨fun hi => ⟨decide_eq_false (by omega), hpos.2 (by omega)⟩, fun hi => ?_⟩
    rw [nonpositive, Bool.or_eq_true_iff, decide_eq_true_iff, beq_iff_eq]
    omega

end Number.Binary64

end RuleNetwork
