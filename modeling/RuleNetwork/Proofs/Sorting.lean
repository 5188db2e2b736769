import Mathlib.Data.List.Perm.Basic
import Mathlib.Data.List.Sort

/-!
Sorting keeps entries that tie in the order in which they came. So a sorted list is known from its order
and from the entries of each tie, and lists that agree on these are sorted alike.
-/

set_option autoImplicit false

namespace RuleNetwork

/-- Two entries that an order does not tell apart. -/
def SameRank {α : Type} (le : α → α → Bool) (a b : α) : Bool := le a b && le b a

section Rank

variable {α : Type} {le : α → α → Bool} (trans : ∀ a b c, le a b → le b c → le a c)
  (total : ∀ a b, le a b || le b a)

include total in
theorem sameRank_self (a : α) : SameRank le a a = true := by
  simpa [SameRank] using total a a

include trans total in
/-- Entries that tie stay in the order in which they came. -/
theorem filter_rank_mergeSort (l : List α) (a : α) :
    (l.mergeSort le).filter (SameRank le a) = l.filter (SameRank le a) := by
  have hpairwise : (l.filter (SameRank le a)).Pairwise fun b c => le b c = true := by
    refine List.pairwise_of_forall_mem_list fun b hb c hc => ?_
    have hba : le b a = true := (Bool.and_eq_true_iff.1 (List.mem_filter.1 hb).2).2
    have hac : le a c = true := (Bool.and_eq_true_iff.1 (List.mem_filter.1 hc).2).1
    exact trans _ _ _ hba hac
  have hsub := (List.sublist_mergeSort trans total hpairwise List.filter_sublist).filter (SameRank le a)
  rw [List.filter_filter] at hsub
  simp only [Bool.and_self] at hsub
  exact (hsub.eq_of_length ((List.mergeSort_perm l le).filter _).length_eq.symm).symm

include total in
/-- Lists in order that agree on every tie are the same. -/
theorem eq_of_filter_rank {l l' : List α} (h : l.Pairwise fun b c => le b c = true)
    (h' : l'.Pairwise fun b c => le b c = true)
    (hrank : ∀ a, l.filter (SameRank le a) = l'.filter (SameRank le a)) : l = l' := by
  have hmem : ∀ {m m' : List α}, (∀ a, m.filter (SameRank le a) = m'.filter (SameRank le a)) →
      ∀ a ∈ m, a ∈ m' := fun hm a ha => by
    have hin := List.mem_filter.2 ⟨ha, sameRank_self total a⟩
    rw [hm a] at hin
    exact List.mem_of_mem_filter hin
  induction l generalizing l' with
  | nil =>
    cases l' with
    | nil => rfl
    | cons b l' => exact absurd (hmem (fun a => (hrank a).symm) b (List.mem_cons_self ..)) List.not_mem_nil
  | cons a l ih =>
    cases l' with
    | nil => exact absurd (hmem hrank a (List.mem_cons_self ..)) List.not_mem_nil
    | cons b l' =>
      obtain ⟨hfirst, hl⟩ := List.pairwise_cons.1 h
      obtain ⟨hfirst', hl'⟩ := List.pairwise_cons.1 h'
      have hle : ∀ {x y : α} {m : List α}, (∀ z ∈ m, le x z = true) → y ∈ x :: m → le x y = true :=
        fun {x y m} hm hy => by
          obtain rfl | hy := List.mem_cons.1 hy
          · exact (Bool.and_eq_true_iff.1 (sameRank_self total y)).1
          · exact hm y hy
      -- each first entry is among the others, so the two tie and are first of their tie
      have hab : SameRank le a b = true := Bool.and_eq_true_iff.2
        ⟨hle hfirst (hmem (fun c => (hrank c).symm) b (List.mem_cons_self ..)),
          hle hfirst' (hmem hrank a (List.mem_cons_self ..))⟩
      have hhead := hrank a
      rw [List.filter_cons_of_pos (sameRank_self total a), List.filter_cons_of_pos hab] at hhead
      obtain rfl := List.head_eq_of_cons_eq hhead
      refine congrArg _ (ih hl hl' fun c => ?_)
      have hc := hrank c
      rw [List.filter_cons, List.filter_cons] at hc
      split at hc
      · exact List.tail_eq_of_cons_eq hc
      · exact hc

include trans total in
/-- Lists that agree on every tie are sorted alike. -/
theorem mergeSort_eq_of_rank {l l' : List α}
    (hrank : ∀ a, l.filter (SameRank le a) = l'.filter (SameRank le a)) :
    l.mergeSort le = l'.mergeSort le := by
  refine eq_of_filter_rank total (List.pairwise_mergeSort trans total l)
    (List.pairwise_mergeSort trans total l') fun a => ?_
  rw [filter_rank_mergeSort trans total, filter_rank_mergeSort trans total, hrank]

include trans total in
/-- Parts that are sorted already are sorted together as the whole is. -/
theorem mergeSort_append_mergeSort (l l' : List α) :
    (l.mergeSort le ++ l'.mergeSort le).mergeSort le = (l ++ l').mergeSort le := by
  refine mergeSort_eq_of_rank trans total fun a => ?_
  rw [List.filter_append, List.filter_append, filter_rank_mergeSort trans total,
    filter_rank_mergeSort trans total]

end Rank

section Keys

variable {α κ : Type} [LinearOrder κ] {key : α → κ} {l l' : List α}

/-- Entries with one key each are sorted into strict order. -/
theorem pairwise_lt_mergeSort (h : (l.map key).Nodup) :
    (l.mergeSort fun a b => decide (key a ≤ key b)).Pairwise fun a b => key a < key b := by
  have hle : (l.mergeSort fun a b => decide (key a ≤ key b)).Pairwise
      fun a b => decide (key a ≤ key b) = true := List.pairwise_mergeSort
    (fun a b c hab hbc => decide_eq_true ((of_decide_eq_true hab).trans (of_decide_eq_true hbc)))
    (fun a b => by simpa using le_total (key a) (key b)) l
  have hnodup := ((List.mergeSort_perm l fun a b => decide (key a ≤ key b)).map key).nodup_iff.2 h
  have hne := List.pairwise_map.1 hnodup
  exact (hle.and hne).imp fun hab => lt_of_le_of_ne (of_decide_eq_true hab.1) hab.2

/-- Lists in strict order are known from their entries. -/
theorem eq_of_pairwise_lt (h : l.Pairwise fun a b => key a < key b)
    (h' : l'.Pairwise fun a b => key a < key b) (hmem : ∀ a, a ∈ l ↔ a ∈ l') : l = l' :=
  have : Std.Antisymm fun a b => key a < key b := ⟨fun _ _ hab hba => absurd hba hab.asymm⟩
  have : Std.Irrefl fun a b => key a < key b := ⟨fun _ => lt_irrefl _⟩
  h.eq_of_mem_iff h' hmem

end Keys

/-- Lists of the same entries with one key each have the same entry, if any, for a key. -/
theorem filter_key_eq_of_perm {α κ : Type} [DecidableEq κ] {key : α → κ} {l l' : List α}
    (h : l.Perm l') (hnodup : (l.map key).Nodup) (k : κ) :
    l.filter (fun a => key a = k) = l'.filter fun a => key a = k := by
  induction h with
  | nil => rfl
  | cons a _ ih => rw [List.filter_cons, List.filter_cons, ih (List.nodup_cons.1 hnodup).2]
  | swap a b l =>
    have hne : key b ≠ key a := fun he =>
      (List.nodup_cons.1 hnodup).1 (List.mem_cons.2 (.inl he))
    by_cases hb : key b = k
    · have ha : ¬ key a = k := fun ha => hne (hb.trans ha.symm)
      simp [hb, ha]
    · rw [List.filter_cons, List.filter_cons, List.filter_cons, List.filter_cons]
      simp only [hb, decide_false, Bool.false_eq_true, if_false]
  | trans h _ ih ih' => rw [ih hnodup, ih' ((h.map key).nodup_iff.1 hnodup)]

end RuleNetwork
