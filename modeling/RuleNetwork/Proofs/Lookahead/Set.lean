import Mathlib.Data.String.Basic
import RuleNetwork.Lookahead.Set
import RuleNetwork.Proofs.Container
import RuleNetwork.Proofs.Sorting

/-!
Membership in lookahead sets. The end of input is told apart from the other tokens, but it is a member
like them. What sets share are the tokens of any two of them, so their order does not matter, and
neither do dynamic sets among them.
-/

set_option autoImplicit false

namespace RuleNetwork.LookaheadSet

theorem mem_sortedDistinct {names : List String} {x : String} :
    x ∈ sortedDistinct names ↔ x ∈ names := by
  unfold sortedDistinct
  rw [List.mem_mergeSort, OrderedSet.mem_toList_ofList]

theorem contains_of {names : List String} {epsilon eof : Bool} {x : String} :
    (of names epsilon eof).contains x = true ↔ x ∈ names ∨ x = endOfInput ∧ eof = true := by
  unfold contains of
  split
  · rename_i hx
    subst hx
    simp [or_comm]
  · rename_i hx
    simp [mem_sortedDistinct, hx]

theorem contains_ofTokens {names : List String} {x : String} :
    (ofTokens names).contains x = true ↔ x ∈ names := by
  simp [ofTokens, contains_of]

/-- The tokens are in order, once each, and the end of input is not listed with them. -/
structure Normal (s : LookaheadSet) : Prop where
  sorted : s.tokens.Pairwise (· < ·)
  apart : endOfInput ∉ s.tokens

theorem normal_of {names : List String} {epsilon eof : Bool} : (of names epsilon eof).Normal where
  sorted := by
    have hnodup := (OrderedSet.ofList (names.filter (· != endOfInput))).nodup_toList
    rw [← List.map_id (OrderedSet.toList _)] at hnodup
    exact pairwise_lt_mergeSort hnodup
  apart h := by simpa using List.of_mem_filter (mem_sortedDistinct.1 h)

theorem normal_makeDynamic : makeDynamic.Normal := ⟨.nil, List.not_mem_nil⟩

namespace Normal

variable {s : LookaheadSet} (h : s.Normal)
include h

theorem contains_iff {x : String} :
    s.contains x = true ↔ x ∈ s.tokens ∨ x = endOfInput ∧ s.eof = true := by
  have hapart := h.apart
  unfold contains
  split
  · rename_i hx
    simp [hx, hapart]
  · rename_i hx
    simp [hx]

/-- The empty text and a guard are no members. -/
theorem size_pos_iff : 0 < s.size ↔ ∃ x, s.contains x = true := by
  simp only [h.contains_iff, exists_or, exists_eq_left, size]
  rw [← List.length_pos_iff_exists_mem]
  split <;> simp_all

end Normal

/-- A set of tokens alone, without the empty text and without a guard. -/
structure Bare (s : LookaheadSet) : Prop extends s.Normal where
  solid : s.epsilon = false
  static : s.dynamic = false

theorem bare_empty : ({} : LookaheadSet).Bare := ⟨⟨.nil, List.not_mem_nil⟩, rfl, rfl⟩

theorem bare_intersection (a b : LookaheadSet) : (a.intersection b).Bare := by
  unfold intersection
  split
  · exact bare_empty
  · exact ⟨normal_of, rfl, rfl⟩

/-- A set of tokens is known from its members. -/
theorem Bare.ext {a b : LookaheadSet} (ha : a.Bare) (hb : b.Bare)
    (h : ∀ x, a.contains x = true ↔ b.contains x = true) : a = b := by
  have heof : a.eof = b.eof := by simpa [contains] using h endOfInput
  have htokens : a.tokens = b.tokens :=
    List.Pairwise.eq_of_mem_iff ha.sorted hb.sorted fun x => by
      by_cases hx : x = endOfInput
      · subst hx
        exact iff_of_false ha.apart hb.apart
      · simpa [contains, hx] using h x
  cases a
  cases b
  obtain ⟨-, hsolid, hstatic⟩ := ha
  obtain ⟨-, hsolid', hstatic'⟩ := hb
  simp_all

theorem bare_union {a b : LookaheadSet} (ha : a.Bare) (hb : b.Bare) : (a.union b).Bare := by
  unfold union
  rw [if_neg (by simp [ha.static, hb.static])]
  exact ⟨normal_of, by simp [of, ha.solid, hb.solid], rfl⟩

theorem contains_union {a b : LookaheadSet} (ha : a.Bare) (hb : b.Bare) {x : String} :
    (a.union b).contains x = true ↔ a.contains x = true ∨ b.contains x = true := by
  unfold union
  rw [if_neg (by simp [ha.static, hb.static]), contains_of, ha.contains_iff, hb.contains_iff,
    List.mem_append, Bool.or_eq_true]
  tauto

/-- The token is in both sets, and neither is dynamic. -/
def Common (a b : LookaheadSet) (x : String) : Prop :=
  a.dynamic = false ∧ b.dynamic = false ∧ a.contains x = true ∧ b.contains x = true

theorem Common.symm {a b : LookaheadSet} {x : String} (h : a.Common b x) : b.Common a x :=
  ⟨h.2.1, h.1, h.2.2.2, h.2.2.1⟩

theorem contains_intersection {a b : LookaheadSet} (ha : a.dynamic = false → a.Normal)
    (hb : b.dynamic = false → b.Normal) {x : String} :
    (a.intersection b).contains x = true ↔ a.Common b x := by
  unfold intersection Common
  split
  · rename_i hdynamic
    rw [Bool.or_eq_true] at hdynamic
    refine iff_of_false (by simp [contains]) fun ⟨hs, hs', _⟩ => ?_
    simp [hs, hs'] at hdynamic
  · rename_i hdynamic
    rw [Bool.or_eq_true, not_or, Bool.not_eq_true, Bool.not_eq_true] at hdynamic
    have hapart := (ha hdynamic.1).apart
    have hapart' := (hb hdynamic.2).apart
    rw [contains_of, (ha hdynamic.1).contains_iff, (hb hdynamic.2).contains_iff, List.mem_filter,
      List.contains_iff_mem, Bool.and_eq_true]
    by_cases hx : x = endOfInput
    · subst hx
      simp [hdynamic, hapart, hapart']
    · simp [hdynamic, hx]

theorem overlaps_iff {a b : LookaheadSet} (ha : a.dynamic = false → a.Normal)
    (hb : b.dynamic = false → b.Normal) :
    a.overlaps b = true ↔ ∃ x, a.Common b x := by
  simp only [overlaps, decide_eq_true_eq, (bare_intersection a b).size_pos_iff,
    contains_intersection ha hb]

/-- What a set has in common with some others is found with what was found before. -/
theorem foldl_union (a : LookaheadSet) (l : List LookaheadSet) {found : LookaheadSet}
    (hf : found.Bare) :
    (l.foldl (fun found b => found.union (a.intersection b)) found).Bare ∧ ∀ x,
      (l.foldl (fun found b => found.union (a.intersection b)) found).contains x = true ↔
        found.contains x = true ∨ ∃ b ∈ l, (a.intersection b).contains x = true := by
  induction l generalizing found with
  | nil => simpa using hf
  | cons b l ih =>
    obtain ⟨hbare, hcontains⟩ := ih (bare_union hf (bare_intersection a b))
    refine ⟨hbare, fun x => ?_⟩
    rw [List.foldl_cons, hcontains, contains_union hf (bare_intersection a b), List.exists_mem_cons_iff,
      or_assoc]

theorem bare_shared (l : List LookaheadSet) {found : LookaheadSet} (hf : found.Bare) :
    (shared l found).Bare := by
  induction l generalizing found with
  | nil => exact hf
  | cons a l ih => exact ih (foldl_union a l hf).1

/-- A token is missing from what sets share if no two of them have it in common. -/
theorem contains_shared {l : List LookaheadSet} (hl : ∀ s ∈ l, s.dynamic = false → s.Normal)
    {found : LookaheadSet} (hf : found.Bare) {x : String} : (shared l found).contains x = true ↔
      found.contains x = true ∨ ¬ l.Pairwise fun a b => ¬ a.Common b x := by
  induction l generalizing found with
  | nil => simp [shared]
  | cons a l ih =>
    obtain ⟨ha, hrest⟩ := List.forall_mem_cons.1 hl
    obtain ⟨hbare, hcontains⟩ := foldl_union a l hf
    have hmeets : (∃ b ∈ l, (a.intersection b).contains x = true) ↔ ∃ b ∈ l, a.Common b x :=
      exists_congr fun b => and_congr_right fun hb => contains_intersection ha (hrest b hb)
    rw [shared, ih hrest hbare, hcontains, hmeets, List.pairwise_cons, or_assoc, not_and_or]
    simp only [not_forall, not_not, exists_prop]

/-- The token is in the sets of two alternatives, neither of which is dynamic. -/
def InTwo (l : List LookaheadSet) (x : String) : Prop :=
  ∃ (i j : Nat) (a b : LookaheadSet), i ≠ j ∧ l[i]? = some a ∧ l[j]? = some b ∧ a.Common b x

theorem inTwo_iff {l : List LookaheadSet} {x : String} :
    InTwo l x ↔ ¬ l.Pairwise fun a b => ¬ a.Common b x := by
  rw [List.pairwise_iff_getElem]
  simp only [not_forall, not_not]
  constructor
  · rintro ⟨i, j, a, b, hij, ha, hb, hx⟩
    obtain ⟨hi, rfl⟩ := List.getElem?_eq_some_iff.1 ha
    obtain ⟨hj, rfl⟩ := List.getElem?_eq_some_iff.1 hb
    obtain hlt | hlt := Nat.lt_or_gt_of_ne hij
    · exact ⟨i, j, hi, hj, hlt, hx⟩
    · exact ⟨j, i, hj, hi, hlt, hx.symm⟩
  · rintro ⟨i, j, hi, hj, hlt, hx⟩
    exact ⟨i, j, _, _, hlt.ne, List.getElem?_eq_getElem hi, List.getElem?_eq_getElem hj, hx⟩

theorem contains_shared_iff {l : List LookaheadSet} (hl : ∀ s ∈ l, s.dynamic = false → s.Normal) {x : String} :
    (shared l {}).contains x = true ↔ InTwo l x := by
  rw [contains_shared hl bare_empty, inTwo_iff]
  simp [contains]

theorem size_shared_iff {l : List LookaheadSet} (hl : ∀ s ∈ l, s.dynamic = false → s.Normal) :
    0 < (shared l {}).size ↔ ∃ (i j : Nat) (a b : LookaheadSet), i ≠ j ∧ l[i]? = some a ∧
      l[j]? = some b ∧ a.overlaps b = true := by
  rw [(bare_shared l bare_empty).size_pos_iff]
  constructor
  · rintro ⟨x, hx⟩
    obtain ⟨i, j, a, b, hij, ha, hb, hcommon⟩ := (contains_shared_iff hl).1 hx
    exact ⟨i, j, a, b, hij, ha, hb, (overlaps_iff (hl a (List.mem_of_getElem? ha))
      (hl b (List.mem_of_getElem? hb))).2 ⟨x, hcommon⟩⟩
  · rintro ⟨i, j, a, b, hij, ha, hb, hover⟩
    obtain ⟨x, hcommon⟩ := (overlaps_iff (hl a (List.mem_of_getElem? ha))
      (hl b (List.mem_of_getElem? hb))).1 hover
    exact ⟨x, (contains_shared_iff hl).2 ⟨i, j, a, b, hij, ha, hb, hcommon⟩⟩

/-- Only the static sets count, in any order. -/
theorem shared_eq_of_perm {l l' : List LookaheadSet} (hl : ∀ s ∈ l, s.dynamic = false → s.Normal)
    (h : (l'.filter fun s => !s.dynamic).Perm (l.filter fun s => !s.dynamic)) :
    shared l' {} = shared l {} := by
  have hstatic : ∀ (m : List LookaheadSet) (x : String),
      (m.Pairwise fun a b => ¬ a.Common b x) ↔
        (m.filter fun s => !s.dynamic).Pairwise fun a b => ¬ a.Common b x := fun m x => by
    rw [List.pairwise_filter]
    refine ⟨fun hm => hm.imp fun hab _ _ => hab, fun hm => hm.imp fun hab hcommon => ?_⟩
    exact hab (by simp [hcommon.1]) (by simp [hcommon.2.1]) hcommon
  have hl' : ∀ s ∈ l', s.dynamic = false → s.Normal := fun s hs hstatic => by
    have hin := h.mem_iff.1 (List.mem_filter.2 ⟨hs, by simp [hstatic]⟩)
    exact hl s (List.mem_of_mem_filter hin) hstatic
  refine (bare_shared l' bare_empty).ext (bare_shared l bare_empty) fun x => ?_
  rw [contains_shared hl' bare_empty, contains_shared hl bare_empty, hstatic l', hstatic l,
    h.pairwise_iff fun hab hba => hab hba.symm]

end RuleNetwork.LookaheadSet
