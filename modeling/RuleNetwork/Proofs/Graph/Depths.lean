import Mathlib.Order.Bounds.Basic
import RuleNetwork.Graph.Depths
import RuleNetwork.Proofs.Graph.Components

/-!
The depths of components. The graph of the components has each link between two of them once, and links
lead from later places to earlier ones. So no component waits for ever: when all that lead to it have
been taken, its depth is one more than the greatest of theirs, and this is the length of the longest path
to it.
-/

set_option autoImplicit false

namespace RuleNetwork

open Relation

namespace Digraph

section Paths

variable {β : Type} {step : β → β → Prop}

/-- A number that grows along every step, and by no more than one along some step to each node that has
it above zero, is the length of the longest path. -/
theorem isGreatest_length (depth : β → Nat) (hle : ∀ a b, step a b → depth a + 1 ≤ depth b)
    (hstep : ∀ b, depth b = 0 ∨ ∃ a, step a b ∧ depth b = depth a + 1) (b : β) :
    IsGreatest {n | ∃ path : List β, (path ++ [b]).IsChain step ∧ path.length = n} (depth b) := by
  constructor
  · induction hd : depth b generalizing b with
    | zero => exact ⟨[], List.isChain_singleton b, rfl⟩
    | succ d ih =>
      obtain ⟨a, hab, heq⟩ := (hstep b).resolve_left (by omega)
      obtain ⟨path, hpath, hlen⟩ := ih a (by omega)
      exact ⟨path ++ [a], hpath.append (List.isChain_singleton b) (by simpa using hab), by simp [hlen]⟩
  · rintro n ⟨path, hpath, rfl⟩
    induction path using List.reverseRecOn generalizing b with
    | nil => exact Nat.zero_le _
    | append_singleton path a ih =>
      rw [List.isChain_append] at hpath
      have hab : step a b := hpath.2.2 a (by simp) b rfl
      have hlen := ih a hpath.1
      have hlt := hle a b hab
      rw [List.length_append, List.length_singleton]
      omega

end Paths

namespace Levels

variable {i j : Nat} {s : Levels} {l : List Nat}

theorem degree_put (s : Levels) (j n k : Nat) :
    ((s.degrees.put j n).get? k).getD 0 = if k = j then n else s.degree k := by
  rw [OrderedMap.get?_put]
  unfold degree
  split <;> simp_all [eq_comm]

/-- What is lowered when a component is taken, for a list of those that it leads to. -/
theorem foldl_lower (hi : i ∉ l) (hl : l.Nodup) :
    (∀ k, (l.foldl (lower i) s).degree k = if k ∈ l then s.degree k - 1 else s.degree k) ∧
      (∀ k, (l.foldl (lower i) s).depth k =
        if k ∈ l then max (s.depth k) (s.depth i + 1) else s.depth k) ∧
      (l.foldl (lower i) s).queue = s.queue ++ l.filter fun k => s.degree k - 1 = 0 := by
  induction l generalizing s with
  | nil => simp
  | cons j l ih =>
    obtain ⟨hj, hl⟩ := List.nodup_cons.1 hl
    rw [List.mem_cons, not_or] at hi
    obtain ⟨hdegree, hdepth, hqueue⟩ := ih (s := lower i s j) hi.2 hl
    have hdegree' : ∀ k, (lower i s j).degree k = if k = j then s.degree j - 1 else s.degree k :=
      fun k => degree_put s j _ k
    have hdepth' : ∀ k, (lower i s j).depth k =
        if k = j then max (s.depth j) (s.depth i + 1) else s.depth k := fun k => by
      unfold depth lower
      simp only [OrderedMap.get?_put]
      split <;> simp_all [depth, eq_comm]
    have hmem : ∀ k, k ∈ j :: l ↔ k = j ∨ k ∈ l := fun k => List.mem_cons
    refine ⟨fun k => ?_, fun k => ?_, ?_⟩
    · rw [List.foldl_cons, hdegree, hdegree']
      by_cases hk : k = j
      · subst hk
        simp [hj]
      · simp [hk]
    · rw [List.foldl_cons, hdepth, hdepth', hdepth' i, if_neg hi.1]
      by_cases hk : k = j
      · subst hk
        simp [hj]
      · simp [hk]
    · rw [List.foldl_cons, hqueue]
      have hfilter : l.filter (fun k => (lower i s j).degree k - 1 = 0) =
          l.filter fun k => s.degree k - 1 = 0 := List.filter_congr fun k hk => by
        rw [hdegree', if_neg (ne_of_mem_of_not_mem hk hj)]
      rw [hfilter, List.filter_cons]
      unfold lower
      by_cases h0 : s.degree j - 1 = 0
      · simp [h0]
      · simp [h0]

/-- Links without repetition, each from a later one of so many places to an earlier one. -/
structure Falling (links : Nat → List Nat) (n : Nat) : Prop where
  nodup : ∀ i, (links i).Nodup
  lt : ∀ {i j}, j ∈ links i → j < i ∧ i < n

/-- What leads to a component and has not been taken. -/
def pending (links : Nat → List Nat) (n : Nat) (taken : List Nat) (j : Nat) : Finset Nat :=
  (Finset.range n).filter fun i => j ∈ links i ∧ i ∉ taken

/-- While components are taken, it is known how many are still to come before each, and those wait or have
been taken before which none is to come. -/
structure Waiting (links : Nat → List Nat) (n : Nat) (taken : List Nat) (s : Levels) : Prop where
  degree : ∀ j, s.degree j = (pending links n taken j).card
  nodup : (s.queue ++ taken).Nodup
  ready : ∀ j, (j ∈ s.queue ∨ j ∈ taken) ↔ j < n ∧ ∀ i, j ∈ links i → i ∈ taken

/-- Depths tell the longest paths through components taken. -/
structure Measured (links : Nat → List Nat) (taken : List Nat) (s : Levels) : Prop where
  le_depth : ∀ {i j}, i ∈ taken → j ∈ links i → s.depth i + 1 ≤ s.depth j
  exists_depth : ∀ j, s.depth j = 0 ∨ ∃ i ∈ taken, j ∈ links i ∧ s.depth j = s.depth i + 1

variable {links : Nat → List Nat} {n : Nat} {taken queue : List Nat}

theorem pending_cons_of_mem (hij : j ∈ links i) (hin : i < n) (hi : i ∉ taken) :
    (pending links n taken j).card = (pending links n (i :: taken) j).card + 1 := by
  have hmem : i ∈ pending links n taken j :=
    Finset.mem_filter.2 ⟨Finset.mem_range.2 hin, hij, hi⟩
  have herase : pending links n (i :: taken) j = (pending links n taken j).erase i := by
    ext k
    simp only [pending, Finset.mem_filter, Finset.mem_erase, List.mem_cons, not_or]
    tauto
  rw [herase, Finset.card_erase_add_one hmem]

theorem pending_cons_of_not_mem (hij : j ∉ links i) :
    pending links n (i :: taken) j = pending links n taken j := by
  ext k
  simp only [pending, Finset.mem_filter, List.mem_cons, not_or]
  refine and_congr_right fun _ => and_congr_right fun hk => and_iff_right ?_
  rintro rfl
  exact hij hk

theorem pending_eq_empty_iff (hlinks : Falling links n) :
    (pending links n taken j).card = 0 ↔ ∀ i, j ∈ links i → i ∈ taken := by
  rw [Finset.card_eq_zero, pending, Finset.filter_eq_empty_iff]
  constructor
  · intro h i hij
    by_contra hi
    exact h (Finset.mem_range.2 (hlinks.lt hij).2) ⟨hij, hi⟩
  · exact fun h i _ hi => hi.2 (h i hi.1)

section Take

variable (hlinks : Falling links n)
include hlinks

theorem take_ok (s : Levels) (i : Nat) (queue : List Nat) :
    (∀ k, (s.take links i queue).degree k = if k ∈ links i then s.degree k - 1 else s.degree k) ∧
      (∀ k, (s.take links i queue).depth k =
        if k ∈ links i then max (s.depth k) (s.depth i + 1) else s.depth k) ∧
      ∃ fresh, (s.take links i queue).queue = queue ++ fresh ∧ fresh.Nodup ∧
        ∀ k, k ∈ fresh ↔ k ∈ links i ∧ s.degree k - 1 = 0 := by
  have hperm := List.mergeSort_perm (links i) (fun a b => decide (a ≤ b))
  have hmem : ∀ k, k ∈ (links i).mergeSort ↔ k ∈ links i := fun k => hperm.mem_iff
  have hnodup := hperm.nodup_iff.2 (hlinks.nodup i)
  have hself : i ∉ (links i).mergeSort := fun hi => Nat.lt_irrefl i (hlinks.lt ((hmem i).1 hi)).1
  obtain ⟨hdegree, hdepth, hqueue⟩ := foldl_lower (s := { s with queue := queue }) hself hnodup
  simp only [hmem] at hdegree hdepth
  refine ⟨hdegree, hdepth, _, hqueue, hnodup.filter _, fun k => ?_⟩
  rw [List.mem_filter, hmem, decide_eq_true_iff]
  exact Iff.rfl

namespace Waiting

variable (h : Waiting links n taken s) (hqueue : s.queue = i :: queue)
include h hqueue

omit hlinks in
theorem next : i < n ∧ (∀ k, i ∈ links k → k ∈ taken) ∧ i ∉ taken := by
  have hnodup := h.nodup
  rw [hqueue] at hnodup
  have hi := (h.ready i).1 (.inl (by simp [hqueue]))
  exact ⟨hi.1, hi.2, fun ht => (List.nodup_append.1 hnodup).2.2 i (List.mem_cons_self ..) i ht rfl⟩

omit hlinks in
/-- What a component leads to has been waiting for it. -/
theorem not_ready (hij : j ∈ links i) : j ∉ i :: queue ∧ j ∉ taken := by
  rw [← not_or, ← hqueue]
  exact fun hor => (h.next hqueue).2.2 (((h.ready j).1 hor).2 i hij)

theorem take : Waiting links n (i :: taken) (s.take links i queue) := by
  obtain ⟨hdegree, -, fresh, hfresh, hnodup, hmem⟩ := take_ok hlinks s i queue
  obtain ⟨hin, hbefore, hnew⟩ := h.next hqueue
  have hready := h.ready
  have hdistinct := h.nodup
  rw [hqueue] at hready hdistinct
  have hcard : ∀ k, k ∈ links i → s.degree k - 1 = (pending links n (i :: taken) k).card := fun k hk => by
    rw [h.degree, pending_cons_of_mem hk hin hnew, Nat.add_sub_cancel]
  have hmem' : ∀ k, k ∈ fresh ↔ k ∈ links i ∧ ∀ j, k ∈ links j → j ∈ i :: taken := fun k => by
    rw [hmem]
    refine and_congr_right fun hk => ?_
    rw [hcard k hk, pending_eq_empty_iff hlinks]
  refine ⟨fun j => ?_, ?_, fun j => ?_⟩
  · rw [hdegree]
    split
    · rename_i hij
      exact hcard j hij
    · rename_i hij
      rw [h.degree, pending_cons_of_not_mem hij]
  · have hmoved : (queue ++ fresh ++ i :: taken).Perm (fresh ++ i :: (queue ++ taken)) := by
      refine (List.perm_append_comm.append_right _).trans ?_
      rw [List.append_assoc]
      exact List.Perm.append_left _ List.perm_middle
    rw [hfresh]
    refine hmoved.nodup_iff.2 (List.nodup_append.2 ⟨hnodup, hdistinct, ?_⟩)
    rintro k hk _ hk' rfl
    obtain ⟨h1, h2⟩ := h.not_ready hqueue ((hmem k).1 hk).1
    rw [← List.cons_append] at hk'
    exact (List.mem_append.1 hk').elim h1 h2
  · rw [hfresh, List.mem_append, hmem', List.mem_cons]
    -- what was ready before stays so
    have hold : (j ∈ queue ∨ j = i ∨ j ∈ taken) ↔ j < n ∧ ∀ k, j ∈ links k → k ∈ taken := by
      rw [← hready, List.mem_cons]
      tauto
    constructor
    · rintro ((hj | ⟨hij, hall⟩) | hj)
      · obtain ⟨hjn, hall⟩ := hold.1 (.inl hj)
        exact ⟨hjn, fun k hk => List.mem_cons_of_mem _ (hall k hk)⟩
      · exact ⟨(hlinks.lt hij).1.trans hin, hall⟩
      · obtain ⟨hjn, hall⟩ := hold.1 (.inr hj)
        exact ⟨hjn, fun k hk => List.mem_cons_of_mem _ (hall k hk)⟩
    · rintro ⟨hjn, hall⟩
      by_cases hij : j ∈ links i
      · exact .inl (.inr ⟨hij, hall⟩)
      · have hj := hold.2 ⟨hjn, fun k hk => (List.mem_cons.1 (hall k hk)).resolve_left
          fun hki => hij (hki ▸ hk)⟩
        exact hj.imp_left .inl

/-- Depths tell no less when a component is taken, and those of components taken stay. -/
theorem measured (hdepths : Measured links taken s) :
    Measured links (i :: taken) (s.take links i queue) := by
  obtain ⟨-, hdepth, -⟩ := take_ok hlinks s i queue
  have hkept : ∀ k ∈ i :: taken, (s.take links i queue).depth k = s.depth k := fun k hk => by
    rw [hdepth, if_neg]
    intro hki
    obtain rfl | hk := List.mem_cons.1 hk
    · exact (h.not_ready hqueue hki).1 (List.mem_cons_self ..)
    · exact (h.not_ready hqueue hki).2 hk
  refine ⟨fun {k j} hk hkj => ?_, fun j => ?_⟩
  · rw [hkept k hk, hdepth]
    obtain rfl | hk := List.mem_cons.1 hk
    · rw [if_pos hkj]
      exact le_max_right _ _
    · have hle := hdepths.le_depth hk hkj
      split
      · exact hle.trans (le_max_left _ _)
      · exact hle
  · have hold : s.depth j = 0 ∨ ∃ k ∈ i :: taken, j ∈ links k ∧
        s.depth j = (s.take links i queue).depth k + 1 :=
      (hdepths.exists_depth j).imp_right fun ⟨k, hk, hkj, heq⟩ =>
        ⟨k, List.mem_cons_of_mem _ hk, hkj, by rw [hkept k (List.mem_cons_of_mem _ hk), heq]⟩
    rw [hdepth]
    split
    · rename_i hij
      obtain hmax | hmax := max_choice (s.depth j) (s.depth i + 1)
      · rw [hmax]
        exact hold
      · exact .inr ⟨i, List.mem_cons_self .., hij, by rw [hmax, hkept i (List.mem_cons_self ..)]⟩
    · exact hold

end Waiting

end Take

theorem Waiting.length_le (h : Waiting links n taken s) : (s.queue ++ taken).length ≤ n := by
  have hsub : ∀ j ∈ s.queue ++ taken, j ∈ List.range n := fun j hj =>
    List.mem_range.2 ((h.ready j).1 (List.mem_append.1 hj)).1
  simpa using (h.nodup.subperm hsub).length_le

/-- When none waits any more, all have been taken. -/
theorem Waiting.mem_taken (h : Waiting links n taken s) (hlinks : Falling links n)
    (hqueue : s.queue = []) (hj : j < n) : j ∈ taken := by
  induction hd : n - j using Nat.strongRecOn generalizing j with
  | ind d ih =>
    have hready := (h.ready j).2 ⟨hj, fun i hij => ?_⟩
    · rw [hqueue] at hready
      exact hready.resolve_left List.not_mem_nil
    · obtain ⟨hji, hi⟩ := hlinks.lt hij
      exact ih (n - i) (by omega) hi rfl

theorem settle_ok (hlinks : Falling links n) {bound : Nat} (h : Waiting links n taken s)
    (hdepths : Measured links taken s) (hbound : n ≤ bound + taken.length) :
    (∀ {i j}, j ∈ links i →
        (settle links bound s).depth i + 1 ≤ (settle links bound s).depth j) ∧
      ∀ j, (settle links bound s).depth j = 0 ∨
        ∃ i, j ∈ links i ∧ (settle links bound s).depth j = (settle links bound s).depth i + 1 := by
  have hend : ∀ {taken} {s : Levels}, Waiting links n taken s → Measured links taken s → s.queue = [] →
      (∀ {i j}, j ∈ links i → s.depth i + 1 ≤ s.depth j) ∧
        ∀ j, s.depth j = 0 ∨ ∃ i, j ∈ links i ∧ s.depth j = s.depth i + 1 :=
    fun {taken s} h hdepths hqueue =>
      ⟨fun hij => hdepths.le_depth (h.mem_taken hlinks hqueue (hlinks.lt hij).2) hij,
        fun j => (hdepths.exists_depth j).imp_right fun ⟨i, _, hi⟩ => ⟨i, hi⟩⟩
  induction bound generalizing taken s with
  | zero =>
    have hlen := h.length_le
    rw [List.length_append] at hlen
    have hqueue : s.queue = [] := List.length_eq_zero_iff.1 (by omega)
    exact hend h hdepths hqueue
  | succ bound ih =>
    unfold settle
    split
    · rename_i hqueue
      exact hend h hdepths hqueue
    · rename_i i queue hqueue
      exact ih (h.take hlinks hqueue) (h.measured hlinks hqueue hdepths)
        (by rw [List.length_cons]; omega)

end Levels

namespace Condensed

/-- The links between places are those of a list of pairs, but for pairs of one place twice, and each is
counted once. -/
structure Of (d : Condensed) (n : Nat) (pairs : List (Nat × Nat)) : Prop where
  links : ∀ i j, j ∈ d.linksOf i ↔ i ≠ j ∧ (i, j) ∈ pairs
  nodup : ∀ i, (d.linksOf i).Nodup
  degrees : ∀ j, (d.degrees.get? j).getD 0 = ((Finset.range n).filter fun i => j ∈ d.linksOf i).card

theorem of_empty (n : Nat) : ({} : Condensed).Of n [] where
  links i j := by
    simp only [List.not_mem_nil, and_false, iff_false]
    exact List.not_mem_nil
  nodup i := List.nodup_nil
  degrees j := by
    have hnone : ∀ i, j ∉ ({} : Condensed).linksOf i := fun i => List.not_mem_nil
    simp only [hnone, Finset.filter_false, Finset.card_empty]
    rfl

theorem linksOf_put (d : Condensed) (degrees : OrderedMap Nat Nat) (i k : Nat) (l : List Nat) :
    linksOf ⟨d.links.put i l, degrees⟩ k = if i = k then l else d.linksOf k := by
  unfold linksOf
  simp only [OrderedMap.get?_put]
  split <;> rfl

theorem mem_linksOf_put (d : Condensed) (degrees : OrderedMap Nat Nat) (i j k m : Nat) :
    m ∈ linksOf ⟨d.links.put i (d.linksOf i ++ [j]), degrees⟩ k ↔
      m ∈ d.linksOf k ∨ (k = i ∧ m = j) := by
  rw [linksOf_put]
  by_cases hk : i = k
  · subst hk
    simp
  · simp [hk, Ne.symm hk]

/-- A new link is one more to the place that it leads to, and none to others. -/
theorem card_mem_or {P : Nat → Prop} [DecidablePred P] {n i : Nat} {q : Prop} [Decidable q]
    (hi : i < n) (hnew : ¬ P i) : ((Finset.range n).filter fun k => P k ∨ (k = i ∧ q)).card =
      ((Finset.range n).filter P).card + if q then 1 else 0 := by
  by_cases hq : q
  · have hinsert : ((Finset.range n).filter fun k => P k ∨ (k = i ∧ q)) =
        insert i ((Finset.range n).filter P) := by
      ext k
      simp only [Finset.mem_filter, Finset.mem_insert, Finset.mem_range]
      constructor
      · rintro ⟨hk, hP | ⟨rfl, -⟩⟩
        · exact .inr ⟨hk, hP⟩
        · exact .inl rfl
      · rintro (rfl | ⟨hk, hP⟩)
        · exact ⟨hi, .inr ⟨rfl, hq⟩⟩
        · exact ⟨hk, .inl hP⟩
    rw [hinsert, Finset.card_insert_of_notMem fun hmem => hnew (Finset.mem_filter.1 hmem).2, if_pos hq]
  · simp [hq]

theorem Of.link {d : Condensed} {n i j : Nat} {pairs : List (Nat × Nat)} (h : d.Of n pairs)
    (hi : i < n) : (d.link i j).Of n (pairs ++ [(i, j)]) := by
  unfold Condensed.link
  split
  · rename_i hknown
    refine ⟨fun i' j' => (h.links i' j').trans (and_congr_right fun hne => ?_), h.nodup, h.degrees⟩
    rw [List.mem_append, List.mem_singleton]
    refine (or_iff_left_of_imp ?_).symm
    rintro ⟨⟩
    exact ((h.links i j).1 (hknown.resolve_left hne)).2
  · rename_i hnew
    obtain ⟨hne, hnot⟩ := not_or.1 hnew
    refine ⟨fun k m => ?_, fun k => ?_, fun m => ?_⟩
    · rw [mem_linksOf_put, h.links, List.mem_append, List.mem_singleton, Prod.mk.injEq]
      constructor
      · rintro (⟨hkm, hmem⟩ | ⟨rfl, rfl⟩)
        · exact ⟨hkm, .inl hmem⟩
        · exact ⟨hne, .inr ⟨rfl, rfl⟩⟩
      · rintro ⟨hkm, hmem | heq⟩
        · exact .inl ⟨hkm, hmem⟩
        · exact .inr heq
    · rw [linksOf_put]
      split
      · refine List.nodup_append.2 ⟨h.nodup i, List.nodup_singleton j, ?_⟩
        rintro a ha _ hb rfl
        exact hnot (List.mem_singleton.1 hb ▸ ha)
      · exact h.nodup k
    · simp only [mem_linksOf_put, OrderedMap.get?_put]
      by_cases hm : m = j
      · subst hm
        rw [card_mem_or hi hnot, if_pos rfl, if_pos rfl, Option.getD_some, h.degrees]
      · simp only [hm, and_false, or_false]
        rw [if_neg (Ne.symm hm), h.degrees]

theorem of_foldl {n : Nat} (pairs : List (Nat × Nat)) (hlt : ∀ e ∈ pairs, e.1 < n) :
    (pairs.foldl (fun (d : Condensed) e => d.link e.1 e.2) {}).Of n pairs := by
  induction pairs using List.reverseRecOn with
  | nil => exact of_empty n
  | append_singleton pairs e ih =>
    rw [List.foldl_append, List.foldl_cons, List.foldl_nil]
    exact (ih fun e he => hlt e (List.mem_append_left _ he)).link (hlt e (by simp))

end Condensed

section Depths

variable {α : Type} [DecidableEq α] {g : Digraph α} {found : List (List α)}

omit [DecidableEq α] in
theorem keys_places (found : List (List α)) :
    (found.zipIdx.flatMap fun (c, i) => c.map fun a => (a, i)).map Prod.fst = found.flatten := by
  have hzip : (found.zipIdx.map Prod.fst).flatten = found.flatten := by rw [List.zipIdx_map_fst]
  rw [← hzip, List.map_flatMap, List.flatMap_def]
  simp [Function.comp_def]

theorem entries_places (h : found.flatten.Nodup) :
    (places found).entries = found.zipIdx.flatMap fun (c, i) => c.map fun a => (a, i) :=
  OrderedMap.entries_ofList (by rw [keys_places]; exact h)

theorem mem_entries_places (h : found.flatten.Nodup) {a : α} {i : Nat} :
    (a, i) ∈ (places found).entries ↔ ∃ c, found[i]? = some c ∧ a ∈ c := by
  rw [entries_places h]
  simp only [List.mem_flatMap, List.mem_map, Prod.exists, Prod.mk.injEq, List.mk_mem_zipIdx_iff_getElem?]
  constructor
  · rintro ⟨c, i', hc, a', ha, rfl, rfl⟩
    exact ⟨c, hc, ha⟩
  · rintro ⟨c, hc, ha⟩
    exact ⟨c, i, hc, a, ha, rfl, rfl⟩

theorem placeOf_ok (h : found.flatten.Nodup) {a : α} (ha : a ∈ found.flatten) :
    ∃ i, placeOf (places found) a = .ok i ∧ ∃ c, found[i]? = some c ∧ a ∈ c := by
  obtain ⟨c, hc, ha⟩ := List.mem_flatten.1 ha
  obtain ⟨i, hi⟩ := List.mem_iff_getElem?.1 hc
  have hget := (OrderedMap.get?_eq_some_iff _).2 ((mem_entries_places h).2 ⟨c, hi, ha⟩)
  refine ⟨i, ?_, c, hi, ha⟩
  unfold placeOf
  rw [hget]

/-- An edge between two components, told by their places. -/
def Links (g : Digraph α) (found : List (List α)) (i j : Nat) : Prop :=
  i ≠ j ∧ ∃ c c', found[i]? = some c ∧ found[j]? = some c' ∧ ∃ a ∈ c, ∃ b ∈ c', g.Edge a b

/-- The edges of a graph, row by row. -/
def rowEdges (g : Digraph α) : List (α × α) := g.rows.entries.flatMap fun (a, l) => l.map fun b => (a, b)

theorem mem_rowEdges {e : α × α} : e ∈ g.rowEdges ↔ g.Edge e.1 e.2 := by
  unfold rowEdges
  rw [edge_iff, List.mem_flatMap]
  constructor
  · rintro ⟨⟨a, l⟩, hl, he⟩
    obtain ⟨b, hb, rfl⟩ := List.mem_map.1 he
    exact ⟨l, hl, hb⟩
  · rintro ⟨l, hl, hb⟩
    exact ⟨(e.1, l), hl, List.mem_map.2 ⟨e.2, hb, rfl⟩⟩

theorem condense_eq (places : OrderedMap α Nat) :
    g.condense places = g.rowEdges.foldlM (fun d e => do
      return d.link (← placeOf places e.1) (← placeOf places e.2)) {} := rfl

/-- The graph of components that hold all nodes with edges. -/
theorem condense_ok (h : g.Partition found)
    (hin : ∀ {a b}, g.Edge a b → a ∈ found.flatten ∧ b ∈ found.flatten) :
    ∃ d pairs, g.condense (places found) = .ok d ∧ d.Of found.length pairs ∧
      ∀ i j, j ∈ d.linksOf i ↔ g.Links found i j := by
  choose! place hplace using fun a ha => placeOf_ok (a := a) h.nodup_flatten ha
  have hlt : ∀ e ∈ g.rowEdges.map fun e => (place e.1, place e.2), e.1 < found.length := fun e he => by
    obtain ⟨⟨a, b⟩, hab, rfl⟩ := List.mem_map.1 he
    obtain ⟨-, c, hc, -⟩ := hplace a (hin (mem_rowEdges.1 hab)).1
    exact (List.getElem?_eq_some_iff.1 hc).1
  have hof := Condensed.of_foldl _ hlt
  rw [List.foldl_map] at hof
  refine ⟨_, _, ?_, hof, fun i j => (hof.links i j).trans (and_congr_right fun _ => ?_)⟩
  · rw [condense_eq]
    refine foldlM_eq_foldl fun d e he => ?_
    obtain ⟨ha, hb⟩ := hin (mem_rowEdges.1 he)
    exact bind_eq_ok.2 ⟨_, (hplace e.1 ha).1, bind_eq_ok.2 ⟨_, (hplace e.2 hb).1, rfl⟩⟩
  · rw [List.mem_map]
    constructor
    · rintro ⟨⟨a, b⟩, hab, heq⟩
      cases heq
      have hab := mem_rowEdges.1 hab
      obtain ⟨-, c, hc, ha⟩ := hplace a (hin hab).1
      obtain ⟨-, c', hc', hb⟩ := hplace b (hin hab).2
      exact ⟨c, c', hc, hc', a, ha, b, hb, hab⟩
    · rintro ⟨c, c', hc, hc', a, ha, b, hb, hab⟩
      obtain ⟨-, k, hk, hak⟩ := hplace a (hin hab).1
      obtain ⟨-, k', hk', hbk⟩ := hplace b (hin hab).2
      exact ⟨(a, b), mem_rowEdges.2 hab,
        Prod.ext (h.place_unique hk hc hak ha) (h.place_unique hk' hc' hbk hb)⟩

/-- Depths of the nodes of components that hold all nodes with edges. -/
theorem depthsOf_ok (h : g.Partition found)
    (hin : ∀ {a b}, g.Edge a b → a ∈ found.flatten ∧ b ∈ found.flatten) :
    ∃ (l : List (α × Nat)) (depth : Nat → Nat), g.depthsOf found = .ok l ∧ l.map Prod.fst = found.flatten ∧
      (∀ a d, (a, d) ∈ l ↔ ∃ i c, found[i]? = some c ∧ a ∈ c ∧ d = depth i) ∧
      (∀ i j, g.Links found i j → depth i + 1 ≤ depth j) ∧
      ∀ j, depth j = 0 ∨ ∃ i, g.Links found i j ∧ depth j = depth i + 1 := by
  obtain ⟨d, pairs, hd, hof, hlinks⟩ := condense_ok h hin
  have hfalling : Levels.Falling d.linksOf found.length := by
    refine ⟨hof.nodup, fun {i j} hij => ?_⟩
    obtain ⟨hne, c, c', hc, hc', a, ha, b, hb, hab⟩ := (hlinks i j).1 hij
    exact ⟨h.lt_of_edge hc hc' ha hb hab hne, (List.getElem?_eq_some_iff.1 hc).1⟩
  have hpending : ∀ j, (d.degrees.get? j).getD 0 =
      (Levels.pending d.linksOf found.length [] j).card := fun j => by
    rw [hof.degrees]
    simp [Levels.pending]
  have hwaiting : Levels.Waiting d.linksOf found.length []
      { degrees := d.degrees
        queue := (List.range found.length).filter fun i => (d.degrees.get? i).getD 0 = 0 } := by
    refine ⟨hpending, ?_, fun j => ?_⟩
    · rw [List.append_nil]
      exact List.nodup_range.filter _
    · rw [List.mem_filter, List.mem_range, decide_eq_true_iff, hpending,
        Levels.pending_eq_empty_iff hfalling]
      simp only [List.not_mem_nil, or_false]
  obtain ⟨hle, hexists⟩ := Levels.settle_ok hfalling hwaiting
    ⟨fun hi => absurd hi List.not_mem_nil, fun j => .inl rfl⟩ (Nat.le_refl found.length)
  refine ⟨_, _, bind_eq_ok.2 ⟨d, hd, rfl⟩, ?_, fun a k => ?_, fun i j hij => hle ((hlinks i j).2 hij),
    fun j => (hexists j).imp_right fun ⟨i, hij, hi⟩ => ⟨i, (hlinks i j).1 hij, hi⟩⟩
  · rw [← keys_places, ← entries_places h.nodup_flatten, List.map_map]
    rfl
  · rw [List.mem_map]
    constructor
    · rintro ⟨⟨a', i⟩, ha, heq⟩
      cases heq
      obtain ⟨c, hc, ha⟩ := (mem_entries_places h.nodup_flatten).1 ha
      exact ⟨i, c, hc, ha, rfl⟩
    · rintro ⟨i, c, hc, ha, rfl⟩
      exact ⟨(a, i), (mem_entries_places h.nodup_flatten).2 ⟨c, hc, ha⟩, rfl⟩

/-- An edge of the graph of the components. -/
def Condenses (g : Digraph α) (found : List (List α)) (c c' : List α) : Prop :=
  c ∈ found ∧ c' ∈ found ∧ c ≠ c' ∧ ∃ a ∈ c, ∃ b ∈ c', g.Edge a b

/-- The depth of a component is the length of the longest path to it. -/
theorem isGreatest_depth (h : g.Partition found) {depth : Nat → Nat}
    (hle : ∀ i j, g.Links found i j → depth i + 1 ≤ depth j)
    (hexists : ∀ j, depth j = 0 ∨ ∃ i, g.Links found i j ∧ depth j = depth i + 1) {i : Nat}
    {c : List α} (hc : found[i]? = some c) :
    IsGreatest {n | ∃ path, (path ++ [c]).IsChain (g.Condenses found) ∧ path.length = n} (depth i) := by
  have hidx : ∀ {i c}, found[i]? = some c → ∀ {a}, a ∈ c → found.idxOf c = i := fun hc _ ha =>
    h.place_unique (List.getElem?_idxOf (List.mem_of_getElem? hc)) hc ha ha
  obtain ⟨a, ha⟩ := List.exists_mem_of_ne_nil c (h.component c (List.mem_of_getElem? hc)).1
  rw [← hidx hc ha]
  refine isGreatest_length (fun c => depth (found.idxOf c)) (fun c c' hstep => ?_) (fun c' => ?_) c
  · obtain ⟨hc, hc', hne, hedge⟩ := hstep
    have hget := List.getElem?_idxOf hc
    have hget' := List.getElem?_idxOf hc'
    refine hle _ _ ⟨fun heq => hne ?_, c, c', hget, hget', hedge⟩
    rw [heq, hget'] at hget
    exact (Option.some.inj hget).symm
  · obtain h0 | ⟨i, ⟨hne, d, d', hd, hd', a, ha, b, hb, hab⟩, heq⟩ := hexists (found.idxOf c')
    · exact .inl h0
    · have hin := List.idxOf_lt_length_iff.1 (List.getElem?_eq_some_iff.1 hd').1
      rw [List.getElem?_idxOf hin] at hd'
      cases hd'
      have hi := hidx hd ha
      refine .inr ⟨d, ⟨List.mem_of_getElem? hd, hin, ?_, a, ha, b, hb, hab⟩, by rw [hi, heq]⟩
      rintro rfl
      exact hne hi.symm

end Depths

/-- Depths, when all nodes with rows are led to by those asked for. They are found, for just the nodes
that those asked for lead to. The depth of a node is the length of the longest path to its component in the
graph of the components. So nodes of one component share it; it grows along an edge between two; and a
component that has one above zero is led to by one that has one less. -/
theorem depthsOr_ok {g : Digraph Int} {order : Option (List Int)}
    (hkeys : ∀ a ∈ g.rows.keys, ∃ r ∈ g.nodesOr order, ReflTransGen g.Edge r a) :
    ∃ l, g.depthsOr order = .ok l ∧ (l.map Prod.fst).Nodup ∧
      (∀ a, a ∈ l.map Prod.fst ↔ ∃ r ∈ g.nodesOr order, ReflTransGen g.Edge r a) ∧
      (∀ a d, (a, d) ∈ l → ∃ c ∈ g.sortedComponents order, a ∈ c ∧
        IsGreatest {n | ∃ path, (path ++ [c]).IsChain (g.Condenses (g.sortedComponents order)) ∧
          path.length = n} d) ∧
      (∀ a d b e, (a, d) ∈ l → (b, e) ∈ l → g.Mutual a b → d = e) ∧
      (∀ a d b e, (a, d) ∈ l → (b, e) ∈ l → g.Edge a b → ¬ g.Mutual a b → d + 1 ≤ e) ∧
      ∀ b e, (b, e) ∈ l → 0 < e → ∃ a d b', (a, d) ∈ l ∧ g.Edge a b' ∧ g.Mutual b' b ∧
        ¬ g.Mutual a b ∧ e = d + 1 := by
  obtain ⟨hpart, hmem⟩ := partition_sortedComponents g order
  have hin : ∀ {a b}, g.Edge a b →
      a ∈ (g.sortedComponents order).flatten ∧ b ∈ (g.sortedComponents order).flatten := fun {a b} hab => by
    obtain ⟨l, hl, -⟩ := edge_iff.1 hab
    obtain ⟨r, hr, hra⟩ := hkeys a (List.mem_map.2 ⟨_, hl, rfl⟩)
    exact ⟨(hmem a).2 ⟨r, hr, hra⟩, (hmem b).2 ⟨r, hr, hra.tail hab⟩⟩
  obtain ⟨l, depth, hl, hfst, hdepth, hle, hexists⟩ := depthsOf_ok hpart hin
  have hplace : ∀ {i j c c'}, (g.sortedComponents order)[i]? = some c →
      (g.sortedComponents order)[j]? = some c' → ∀ {a b}, a ∈ c → b ∈ c' → (g.Mutual a b ↔ i = j) :=
    fun {i j c c'} hc hc' {a b} ha hb => by
      have hmutual := (hpart.component c (List.mem_of_getElem? hc)).2.2 a ha b
      rw [← hmutual]
      refine ⟨fun hbc => hpart.place_unique hc hc' hbc hb, ?_⟩
      rintro rfl
      rw [hc] at hc'
      cases hc'
      exact hb
  refine ⟨l, hl, hfst ▸ hpart.nodup_flatten, fun a => hfst ▸ hmem a, fun a d had => ?_,
    fun a d b e had hbe hab => ?_, fun a d b e had hbe hab hnot => ?_, fun b e hbe hpos => ?_⟩
  · obtain ⟨i, c, hc, ha, rfl⟩ := (hdepth a d).1 had
    exact ⟨c, List.mem_of_getElem? hc, ha, isGreatest_depth hpart hle hexists hc⟩
  · obtain ⟨i, c, hc, ha, rfl⟩ := (hdepth a d).1 had
    obtain ⟨j, c', hc', hb, rfl⟩ := (hdepth b e).1 hbe
    rw [(hplace hc hc' ha hb).1 hab]
  · obtain ⟨i, c, hc, ha, rfl⟩ := (hdepth a d).1 had
    obtain ⟨j, c', hc', hb, rfl⟩ := (hdepth b e).1 hbe
    exact hle i j ⟨fun heq => hnot ((hplace hc hc' ha hb).2 heq), c, c', hc, hc', a, ha, b, hb, hab⟩
  · obtain ⟨j, c', hc', hb, rfl⟩ := (hdepth b e).1 hbe
    obtain ⟨i, ⟨hne, c, c'', hc, hc'', a, ha, b', hb', hab⟩, heq⟩ := (hexists j).resolve_left hpos.ne'
    exact ⟨a, depth i, b', (hdepth a _).2 ⟨i, c, hc, ha, rfl⟩, hab, (hplace hc'' hc' hb' hb).2 rfl,
      fun hmutual => hne ((hplace hc hc' ha hb).1 hmutual), heq⟩

/-- Two nodes with edges both ways, and one that the second leads to. -/
def spur : Digraph Int := .ofRows [(0, [1, 1]), (1, [0, 2])]

theorem edge_spur_iff {a b : Int} : spur.Edge a b ↔ (a = 0 ∧ b = 1) ∨ (a = 1 ∧ (b = 0 ∨ b = 2)) := by
  have hrows : spur.rows.entries = [(0, [1, 1]), (1, [0, 2])] := rfl
  rw [edge_iff, hrows]
  constructor
  · rintro ⟨l, hl, hb⟩
    simp only [List.mem_cons, Prod.mk.injEq, List.not_mem_nil, or_false] at hl
    obtain ⟨rfl, rfl⟩ | ⟨rfl, rfl⟩ := hl
    · exact .inl ⟨rfl, by simpa using hb⟩
    · exact .inr ⟨rfl, by simpa using hb⟩
  · rintro (⟨rfl, rfl⟩ | ⟨rfl, hb⟩)
    · exact ⟨[1, 1], by simp⟩
    · exact ⟨[0, 2], by simp, by simpa using hb⟩

/-- The two nodes count as one level. -/
theorem depths_spur : (∀ a ∈ spur.rows.keys, ∃ r ∈ spur.nodesOr (some [0]),
    ReflTransGen spur.Edge r a) ∧ ∃ l, spur.depthsOr (some [0]) = .ok l ∧ (2, 1) ∈ l := by
  have h01 : spur.Edge 0 1 := edge_spur_iff.2 (by decide)
  have h10 : spur.Edge 1 0 := edge_spur_iff.2 (by decide)
  have h12 : spur.Edge 1 2 := edge_spur_iff.2 (by decide)
  have hkeys : ∀ a ∈ spur.rows.keys, ∃ r ∈ spur.nodesOr (some [0]), ReflTransGen spur.Edge r a := by
    have hrows : spur.rows.keys = [0, 1] := rfl
    rw [hrows]
    refine List.forall_mem_cons.2 ⟨⟨0, List.mem_singleton_self _, .refl⟩, List.forall_mem_singleton.2 ?_⟩
    exact ⟨0, List.mem_singleton_self _, .single h01⟩
  have hstuck : ∀ {a}, ReflTransGen spur.Edge 2 a → a = 2 := fun ha => by
    induction ha with
    | refl => rfl
    | tail _ hstep ih =>
      subst ih
      exact absurd (edge_spur_iff.1 hstep) (by omega)
  obtain ⟨l, hl, -, hmem, -, -, hup, hdown⟩ := depthsOr_ok hkeys
  have hreach : ∀ {a}, ReflTransGen spur.Edge 0 a → ∃ d, (a, d) ∈ l := fun {a} ha => by
    obtain ⟨⟨a, d⟩, had, rfl⟩ := List.mem_map.1 ((hmem a).2 ⟨0, List.mem_singleton_self _, ha⟩)
    exact ⟨d, had⟩
  obtain ⟨d, hd⟩ := hreach (.tail (.single h01) h12)
  obtain ⟨e, he⟩ := hreach (.single h01)
  have hlt := hup 1 e 2 d he hd h12 fun hmutual => absurd (hstuck hmutual.2) (by decide)
  -- what leads to the last node is on the cycle, and nothing leads to that from outside
  obtain ⟨a, k, b, hak, hab, hmutual, -, rfl⟩ := hdown 2 d hd (by omega)
  obtain rfl := hstuck hmutual.2
  obtain rfl : a = 1 := by
    have hcases := edge_spur_iff.1 hab
    omega
  obtain rfl | hpos := Nat.eq_zero_or_pos k
  · exact ⟨hkeys, l, hl, hd⟩
  · obtain ⟨a, k, b, -, hab, -, hnot, -⟩ := hdown 1 k hak hpos
    have hcases : a = 0 ∨ a = 1 := by
      have hcases := edge_spur_iff.1 hab
      omega
    obtain rfl | rfl := hcases
    · exact absurd ⟨.single h01, .single h10⟩ hnot
    · exact absurd (.refl 1) hnot

end Digraph

end RuleNetwork
