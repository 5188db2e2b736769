import Mathlib.Algebra.GroupWithZero.Nat
import Mathlib.Algebra.Order.BigOperators.Group.List
import Mathlib.Algebra.Order.Group.Nat
import RuleNetwork.Chart.Counts
import RuleNetwork.Proofs.Chart.Groups

/-!
What leads to a visit, with its weight: the sum of the weights over all approaches is the count that
comes in.
-/

set_option autoImplicit false

namespace RuleNetwork

open Network

section Sums

variable {α β : Type} {w : α → Nat} {l : List α}

theorem add_le_sum_of_mem {a b : α} (ha : a ∈ l) (hb : b ∈ l) (hne : a ≠ b) :
    w a + w b ≤ (l.map w).sum := by
  induction l with
  | nil => exact absurd ha List.not_mem_nil
  | cons x l ih =>
    rw [List.map_cons, List.sum_cons]
    obtain rfl | hal := List.mem_cons.1 ha
    · obtain rfl | hbl := List.mem_cons.1 hb
      · exact absurd rfl hne
      · have := List.le_sum_of_mem (List.mem_map_of_mem (f := w) hbl)
        omega
    · obtain rfl | hbl := List.mem_cons.1 hb
      · have := List.le_sum_of_mem (List.mem_map_of_mem (f := w) hal)
        omega
      · have := ih hal hbl
        omega

theorem exists_of_one_le_sum (h : 1 ≤ (l.map w).sum) : ∃ a ∈ l, 1 ≤ w a := by
  obtain ⟨n, hn, hpos⟩ := List.sum_pos_iff_exists_pos_nat.1 h
  obtain ⟨a, ha, rfl⟩ := List.mem_map.1 hn
  exact ⟨a, ha, hpos⟩

theorem sum_filterMap (pick : α → Option β) (f : β → Nat) (l : List α) :
    ((l.filterMap pick).map f).sum = (l.map fun a => (pick a).elim 0 f).sum := by
  induction l with
  | nil => rfl
  | cons a l ih =>
    rw [List.map_cons, List.sum_cons, ← ih, List.filterMap_cons]
    cases pick a <;> simp

theorem sum_map_flatMap (f : α → List β) (g : β → Nat) (l : List α) :
    ((l.flatMap f).map g).sum = (l.map fun a => ((f a).map g).sum).sum := by
  rw [List.map_flatMap, List.flatMap_def, List.sum_flatten, List.map_map]
  rfl

end Sums

namespace Chart

variable {c : Chart} {i : Nat} {types : List String}

/-- The positions from which an arc leads to a visit. -/
def sites (c : Chart) (v : Visit) (a : Arc) : List Nat :=
  match a.transition.kind with
  | .terminal =>
    if 0 < v.position ∧ a.transition.target = v.state ∧
        (c.types[v.position - 1]?).any a.transition.tokens.contains then [v.position - 1]
    else []
  | .ruleCall =>
    if a.transition.call?.any fun x => x.2 == v.state then
      (List.range (v.position + 1)).drop v.origin
    else []
  | .epsilon | .predicate => if a.transition.target = v.state then [v.position] else []

/-- Everything that leads to a visit. -/
def approaches (c : Chart) (v : Visit) : List Approach :=
  c.network.arcs.flatMap fun a => (c.sites v a).map (⟨a, ·⟩)

/-- What an approach contributes to the count of a visit in the invocation of a caller. -/
def weight (g : Option Groups) (counts : Counts) (caller : Invocation) (v : Visit)
    (a : Approach) : Nat :=
  match a.arc.transition.call? with
  | none => counts.of (a.origin v)
  | some (callee, _) =>
    counts.of (a.origin v) * innerCount g caller ⟨callee, a.position⟩
      (counts.of ⟨stopState callee.toNat, a.position, v.position⟩)

/-- The ways to a visit in rule `j`: the start of the rule has one, and every approach its weight. -/
def total (c : Chart) (g : Option Groups) (counts : Counts) (j : Nat) (v : Visit) : Nat :=
  (if startState j = v.state ∧ v.origin = v.position then 1 else 0) +
    ((c.approaches v).map (weight g counts ⟨j, v.origin⟩ v)).sum

theorem innerCount_zero (g : Option Groups) (a b : Invocation) : innerCount g a b 0 = 0 := by
  unfold innerCount
  split
  · rfl
  · split <;> rfl

theorem innerCount_le (g : Option Groups) (a b : Invocation) (w : Nat) :
    innerCount g a b w ≤ w := by
  unfold innerCount
  split
  · exact Nat.le_refl w
  · split <;> omega

theorem one_le_innerCount {g : Option Groups} {a b : Invocation} {w : Nat} (h : 1 ≤ w) :
    1 ≤ innerCount g a b w := by
  unfold innerCount
  split
  · exact h
  · split <;> omega

theorem weight_of_ne {g : Option Groups} {m : Counts} {b : Invocation} {v : Visit}
    {a : Approach} (h : a.arc.transition.kind ≠ .ruleCall) :
    weight g m b v a = m.of (a.origin v) := by
  unfold weight
  split
  · rfl
  · rename_i hc
    exact absurd (Transition.kind_of_call? hc) h

theorem weight_of_call {g : Option Groups} {m : Counts} {b : Invocation} {v : Visit}
    {a : Approach} {callee follow : Int} (h : a.arc.transition.call? = some (callee, follow)) :
    weight g m b v a =
      m.of (a.origin v) * innerCount g b ⟨callee, a.position⟩
        (m.of ⟨stopState callee.toNat, a.position, v.position⟩) := by
  unfold weight
  rw [h]

theorem weight_of_reads {g : Option Groups} {m : Counts} {b : Invocation} {v : Visit} {id : Int}
    {t : Transition} {k : Nat} (hr : t.Reads types v.position k) :
    weight g m b ⟨t.target, v.origin, k⟩ ⟨⟨v.state, id, t⟩, v.position⟩ = m.of v :=
  weight_of_ne hr.kind_ne

theorem weight_of_calls {g : Option Groups} {m : Counts} {b : Invocation} {v : Visit}
    {id follow : Int} {t : Transition} {k callee : Nat} (hc : c.network.Calls v.state id t callee follow) :
    weight g m b ⟨follow, v.origin, k⟩ ⟨⟨v.state, id, t⟩, v.position⟩ =
      m.of v * innerCount g b ⟨callee, v.position⟩ (m.of ⟨stopState callee, v.position, k⟩) :=
  weight_of_call hc.2

theorem nodup_sites (v : Visit) (a : Arc) : (c.sites v a).Nodup := by
  unfold sites
  have hrange : ((List.range (v.position + 1)).drop v.origin).Nodup :=
    List.nodup_range.sublist (List.drop_sublist _ _)
  split <;> split <;> first | exact hrange | simp

theorem nodup_approaches (hp : c.network.Proper c.index.grammar.rules.size) (v : Visit) :
    (c.approaches v).Nodup := by
  refine List.nodup_flatMap.2 ⟨fun a _ => ?_, hp.nodup_arcs.imp fun hne => ?_⟩
  · exact (nodup_sites v a).map fun j j' h => congrArg Approach.position h
  · refine List.disjoint_left.2 fun x hx hy => hne ?_
    obtain ⟨j, -, rfl⟩ := List.mem_map.1 hx
    obtain ⟨j', -, heq⟩ := List.mem_map.1 hy
    exact (congrArg Approach.arc heq).symm

theorem mem_approaches {v : Visit} {a : Approach} :
    a ∈ c.approaches v ↔ a.arc ∈ c.network.arcs ∧ a.position ∈ c.sites v a.arc := by
  unfold approaches
  rw [List.mem_flatMap]
  constructor
  · rintro ⟨b, hb, ha⟩
    obtain ⟨j, hj, rfl⟩ := List.mem_map.1 ha
    exact ⟨hb, hj⟩
  · rintro ⟨ha, hj⟩
    exact ⟨a.arc, ha, List.mem_map.2 ⟨a.position, hj, rfl⟩⟩

namespace Recognizes

variable (h : c.Recognizes i types)
include h

theorem mem_sites {v : Visit} {a : Approach} :
    a.position ∈ c.sites v a.arc ↔ a.Reads types v ∨ ∃ callee, a.Resumes v callee := by
  obtain ⟨⟨s, id, t⟩, j⟩ := a
  unfold sites Approach.Reads Approach.Resumes
  simp only [h.input, List.getElem?_toArray]
  split
  · rename_i hk
    have hcall : t.call? = none := by simp [Transition.call?, hk]
    simp only [Transition.reads_of_terminal hk, hcall, reduceCtorEq, false_and, exists_false, or_false]
    constructor
    · intro hj
      split at hj
      · rename_i hc
        obtain ⟨hpos, ht, hany⟩ := hc
        obtain rfl := List.mem_singleton.1 hj
        obtain ⟨x, hx, hmem⟩ := (Option.any_eq_true ..).1 hany
        exact ⟨⟨⟨x, hx, List.contains_iff_mem.1 hmem⟩, by omega⟩, ht⟩
      · exact absurd hj List.not_mem_nil
    · rintro ⟨⟨⟨x, hx, hmem⟩, hpos⟩, ht⟩
      have hj : v.position - 1 = j := by omega
      rw [if_pos ⟨by omega, ht, by rw [hj, hx]; exact List.contains_iff_mem.2 hmem⟩, hj]
      exact List.mem_singleton_self j
  · rename_i hk
    have hreads : ¬ t.Reads types j v.position := by simp [Transition.Reads, hk]
    simp only [hreads, false_and, false_or]
    constructor
    · intro hj
      split at hj
      · rename_i hany
        obtain ⟨⟨callee, follow⟩, hc, heq⟩ := (Option.any_eq_true ..).1 hany
        obtain rfl : follow = v.state := by simpa using heq
        obtain ⟨ho, hp⟩ := mem_drop_range.1 hj
        exact ⟨callee, hc, ho, by omega⟩
      · exact absurd hj List.not_mem_nil
    · rintro ⟨callee, hc, ho, hp⟩
      rw [if_pos (by rw [hc]; simp)]
      exact mem_drop_range.2 ⟨ho, by omega⟩
  all_goals
    rename_i hk
    have hcall : t.call? = none := by simp [Transition.call?, hk]
    have hreads : t.Reads types j v.position ↔ v.position = j :=
      Transition.reads_of_isFree (by simp [Transition.isFree, hk])
    simp only [hreads, hcall, reduceCtorEq, false_and, exists_false, or_false]
    constructor
    · intro hj
      split at hj
      · rename_i ht
        exact ⟨(List.mem_singleton.1 hj).symm, ht⟩
      · exact absurd hj List.not_mem_nil
    · rintro ⟨hp, ht⟩
      rw [if_pos ht, hp]
      exact List.mem_singleton_self j

theorem mem_approaches_of_reads {u : Visit} {id : Int} {t : Transition} {k : Nat}
    (ht : c.network.Leaves u.state id t) (hr : t.Reads types u.position k) :
    ⟨⟨u.state, id, t⟩, u.position⟩ ∈ c.approaches ⟨t.target, u.origin, k⟩ :=
  mem_approaches.2 ⟨h.index.grammar.network.mem_arcs.2 ht, h.mem_sites.2 (.inl ⟨hr, rfl⟩)⟩

theorem mem_approaches_of_calls {u : Visit} {id callee follow : Int} {t : Transition} {k : Nat}
    (hc : c.network.Calls u.state id t callee follow) (ho : u.origin ≤ u.position)
    (hk : u.position ≤ k) :
    ⟨⟨u.state, id, t⟩, u.position⟩ ∈ c.approaches ⟨follow, u.origin, k⟩ :=
  mem_approaches.2 ⟨h.index.grammar.network.mem_arcs.2 hc.1,
    h.mem_sites.2 (.inr ⟨callee, hc.2, ho, hk⟩)⟩

theorem le_of_mem_sites {v : Visit} {a : Approach} (ha : a.position ∈ c.sites v a.arc) :
    a.position ≤ v.position := by
  obtain hr | ⟨callee, hr⟩ := h.mem_sites.1 ha
  · exact hr.1.bounds.1
  · exact hr.2.2

/-- The total at a visit depends on counts no further on. -/
theorem total_congr {g : Option Groups} {m m' : Counts} {j : Nat} {v : Visit}
    (hm : ∀ u : Visit, u.position ≤ v.position → m.of u = m'.of u) :
    c.total g m j v = c.total g m' j v := by
  unfold total
  congr 2
  refine List.map_congr_left fun a ha => ?_
  have hle := h.le_of_mem_sites (mem_approaches.1 ha).2
  have horigin : m.of (a.origin v) = m'.of (a.origin v) := hm _ hle
  unfold weight
  split
  · exact horigin
  · rename_i callee follow _
    rw [horigin, hm ⟨stopState callee.toNat, a.position, v.position⟩ (Nat.le_refl _)]

/-- The part of the arcs that read a token in the count that comes in. -/
theorem scanned_ok (counts : Counts) {v : Visit} (hv : c.contains v = true) :
    ∃ l, c.scanSources v = .ok l ∧ (l.map counts.of).sum = (c.network.arcs.map fun a =>
      if a.transition.kind = .terminal then
        ((c.sites v a).map fun j => counts.of ⟨a.source, v.origin, j⟩).sum else 0).sum := by
  have hle := ((h.contains v).1 hv).position_le
  unfold scanSources
  split
  · rename_i h0
    refine ⟨[], rfl, ?_⟩
    by_contra hne
    obtain ⟨a, -, ha⟩ := exists_of_one_le_sum (Nat.one_le_iff_ne_zero.2 (Ne.symm hne))
    split at ha
    · rename_i hk
      simp [sites, hk, h0] at ha
    · omega
  · rename_i h0
    have hlt : v.position - 1 < types.length := by omega
    have htoken : c.tokenBefore v.position = .ok types[v.position - 1] := by
      unfold tokenBefore
      rw [h.input, List.getElem?_toArray, List.getElem?_eq_getElem hlt]
    rw [htoken, (h.links hv).2.1]
    refine ⟨_, rfl, ?_⟩
    rw [List.map_map, List.filter_filterMap, sum_filterMap]
    congr 1
    refine List.map_congr_left fun a _ => ?_
    by_cases hk : a.transition.kind = .terminal
    · have hpos : 0 < v.position := by omega
      by_cases ht : a.transition.target = v.state
      · simp only [Arc.scan?, sites, hk, ht, hpos, h.input, List.getElem?_toArray,
          List.getElem?_eq_getElem hlt, and_self, true_and, if_true, Option.filter_some,
          Option.any_some]
        split <;> simp
      · simp [Arc.scan?, sites, hk, ht]
    · simp [Arc.scan?, hk]

theorem called_ok (g : Option Groups) (counts : Counts) (caller : Invocation) (v : Visit) :
    ∃ l, (c.network.arcs.filterMap (Arc.resume? v.state)).mapM (fun (site, callee) => do
        return callCount g counts caller v site callee (← c.index.stopOf callee)) = .ok l ∧
      l.sum = (c.network.arcs.map fun a =>
        if a.transition.kind = .ruleCall then
          ((c.sites v a).map fun j => weight g counts caller v ⟨a, j⟩).sum else 0).sum := by
  have hstop : ∀ e ∈ c.network.arcs.filterMap (Arc.resume? v.state),
      c.index.stopOf e.2 = .ok (stopState e.2.toNat) := by
    intro e he
    obtain ⟨a, ha, hae⟩ := List.mem_filterMap.1 he
    obtain ⟨r, hr, rfl, -⟩ := h.resume?_eq_some ha hae
    exact ChartIndex.stopOf_ok h.index.grammar hr
  refine ⟨_, mapM_eq_map fun e he => bind_eq_ok.2 ⟨_, hstop e he, rfl⟩, ?_⟩
  rw [sum_filterMap]
  congr 1
  refine List.map_congr_left fun a _ => ?_
  cases hc : a.transition.call? with
  | none =>
    have hsites : a.transition.kind = .ruleCall → c.sites v a = [] := fun hk => by
      simp [sites, hk, hc]
    split
    · rename_i hk
      simp [Arc.resume?, hc, hsites hk]
    · simp [Arc.resume?, hc]
  | some e =>
    obtain ⟨callee, follow⟩ := e
    have hk := Transition.kind_of_call? hc
    by_cases hf : follow = v.state
    · subst hf
      simp only [Arc.resume?, hc, Option.bind_some, if_true, Option.elim_some, hk, sites,
        Option.any_some, beq_self_eq_true, callCount]
      congr 1
      refine List.map_congr_left fun j _ => ?_
      rw [weight_of_call hc]
      split
      · rename_i h0
        rw [h0, innerCount_zero, Nat.mul_zero]
      · rfl
    · simp [Arc.resume?, hc, hf, hk, sites]

/-- The count that comes in is the total of all approaches, capped. -/
theorem incoming_ok (g : Option Groups) (counts : Counts) {v : Visit}
    (hv : c.contains v = true) {j : Nat} (ho : c.network.Owns j v.state) :
    c.incoming g counts v = .ok (min (c.total g counts j v) Counts.ambiguous) := by
  obtain ⟨j', hj, ho', hinv⟩ := h.invocation_ok hv
  obtain rfl : j = j' := Int.ofNat.inj (ho.unique ho')
  obtain ⟨hfree, -, hcall⟩ := h.links hv
  obtain ⟨scanned, hscanned, hscannedSum⟩ := h.scanned_ok counts hv
  obtain ⟨called, hcalled, hcalledSum⟩ := h.called_ok g counts ⟨j, v.origin⟩ v
  have hsum : ((c.approaches v).map (weight g counts ⟨j, v.origin⟩ v)).sum =
      ((c.network.arcs.filterMap (Arc.free? v.state)).map fun s =>
        counts.of ⟨s, v.origin, v.position⟩).sum + (scanned.map counts.of).sum + called.sum := by
    unfold approaches
    rw [sum_map_flatMap, hscannedSum, hcalledSum, sum_filterMap, ← List.sum_map_add,
      ← List.sum_map_add]
    congr 1
    refine List.map_congr_left fun a ha => ?_
    rw [List.map_map]
    have hpoint : a.transition.kind ≠ .ruleCall → ((c.sites v a).map
        (weight g counts ⟨j, v.origin⟩ v ∘ fun x => ⟨a, x⟩)).sum =
        ((c.sites v a).map fun k => counts.of ⟨a.source, v.origin, k⟩).sum := fun hk => by
      congr 1
      exact List.map_congr_left fun k _ => weight_of_ne hk
    cases hk : a.transition.kind with
    | ruleCall => simp [Arc.free?, Transition.isFree, hk, Function.comp_def]
    | terminal =>
      rw [hpoint (by simp [hk])]
      simp [Arc.free?, Transition.isFree, hk]
    | epsilon | predicate =>
      rw [hpoint (by simp [hk])]
      by_cases ht : a.transition.target = v.state <;>
        simp [Arc.free?, Transition.isFree, hk, sites, ht]
  unfold incoming
  refine bind_eq_ok.2 ⟨_, hinv, bind_eq_ok.2 ⟨_, ChartIndex.startOf_ok h.index.grammar hj,
    bind_eq_ok.2 ⟨_, hfree, bind_eq_ok.2 ⟨_, hscanned, bind_eq_ok.2 ⟨_, hcall,
      bind_eq_ok.2 ⟨_, hcalled, ?_⟩⟩⟩⟩⟩⟩
  unfold total
  rw [hsum]
  simp only [pure, Except.pure, Nat.add_assoc, List.sum_eq_foldr]

end Recognizes

end Chart

end RuleNetwork
