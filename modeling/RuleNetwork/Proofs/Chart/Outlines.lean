import Mathlib.Algebra.BigOperators.Ring.Finset
import Mathlib.Data.Set.Card
import RuleNetwork.Proofs.Chart.Counts
import RuleNetwork.Proofs.Run.Outline

/-!
Counts and outlines. A walk to a visit starts there, or its last step is by one of the approaches to
the visit, so the outlines fall into parts as the count that comes in does. A count is never raised
above the number of outlines.
-/

set_option autoImplicit false

namespace RuleNetwork

open Network Relation

/-- Parts of a set that have nothing in common are no more together than the set. -/
theorem sum_encard_le {α β : Type} {f : α → Set β} {S : Set β} {l : List α}
    (hsub : ∀ a ∈ l, f a ⊆ S) (hl : l.Pairwise fun a b => Disjoint (f a) (f b)) :
    (l.map fun a => (f a).encard).sum ≤ S.encard := by
  induction l generalizing S with
  | nil => simp
  | cons a l ih =>
    obtain ⟨ha, hl⟩ := List.pairwise_cons.1 hl
    have hrest := ih (S := S \ f a) (fun b hb =>
      Set.subset_sdiff.2 ⟨hsub b (List.mem_cons_of_mem _ hb), (ha b hb).symm⟩) hl
    rw [List.map_cons, List.sum_cons, add_comm,
      ← Set.encard_sdiff_add_encard_of_subset (hsub a (List.mem_cons_self ..))]
    gcongr

namespace Chart

variable {c : Chart} {i : Nat} {types : List String} {g : Option Groups} {m m' : Counts}
  {shown : Invocation → Invocation → Bool}

/-- Whether a completed call counts in all its ways. -/
def opens : Option Groups → Invocation → Invocation → Bool
  | none, _, _ => true
  | some g, a, b => g.together a b

theorem innerCount_eq (g : Option Groups) (a b : Invocation) (ways : Nat) :
    innerCount g a b ways = if opens g a b then ways else min ways 1 := by
  cases g <;> rfl

/-- The outlines of the walks to a visit. -/
def outlines (c : Chart) (types : List String) (shown : Invocation → Invocation → Bool) (j : Nat)
    (v : Visit) : Set Outline :=
  {x | ∃ ms, c.network.Outlines types shown j v ms x}

/-- The outlines with the last step by an approach. -/
def outlinesBy (c : Chart) (types : List String) (shown : Invocation → Invocation → Bool) (j : Nat)
    (v : Visit) (a : Approach) : Set Outline :=
  match a.arc.transition.call? with
  | none => (.along · a.arc.id) '' c.outlines types shown j (a.origin v)
  | some (callee, _) =>
    Set.image2 (fun x y => .past (shown ⟨j, v.origin⟩ ⟨callee, a.position⟩) x a.arc.source a.arc.id
        a.position v.position y)
      (c.outlines types shown j (a.origin v))
      (c.outlines types shown callee.toNat ⟨stopState callee.toNat, a.position, v.position⟩)

variable {j : Nat} {v : Visit} {a b : Approach} {x y : Outline}

theorem mem_outlinesBy_of_read (h : a.arc.transition.call? = none) :
    x ∈ c.outlinesBy types shown j v a ↔
      ∃ y ∈ c.outlines types shown j (a.origin v), .along y a.arc.id = x := by
  unfold outlinesBy
  rw [h]
  rfl

theorem mem_outlinesBy_of_call {callee : Nat} {follow : Int}
    (h : a.arc.transition.call? = some ((callee : Int), follow)) :
    x ∈ c.outlinesBy types shown j v a ↔ ∃ y ∈ c.outlines types shown j (a.origin v),
      ∃ z ∈ c.outlines types shown callee ⟨stopState callee, a.position, v.position⟩,
        .past (shown ⟨j, v.origin⟩ ⟨callee, a.position⟩) y a.arc.source a.arc.id a.position
          v.position z = x := by
  unfold outlinesBy
  rw [h]
  rfl

/-- An approach is told by the visit and the transition that it leads from. -/
theorem approach_ext (hp : c.network.Proper c.index.grammar.rules.size) (ha : a ∈ c.approaches v)
    (hb : b ∈ c.approaches v) (ho : a.origin v = b.origin v) (hid : a.arc.id = b.arc.id) : a = b := by
  have hla := hp.mem_arcs.1 (mem_approaches.1 ha).1
  have hlb := hp.mem_arcs.1 (mem_approaches.1 hb).1
  obtain ⟨⟨s, id, t⟩, k⟩ := a
  obtain ⟨⟨s', id', t'⟩, k'⟩ := b
  obtain ⟨rfl, -, rfl⟩ := Visit.mk.inj ho
  simp only at hid hla hlb
  subst hid
  rw [hla.unique hlb]

theorem start_not_mem_outlinesBy : .start ∉ c.outlinesBy types shown j v a := by
  unfold outlinesBy
  split
  · rintro ⟨y, -, hx⟩
    cases hx
  · rintro ⟨y, -, z, -, hx⟩
    exact Outline.past_ne_start hx

namespace Recognizes

variable (h : c.Recognizes i types)
include h

/-- What an approach to a visit does: it reads, or makes a call that resumes there. -/
theorem approach_cases (ha : a ∈ c.approaches v) (ho : c.network.Owns j v.state) :
    c.network.Leaves a.arc.source a.arc.id a.arc.transition ∧ c.network.Owns j a.arc.source ∧
      (a.arc.transition.call? = none ∧ a.Reads types v ∨
        ∃ callee < c.index.grammar.rules.size,
          a.arc.transition.call? = some ((callee : Int), v.state)) := by
  have hp := h.index.grammar.network
  obtain ⟨harc, hsite⟩ := mem_approaches.1 ha
  have hleaves := hp.mem_arcs.1 harc
  obtain ⟨r, hown⟩ := hleaves.owned
  refine ⟨hleaves, ?_⟩
  obtain hr | ⟨callee, hr⟩ := h.mem_sites.1 hsite
  · have hin := (hp.inside_of_reads hleaves hown hr.1).owns
    rw [hr.2] at hin
    exact ⟨ho.unique hin ▸ hown, .inl ⟨hr.1.call?_eq_none, hr⟩⟩
  · obtain ⟨k, hk, rfl, -, hin⟩ := hp.of_calls ⟨hleaves, hr.1⟩ hown
    exact ⟨ho.unique hin.owns ▸ hown, .inr ⟨k, hk, hr.1⟩⟩

theorem outlinesBy_subset (ha : a ∈ c.approaches v) (ho : c.network.Owns j v.state) :
    c.outlinesBy types shown j v a ⊆ c.outlines types shown j v := by
  obtain ⟨hleaves, -, ⟨hc, hr⟩ | ⟨callee, -, hc⟩⟩ := h.approach_cases ha ho
  · intro x hx
    obtain ⟨y, ⟨q, hy⟩, rfl⟩ := (mem_outlinesBy_of_read hc).1 hx
    have hread := hy.read hleaves hr.1
    rw [hr.2] at hread
    exact ⟨_, hread⟩
  · intro x hx
    obtain ⟨y, ⟨q, hy⟩, z, ⟨r, hz⟩, rfl⟩ := (mem_outlinesBy_of_call hc).1 hx
    exact ⟨_, hy.call ⟨hleaves, hc⟩ hz⟩

/-- A walk starts at its visit, or has its last step by an approach. -/
theorem exists_outlinesBy (hj : j < c.index.grammar.rules.size)
    (hx : x ∈ c.outlines types shown j v) :
    (x = .start ∧ v = ⟨startState j, v.origin, v.origin⟩) ∨
      ∃ a ∈ c.approaches v, x ∈ c.outlinesBy types shown j v a := by
  have hp := h.index.grammar.network
  obtain ⟨ms, hx⟩ := hx
  obtain ⟨s, o, k⟩ := v
  obtain ⟨-, rfl, hv⟩ | ⟨⟨s', o', k'⟩, id, t, q, y, hy, ho, ht, hr, htarget, rfl, rfl⟩ |
    ⟨⟨s', o', k'⟩, id, t, callee, q, r, y, z, hy, ho, hc, hz, rfl, rfl⟩ := hx.cases
  · exact .inl ⟨rfl, hv⟩
  · simp only at ho htarget
    subst ho htarget
    exact .inr ⟨_, h.mem_approaches_of_reads (u := ⟨s', o', k'⟩) ht hr,
      (mem_outlinesBy_of_read hr.call?_eq_none).2 ⟨y, ⟨q, hy⟩, rfl⟩⟩
  · simp only at ho
    subst ho
    obtain ⟨-, hrun⟩ := hy.walks_callee hp hj hc hz
    exact .inr ⟨_, h.mem_approaches_of_calls (u := ⟨s', o', k'⟩) hc
      (run_position (hy.walks hp hj)).1 (run_position hrun).1,
      (mem_outlinesBy_of_call hc.2).2 ⟨y, ⟨q, hy⟩, z, ⟨r, hz⟩, rfl⟩⟩

/-- A walk has its last step by one approach only. -/
theorem disjoint_outlinesBy (honce : ∀ {a b}, shown a b = false → c.network.CallsOnce)
    (ha : a ∈ c.approaches v) (hb : b ∈ c.approaches v) (ho : c.network.Owns j v.state)
    (hne : a ≠ b) : Disjoint (c.outlinesBy types shown j v a) (c.outlinesBy types shown j v b) := by
  refine Set.disjoint_left.2 fun x hx hx' => hne ?_
  have hp := h.index.grammar.network
  obtain ⟨hla, -, ⟨hc, -⟩ | ⟨callee, -, hc⟩⟩ := h.approach_cases ha ho
  · obtain ⟨y, ⟨q, hy⟩, rfl⟩ := (mem_outlinesBy_of_read hc).1 hx
    obtain ⟨-, -, ⟨hc', -⟩ | ⟨callee', -, hc'⟩⟩ := h.approach_cases hb ho
    · obtain ⟨y', ⟨q', hy'⟩, heq⟩ := (mem_outlinesBy_of_read hc').1 hx'
      obtain ⟨rfl, hid⟩ := Outline.along.inj heq
      exact approach_ext hp ha hb (hy.visit_unique honce hy' rfl) hid.symm
    · obtain ⟨y', -, z', -, heq⟩ := (mem_outlinesBy_of_call hc').1 hx'
      exact absurd heq Outline.past_ne_along
  · obtain ⟨y, ⟨q, hy⟩, z, -, rfl⟩ := (mem_outlinesBy_of_call hc).1 hx
    obtain ⟨hlb, -, ⟨hc', -⟩ | ⟨callee', -, hc'⟩⟩ := h.approach_cases hb ho
    · obtain ⟨y', -, heq⟩ := (mem_outlinesBy_of_read hc').1 hx'
      exact absurd heq.symm Outline.past_ne_along
    · obtain ⟨y', ⟨q', hy'⟩, z', -, heq⟩ := (mem_outlinesBy_of_call hc').1 hx'
      obtain ⟨rfl, hrest⟩ := Outline.past_inj heq
      have horigin := hy'.visit_unique honce hy rfl
      refine (approach_ext hp hb ha horigin ?_).symm
      obtain ⟨-, hid, -⟩ | ⟨hb, hs, -⟩ := hrest
      · exact hid
      · rw [hs] at hlb
        exact honce hb ⟨hlb, hc'⟩ ⟨hla, hc⟩

/-- An approach has no fewer outlines than its weight says, if what it leads from has no fewer than the
counts say. -/
theorem weight_le_encard (hshown : ∀ {a b}, opens g a b = true → shown a b = true)
    (hm : ∀ {j : Nat} {v : Visit}, j < c.index.grammar.rules.size → c.network.Owns j v.state →
      (m.of v : ℕ∞) ≤ (c.outlines types shown j v).encard)
    (hj : j < c.index.grammar.rules.size) (ho : c.network.Owns j v.state) (ha : a ∈ c.approaches v) :
    (weight g m ⟨j, v.origin⟩ v a : ℕ∞) ≤ (c.outlinesBy types shown j v a).encard := by
  obtain ⟨-, hown, ⟨hc, -⟩ | ⟨callee, hcallee, hc⟩⟩ := h.approach_cases ha ho
  · have hsite := hm (v := a.origin v) hj hown
    have hinj : Function.Injective (Outline.along · a.arc.id) := fun x y hxy =>
      (Outline.along.inj hxy).1
    calc (weight g m ⟨j, v.origin⟩ v a : ℕ∞)
        = m.of (a.origin v) := by rw [weight, hc]
      _ ≤ (c.outlines types shown j (a.origin v)).encard := hsite
      _ = ((Outline.along · a.arc.id) '' c.outlines types shown j (a.origin v)).encard :=
        (hinj.encard_image _).symm
      _ ≤ _ := Set.encard_le_encard fun x hx => (mem_outlinesBy_of_read hc).2 hx
  · have hsite := hm (v := a.origin v) hj hown
    have hinner := hm (v := ⟨stopState callee, a.position, v.position⟩) hcallee
      (h.index.grammar.network.owns_stop hcallee)
    rw [weight_of_call hc, Int.toNat_natCast]
    by_cases hs : shown ⟨j, v.origin⟩ ⟨callee, a.position⟩ = true
    · have hinj : Function.Injective fun e : Outline × Outline => e.1.through a.arc.id e.2 :=
        fun x y hxy => by
          obtain ⟨hx, -, hy⟩ := Outline.through.inj hxy
          exact Prod.ext hx hy
      calc _ ≤ (m.of (a.origin v) * m.of ⟨stopState callee, a.position, v.position⟩ : ℕ∞) := by
            exact_mod_cast Nat.mul_le_mul_left _ (innerCount_le _ _ _ _)
        _ ≤ _ := mul_le_mul' hsite hinner
        _ = _ := Set.encard_prod.symm
        _ = _ := (hinj.encard_image _).symm
        _ ≤ _ := Set.encard_le_encard ?_
      rintro _ ⟨⟨y, z⟩, ⟨hy, hz⟩, rfl⟩
      exact (mem_outlinesBy_of_call hc).2 ⟨y, hy, z, hz, by rw [Outline.past, if_pos hs]⟩
    · have hg : ¬ opens g ⟨j, v.origin⟩ ⟨callee, a.position⟩ = true := fun hg => hs (hshown hg)
      rw [innerCount_eq, if_neg hg]
      by_cases hzero : m.of ⟨stopState callee, a.position, v.position⟩ = 0
      · simp [hzero]
      · obtain ⟨z, hz⟩ := Set.one_le_encard_iff_nonempty.1 (le_trans (by
          exact_mod_cast Nat.one_le_iff_ne_zero.2 hzero) hinner)
        have hinj : Function.Injective (Outline.over · a.arc.source a.position v.position) :=
          fun x y hxy => (Outline.over.inj hxy).1
        calc _ ≤ (m.of (a.origin v) : ℕ∞) := by
              exact_mod_cast (Nat.mul_le_mul_left _ (Nat.min_le_right _ _)).trans_eq (Nat.mul_one _)
          _ ≤ _ := hsite
          _ = _ := (hinj.encard_image _).symm
          _ ≤ _ := Set.encard_le_encard ?_
        rintro _ ⟨y, hy, rfl⟩
        exact (mem_outlinesBy_of_call hc).2 ⟨y, hy, z, hz, by rw [Outline.past, if_neg hs]⟩

/-- The ways to a visit are no more than its outlines. -/
theorem total_le_encard (hshown : ∀ {a b}, opens g a b = true → shown a b = true)
    (honce : ∀ {a b}, shown a b = false → c.network.CallsOnce)
    (hm : ∀ {j : Nat} {v : Visit}, j < c.index.grammar.rules.size → c.network.Owns j v.state →
      (m.of v : ℕ∞) ≤ (c.outlines types shown j v).encard)
    (hj : j < c.index.grammar.rules.size) (ho : c.network.Owns j v.state) :
    (c.total g m j v : ℕ∞) ≤ (c.outlines types shown j v).encard := by
  have hp := h.index.grammar.network
  obtain ⟨own, hown⟩ : ∃ own : Set Outline,
      own = {x | x = .start ∧ startState j = v.state ∧ v.origin = v.position} := ⟨_, rfl⟩
  have hsub : own ⊆ c.outlines types shown j v := by
    rw [hown]
    rintro x ⟨rfl, hs, hk⟩
    obtain ⟨s, o, k⟩ := v
    simp only at hs hk
    subst hs hk
    exact ⟨[], .start j o⟩
  have hfirst : ((if startState j = v.state ∧ v.origin = v.position then 1 else 0 : ℕ) : ℕ∞) ≤
      own.encard := by
    split
    · rename_i hcond
      exact Set.one_le_encard_iff_nonempty.2 ⟨.start, by rw [hown]; exact ⟨rfl, hcond⟩⟩
    · simp
  have hrest : (((c.approaches v).map (weight g m ⟨j, v.origin⟩ v)).sum : ℕ∞) ≤
      (c.outlines types shown j v \ own).encard := by
    refine le_trans ?_
      (sum_encard_le (f := c.outlinesBy types shown j v) (l := c.approaches v) (fun a ha => ?_) ?_)
    · rw [Nat.cast_list_sum, List.map_map]
      exact List.sum_le_sum fun a ha => h.weight_le_encard hshown hm hj ho ha
    · refine Set.subset_sdiff.2 ⟨h.outlinesBy_subset ha ho, Set.disjoint_left.2 fun x hx hx' => ?_⟩
      rw [hown] at hx'
      exact start_not_mem_outlinesBy (hx'.1 ▸ hx)
    · exact (nodup_approaches hp v).imp_of_mem fun ha hb hne =>
        h.disjoint_outlinesBy honce ha hb ho hne
  unfold total
  rw [Nat.cast_add, ← Set.encard_sdiff_add_encard_of_subset hsub, add_comm]
  exact add_le_add hrest hfirst

/-- A count is no more than the number of outlines. -/
theorem le_encard (shown : Invocation → Invocation → Bool) {visits : List Visit}
    (hvisits : ∀ v ∈ visits, c.contains v = true)
    (hshown : ∀ {a b}, opens g a b = true → shown a b = true)
    (honce : ∀ {a b}, shown a b = false → c.network.CallsOnce)
    (hr : ReflTransGen (c.Raises g visits) ∅ m) (hj : j < c.index.grammar.rules.size)
    (ho : c.network.Owns j v.state) : (m.of v : ℕ∞) ≤ (c.outlines types shown j v).encard := by
  induction hr generalizing j v with
  | refl => simp
  | tail _ hstep ih =>
    obtain ⟨w, hw, k, hk, -, rfl⟩ := hstep
    rw [Counts.of_insert]
    split
    · rename_i hwv
      subst hwv
      rw [h.incoming_ok g _ (hvisits w hw) ho] at hk
      cases hk
      exact le_trans (by exact_mod_cast Nat.min_le_left _ _) (h.total_le_encard hshown honce ih hj ho)
    · exact ih hj ho

end Recognizes

end Chart

end RuleNetwork
