import RuleNetwork.Chart.Groups
import RuleNetwork.Proofs.Chart.Before
import RuleNetwork.Proofs.Graph.Components
import RuleNetwork.Proofs.Run.Walk

/-!
Left-recursive groups. Two invocations are of one group just if each leads to the other by calls made
before any input.
-/

set_option autoImplicit false

namespace RuleNetwork

open Network Relation

namespace Groups

variable {members : List (List Invocation)} {a b : Invocation}

theorem group?_ofMembers (h : members.Pairwise List.Disjoint) {k : Nat} :
    (ofMembers members).group? a = some k ↔ ∃ l, members[k]? = some l ∧ a ∈ l := by
  have hmem : ∀ e : Invocation × Nat,
      e ∈ (members.mapIdx fun i l => l.map fun v => (v, i)).flatten ↔
        ∃ l, members[e.2]? = some l ∧ e.1 ∈ l := by
    rintro ⟨v, i⟩
    rw [List.mem_flatten]
    constructor
    · rintro ⟨l, hl, hv⟩
      obtain ⟨j, hj, rfl⟩ := List.mem_mapIdx.1 hl
      obtain ⟨w, hw, heq⟩ := List.mem_map.1 hv
      cases heq
      exact ⟨_, List.getElem?_eq_getElem hj, hw⟩
    · rintro ⟨l, hl, hv⟩
      obtain ⟨hi, rfl⟩ := List.getElem?_eq_some_iff.1 hl
      exact ⟨_, List.mem_mapIdx.2 ⟨i, hi, rfl⟩, List.mem_map.2 ⟨v, hv, rfl⟩⟩
  unfold group? ofMembers
  simp only
  rw [getElem?_foldl_insert_iff (f := Prod.fst) (w := Prod.snd)]
  · constructor
    · rintro ⟨e, he, rfl, rfl⟩
      exact (hmem e).1 he
    · intro hk
      exact ⟨(a, k), (hmem (a, k)).2 hk, rfl, rfl⟩
  · -- an invocation is listed once only
    intro e he e' he' heq
    obtain ⟨l, hl, hel⟩ := (hmem e).1 he
    obtain ⟨l', hl', hel'⟩ := (hmem e').1 he'
    obtain ⟨hi, rfl⟩ := List.getElem?_eq_some_iff.1 hl
    obtain ⟨hj, rfl⟩ := List.getElem?_eq_some_iff.1 hl'
    rw [← heq] at hel'
    have hpair := List.pairwise_iff_getElem.1 h
    obtain hlt | heq | hgt := Nat.lt_trichotomy e.2 e'.2
    · exact absurd hel' (List.disjoint_left.1 (hpair _ _ hi hj hlt) hel)
    · exact heq
    · exact absurd hel (List.disjoint_left.1 (hpair _ _ hj hi hgt) hel')

theorem together_ofMembers (h : members.Pairwise List.Disjoint) :
    (ofMembers members).together a b = true ↔ ∃ l ∈ members, a ∈ l ∧ b ∈ l := by
  unfold together
  constructor
  · intro ht
    split at ht
    · rename_i m k hm hk
      obtain rfl : m = k := by simpa using ht
      obtain ⟨l, hl, ha⟩ := (group?_ofMembers h).1 hm
      obtain ⟨l', hl', hb⟩ := (group?_ofMembers h).1 hk
      rw [hl] at hl'
      cases hl'
      exact ⟨l, List.mem_of_getElem? hl, ha, hb⟩
    · cases ht
  · rintro ⟨l, hl, ha, hb⟩
    obtain ⟨i, hi, rfl⟩ := List.getElem_of_mem hl
    rw [(group?_ofMembers h).2 ⟨_, List.getElem?_eq_getElem hi, ha⟩,
      (group?_ofMembers h).2 ⟨_, List.getElem?_eq_getElem hi, hb⟩]
    simp

theorem mem_membersOf (h : members.Pairwise List.Disjoint) :
    b ∈ (ofMembers members).membersOf a ↔ b = a ∨ (ofMembers members).together a b = true := by
  rw [together_ofMembers h]
  unfold membersOf
  split
  · rename_i k hk
    obtain ⟨l, hl, ha⟩ := (group?_ofMembers h).1 hk
    have hmem : ((ofMembers members).members[k]?).getD [a] = l := by
      change (members[k]?).getD [a] = l
      rw [hl]
      rfl
    rw [hmem]
    constructor
    · exact fun hb => .inr ⟨l, List.mem_of_getElem? hl, ha, hb⟩
    · rintro (rfl | ⟨l', hl', ha', hb⟩)
      · exact ha
      · obtain ⟨j, hj, rfl⟩ := List.getElem_of_mem hl'
        have hk' := (group?_ofMembers h).2 ⟨_, List.getElem?_eq_getElem hj, ha'⟩
        rw [hk] at hk'
        cases hk'
        rw [List.getElem?_eq_getElem hj] at hl
        cases hl
        exact hb
  · rename_i hnone
    rw [List.mem_singleton]
    constructor
    · exact .inl
    · rintro (rfl | ⟨l, hl, ha, -⟩)
      · rfl
      · obtain ⟨j, hj, rfl⟩ := List.getElem_of_mem hl
        have hk := (group?_ofMembers h).2 ⟨_, List.getElem?_eq_getElem hj, ha⟩
        rw [hnone] at hk
        cases hk

end Groups

namespace Chart

section Graph

variable {g : Digraph Invocation} {a b : Invocation}

theorem edge_emptyCallGraph {calls : List (Invocation × Invocation)} :
    (emptyCallGraph calls).Edge a b ↔ (a, b) ∈ calls := by
  unfold emptyCallGraph Digraph.Edge Digraph.successors
  simp only
  induction calls using List.reverseRecOn with
  | nil => simp [OrderedMap.get?, EmptyCollection.emptyCollection, OrderedMap.empty]
  | append_singleton calls e ih =>
    rw [List.foldl_append, List.foldl_cons, List.foldl_nil]
    obtain ⟨x, y⟩ := e
    simp only [List.mem_append, List.mem_singleton, Prod.mk.injEq, ← ih]
    split
    · rename_i hknown
      have hknown := List.contains_iff_mem.1 hknown
      constructor
      · exact .inl
      · rintro (h | ⟨rfl, rfl⟩)
        · exact h
        · exact hknown
    · rw [OrderedMap.get?_put]
      split
      · rename_i hx
        subst hx
        simp
      · rename_i hx
        have hx : ¬ a = x := fun h => hx h.symm
        simp [hx]

/-- A component is listed as cyclic just if it holds a cycle. -/
theorem isCyclic_iff {l : List Invocation} (hnodup : l.Nodup)
    (hl : ∀ a ∈ l, ∀ b, b ∈ l ↔ g.Mutual a b) :
    (1 < l.length || l.any fun i => (g.successors i).contains i) = true ↔
      ∃ d ∈ l, TransGen g.Edge d d := by
  rw [Bool.or_eq_true, decide_eq_true_iff, List.any_eq_true]
  constructor
  · rintro (hlen | ⟨d, hd, hself⟩)
    · obtain ⟨d, hd⟩ := List.exists_mem_of_length_pos (Nat.zero_lt_of_lt hlen)
      exact ⟨d, hd, (Digraph.transGen_self_iff hnodup hd (hl d hd)).2 (.inl hlen)⟩
    · exact ⟨d, hd, .single (List.contains_iff_mem.1 hself)⟩
  · rintro ⟨d, hd, hdd⟩
    obtain hlen | hself := (Digraph.transGen_self_iff hnodup hd (hl d hd)).1 hdd
    · exact .inl hlen
    · exact .inr ⟨d, hd, List.contains_iff_mem.2 hself⟩

theorem cyclicComponents_spec {nodes : List Invocation}
    (hnodes : ∀ a b, g.Edge a b → a ∈ nodes) :
    (cyclicComponents g nodes).Pairwise List.Disjoint ∧
      ((∃ l ∈ cyclicComponents g nodes, a ∈ l ∧ b ∈ l) ↔ TransGen g.Edge a b ∧ TransGen g.Edge b a) := by
  obtain ⟨hpart, hcover⟩ := g.partition_components nodes
  refine ⟨hpart.apart.filter _, ?_⟩
  unfold cyclicComponents
  constructor
  · rintro ⟨l, hl, ha, hb⟩
    obtain ⟨hl, hcyclic⟩ := List.mem_filter.1 hl
    obtain ⟨-, hnodup, hmutual⟩ := hpart.component l hl
    obtain ⟨d, hd, hdd⟩ := (isCyclic_iff hnodup hmutual).1 hcyclic
    have had := (hmutual a ha d).1 hd
    have hbd := (hmutual b hb d).1 hd
    exact ⟨(TransGen.trans_right had.1 hdd).trans_left hbd.2,
      (TransGen.trans_right hbd.1 hdd).trans_left had.2⟩
  · rintro ⟨hab, hba⟩
    obtain ⟨e, hae, -⟩ := TransGen.head'_iff.1 hab
    obtain ⟨l, hl, ha⟩ := List.mem_flatten.1 ((hcover a).2 ⟨a, hnodes a e hae, .refl⟩)
    obtain ⟨-, hnodup, hmutual⟩ := hpart.component l hl
    have hb := (hmutual a ha b).2 ⟨hab.to_reflTransGen, hba.to_reflTransGen⟩
    have hcyclic := (isCyclic_iff hnodup hmutual).2 ⟨a, ha, hab.trans hba⟩
    exact ⟨l, List.mem_filter.2 ⟨hl, hcyclic⟩, ha, hb⟩

end Graph

variable {c : Chart} {i : Nat} {types : List String}

/-- An invocation calls another one before any input, at a visit of a set that also holds the start
of the other. -/
def EmptyCall (c : Chart) (u : Visit → Prop) (a b : Invocation) : Prop :=
  b.origin = a.origin ∧ ∃ s id t follow, c.network.Owns a.rule s ∧
    c.network.Calls s id t b.rule follow ∧ u ⟨s, a.origin, a.origin⟩ ∧
    u ⟨t.target, a.origin, a.origin⟩

theorem origin_of_emptyCalls {u : Visit → Prop} {a b : Invocation}
    (h : TransGen (c.EmptyCall u) a b) : b.origin = a.origin := by
  induction h with
  | single h => exact h.1
  | tail _ h ih => exact h.1.trans ih

namespace Recognizes

variable (h : c.Recognizes i types)
include h

/-- The invocation of a visit. -/
theorem invocation_ok {v : Visit} (hv : c.contains v = true) :
    ∃ j : Nat, j < c.index.grammar.rules.size ∧ c.network.Owns j v.state ∧
      c.invocation v = .ok ⟨j, v.origin⟩ := by
  have hp := h.index.grammar.network
  obtain ⟨⟨r, st, hs, hr⟩, -⟩ := bounded_reaches hp h.rule v ((h.contains v).1 hv)
  obtain ⟨j, hj, hrule⟩ := (hp.state hs).rule
  refine ⟨j, hj, ⟨st, hs, hrule⟩, ?_⟩
  unfold invocation
  rw [hs]
  change Except.ok _ = _
  rw [hrule]
  rfl

theorem emptyCalls_ok {u : OrderedSet Visit} {v : Visit} (hv : c.contains v = true) :
    ∃ l, c.emptyCalls u v = .ok l ∧ ∀ e, e ∈ l ↔ v.position = v.origin ∧ ∃ id t follow,
      c.network.Owns e.1.rule v.state ∧ c.network.Calls v.state id t e.2.rule follow ∧
      e.1.origin = v.origin ∧ e.2.origin = v.origin ∧ ⟨t.target, v.origin, v.origin⟩ ∈ u.toList := by
  have hp := h.index.grammar.network
  obtain ⟨j, hj, hown, hinv⟩ := h.invocation_ok hv
  unfold emptyCalls
  by_cases hpos : v.position = v.origin
  swap
  · refine ⟨[], by simp [hpos, pure, Except.pure], fun e => ?_⟩
    simp [hpos]
  obtain ⟨st, hs, -⟩ := id hown
  obtain ⟨out, hout, hmem⟩ := hp.outgoing_ok hs
  rw [if_neg (by simpa using hpos)]
  refine exists_bind hinv (exists_bind hout (exists_bind_mapM (fun t o => ∀ e, o = some e ↔
    e.1 = ⟨j, v.origin⟩ ∧ e.2.origin = v.origin ∧ (∃ follow, t.call? = some (e.2.rule, follow)) ∧
    ⟨t.target, v.origin, v.origin⟩ ∈ u.toList) (fun t ht => ?_)
    fun called hcalled hall => ⟨_, rfl, fun e => ?_⟩))
  · obtain ⟨id, hleaves⟩ := (hmem t).1 ht
    obtain ⟨hk, -⟩ | ⟨callee, follow, hcallee, hc, htarget, -⟩ := hp.fits hleaves hown
    · refine ⟨none, ?_, fun e => ?_⟩
      · split
        · rename_i hkind _
          exact absurd hkind hk
        · rfl
      · simp only [reduceCtorEq, false_iff]
        rintro ⟨-, -, ⟨follow, hc⟩, -⟩
        exact hk (Transition.kind_of_call? hc)
    · obtain ⟨hk, hr, -⟩ := Transition.of_call? hc
      rw [hk, hr, htarget]
      refine ⟨_, bind_eq_ok.2 ⟨_, ChartIndex.startOf_ok h.index.grammar hcallee, rfl⟩, fun e => ?_⟩
      obtain ⟨a, r, o⟩ := e
      rw [hc, ← OrderedSet.contains_iff]
      split
      · rename_i hin
        simp only [hin, Option.some.injEq, Prod.mk.injEq, Invocation.mk.injEq]
        constructor
        · rintro ⟨rfl, rfl, rfl⟩
          exact ⟨rfl, rfl, ⟨follow, rfl, rfl⟩, trivial⟩
        · rintro ⟨rfl, rfl, ⟨_, rfl, -⟩, -⟩
          exact ⟨rfl, rfl, rfl⟩
      · rename_i hin
        simp [hin]
  · rw [List.mem_filterMap]
    constructor
    · rintro ⟨o, ho, hoe⟩
      obtain ⟨t, ht, hspec⟩ := hcalled o ho
      obtain ⟨ha, hb, ⟨follow, hc⟩, hin⟩ := (hspec e).1 hoe
      obtain ⟨id, hleaves⟩ := (hmem t).1 ht
      rw [ha]
      exact ⟨hpos, id, t, follow, hown, ⟨hleaves, hc⟩, rfl, hb, hin⟩
    · rintro ⟨-, id, t, follow, howner, hc, ha, hb, hin⟩
      obtain ⟨o, ho, hspec⟩ := hall t ((hmem t).2 ⟨id, hc.1⟩)
      refine ⟨o, ho, (hspec e).2 ⟨?_, hb, ⟨follow, hc.2⟩, hin⟩⟩
      obtain ⟨⟨r, o⟩, b⟩ := e
      simp only at ha howner
      rw [ha, howner.unique hown]

/-- Grouping never fails, and puts together what calls each other before any input. -/
theorem groups_ok {u : OrderedSet Visit} (hu : ∀ v ∈ u.toList, c.contains v = true) :
    ∃ g, c.groups u = .ok g ∧
      (∀ a b, g.together a b = true ↔
        TransGen (c.EmptyCall (· ∈ u.toList)) a b ∧ TransGen (c.EmptyCall (· ∈ u.toList)) b a) ∧
      ∀ a b, b ∈ g.membersOf a ↔ b = a ∨ g.together a b = true := by
  obtain ⟨calls, hcalls⟩ := exists_mapM (l := u.toList) (f := c.emptyCalls u) fun v hv => by
    obtain ⟨l, hl, -⟩ := h.emptyCalls_ok (u := u) (hu v hv)
    exact ⟨l, hl⟩
  have hedge : (emptyCallGraph calls.flatten).Edge = c.EmptyCall (· ∈ u.toList) := by
    funext a b
    rw [edge_emptyCallGraph, List.mem_flatten]
    refine propext ⟨?_, ?_⟩
    · rintro ⟨l, hl, hab⟩
      obtain ⟨v, hv, hvl⟩ := (mem_of_mapM hcalls).1 hl
      obtain ⟨l', hl', hmem⟩ := h.emptyCalls_ok (u := u) (hu v hv)
      rw [hvl] at hl'
      cases hl'
      obtain ⟨hpos, id, t, follow, hown, hcall, ha, hb, ht⟩ := (hmem _).1 hab
      obtain ⟨s, o, k⟩ := v
      simp only at hpos ha hb ht hv hown hcall
      subst hpos
      rw [← ha] at hb ht hv
      exact ⟨hb, s, id, t, follow, hown, hcall, hv, ht⟩
    · rintro ⟨ho, s, id, t, follow, hown, hcall, hs, ht⟩
      obtain ⟨l, hl, hmem⟩ := h.emptyCalls_ok (u := u) (hu _ hs)
      exact ⟨l, (mem_of_mapM hcalls).2 ⟨_, hs, hl⟩,
        (hmem (a, b)).2 ⟨rfl, id, t, follow, hown, hcall, rfl, ho, ht⟩⟩
  have hnodes : ∀ a b, (emptyCallGraph calls.flatten).Edge a b →
      a ∈ ((OrderedSet.ofList (calls.flatten.flatMap fun e => [e.1, e.2])).toList.mergeSort
        Invocation.precedes) := by
    intro a b hab
    rw [List.mem_mergeSort, OrderedSet.mem_toList_ofList, List.mem_flatMap]
    exact ⟨(a, b), edge_emptyCallGraph.1 hab, List.mem_cons_self ..⟩
  have hspec := fun a b => cyclicComponents_spec (a := a) (b := b) hnodes
  have hdisjoint := (hspec ⟨0, 0⟩ ⟨0, 0⟩).1
  refine ⟨_, ?_, fun a b => ?_, fun a b => Groups.mem_membersOf hdisjoint⟩
  · unfold groups
    rw [hcalls]
    rfl
  · rw [Groups.together_ofMembers hdisjoint, (hspec a b).2, hedge]

end Recognizes

end Chart

end RuleNetwork
