import RuleNetwork.Proofs.Graph.Linking
import RuleNetwork.Proofs.Sorting

/-!
The components of a graph. They are the classes of nodes that lead to each other, of all nodes that the
ones asked for lead to, and each is listed after those that it leads to.
-/

set_option autoImplicit false

namespace RuleNetwork

open Relation

namespace Digraph

section Partition

variable {α : Type} [DecidableEq α] {g : Digraph α}

/-- Components listed: each holds all nodes that lead to one of its nodes and back, and no two have a
node in common. An edge between two leads to the one listed before. -/
structure Partition (g : Digraph α) (found : List (List α)) : Prop where
  component : ∀ c ∈ found, c ≠ [] ∧ c.Nodup ∧ ∀ a ∈ c, ∀ b, b ∈ c ↔ g.Mutual a b
  apart : found.Pairwise List.Disjoint
  ranked : found.Pairwise fun c c' => ∀ a ∈ c, ∀ b ∈ c', ¬ g.Edge a b

/-- A node leads back to itself by an edge to itself, or as one of several nodes of its component. -/
theorem transGen_self_iff {c : List α} (hnodup : c.Nodup) {a : α} (ha : a ∈ c)
    (hc : ∀ b, b ∈ c ↔ g.Mutual a b) : TransGen g.Edge a a ↔ 1 < c.length ∨ g.Edge a a := by
  constructor
  · intro hloop
    obtain ⟨b, hab, hba⟩ := TransGen.head'_iff.1 hloop
    by_cases hne : b = a
    · exact .inr (hne ▸ hab)
    · exact .inl ((two_le_length_iff hnodup ha).2 ⟨b, (hc b).2 ⟨.single hab, hba⟩, hne⟩)
  · rintro (hlen | hself)
    · obtain ⟨b, hb, hne⟩ := (two_le_length_iff hnodup ha).1 hlen
      obtain ⟨hab, hba⟩ := (hc b).1 hb
      exact ((reflTransGen_iff_eq_or_transGen.1 hab).resolve_left hne).trans_left hba
    · exact .single hself

namespace Partition

variable {found : List (List α)} (h : g.Partition found)
include h

theorem nodup_flatten : found.flatten.Nodup :=
  List.nodup_flatten.2 ⟨fun c hc => (h.component c hc).2.1, h.apart⟩

theorem share_iff {a b : α} (ha : a ∈ found.flatten) :
    (∃ c ∈ found, a ∈ c ∧ b ∈ c) ↔ g.Mutual a b := by
  constructor
  · rintro ⟨c, hc, ha, hb⟩
    exact ((h.component c hc).2.2 a ha b).1 hb
  · intro hab
    obtain ⟨c, hc, ha⟩ := List.mem_flatten.1 ha
    exact ⟨c, hc, ha, ((h.component c hc).2.2 a ha b).2 hab⟩

theorem lt_of_edge {i j : Nat} {c c' : List α} (hc : found[i]? = some c) (hc' : found[j]? = some c')
    {a b : α} (ha : a ∈ c) (hb : b ∈ c') (hab : g.Edge a b) (hne : i ≠ j) : j < i := by
  obtain ⟨hi, rfl⟩ := List.getElem?_eq_some_iff.1 hc
  obtain ⟨hj, rfl⟩ := List.getElem?_eq_some_iff.1 hc'
  refine (Nat.lt_or_gt_of_ne hne).resolve_left fun hlt => ?_
  exact List.pairwise_iff_getElem.1 h.ranked i j hi hj hlt a ha b hb hab

theorem place_unique {i j : Nat} {c c' : List α} (hc : found[i]? = some c) (hc' : found[j]? = some c')
    {a : α} (ha : a ∈ c) (ha' : a ∈ c') : i = j := by
  obtain ⟨hi, rfl⟩ := List.getElem?_eq_some_iff.1 hc
  obtain ⟨hj, rfl⟩ := List.getElem?_eq_some_iff.1 hc'
  have hapart := List.pairwise_iff_getElem.1 h.apart
  by_contra hne
  obtain hlt | hlt := Nat.lt_or_gt_of_ne hne
  · exact hapart i j hi hj hlt ha ha'
  · exact hapart j i hj hi hlt ha' ha

/-- Components may list their nodes in any order. -/
theorem map_perm {f : List α → List α} (hf : ∀ c ∈ found, (f c).Perm c) :
    g.Partition (found.map f) where
  component c hc := by
    obtain ⟨c', hc', rfl⟩ := List.mem_map.1 hc
    obtain ⟨hne, hnodup, hmutual⟩ := h.component c' hc'
    have hperm := hf c' hc'
    refine ⟨fun hnil => hne ?_, hperm.nodup_iff.2 hnodup, fun a ha b => ?_⟩
    · exact List.perm_nil.1 (hnil ▸ hperm.symm)
    · exact hperm.mem_iff.trans (hmutual a (hperm.mem_iff.1 ha) b)
  apart := List.pairwise_map.2 (h.apart.imp_of_mem fun hc hc' hapart a ha ha' =>
    hapart ((hf _ hc).mem_iff.1 ha) ((hf _ hc').mem_iff.1 ha'))
  ranked := List.pairwise_map.2 (h.ranked.imp_of_mem fun hc hc' hranked a ha b hb =>
    hranked a ((hf _ hc).mem_iff.1 ha) b ((hf _ hc').mem_iff.1 hb))

end Partition

end Partition

section Components

variable {α : Type} [DecidableEq α] [Hashable α] {g : Digraph α}

/-- The components listed: they are ranked, and hold the nodes that those asked for lead to. -/
theorem components_ok (order : List α) : g.Ranked (g.components order).reverse ∧
    ∀ a, a ∈ (g.components order).flatten ↔ ∃ r ∈ order, ReflTransGen g.Edge r a := by
  obtain ⟨h, hwork, hall⟩ := linking_ok (g := g) order
  have hlayered := h.layered
  rw [hwork] at hlayered
  have hmem : ∀ a, (∃ n, (g.linking order).numbers[a]? = some n) ↔
      a ∈ (g.linking order).found.flatten := fun a => by
    rw [h.mem_iff, hlayered.held_eq_nil]
    simp
  unfold components
  rw [List.reverse_reverse]
  refine ⟨h.ranked, fun a => ?_⟩
  have hreverse : a ∈ (g.linking order).found.reverse.flatten ↔ a ∈ (g.linking order).found.flatten := by
    simp
  rw [hreverse]
  constructor
  · intro ha
    obtain ⟨n, hn⟩ := (hmem a).2 ha
    exact h.reached hn
  · rintro ⟨r, hr, hra⟩
    exact h.ranked.mem_of_reach ((hmem r).1 (hall r hr)) hra

theorem partition_components (order : List α) : g.Partition (g.components order) ∧
    ∀ a, a ∈ (g.components order).flatten ↔ ∃ r ∈ order, ReflTransGen g.Edge r a := by
  obtain ⟨hranked, hmem⟩ := components_ok (g := g) order
  have hpairwise := List.pairwise_reverse.1 hranked.pairwise
  refine ⟨⟨fun c hc => hranked.component (List.mem_reverse.2 hc), ?_, ?_⟩, hmem⟩
  · exact hpairwise.imp fun h => h.1.symm
  · exact hpairwise.imp fun h => h.2

end Components

theorem partition_sortedComponents (g : Digraph Int) (order : Option (List Int)) :
    g.Partition (g.sortedComponents order) ∧
      ∀ a, a ∈ (g.sortedComponents order).flatten ↔ ∃ r ∈ g.nodesOr order, ReflTransGen g.Edge r a := by
  obtain ⟨hfound, hmem⟩ := partition_components (g := g) (g.nodesOr order)
  have hperm : ∀ c ∈ g.components (g.nodesOr order), c.mergeSort.Perm c :=
    fun c _ => List.mergeSort_perm c _
  refine ⟨hfound.map_perm hperm, fun a => ?_⟩
  rw [← hmem]
  simp [sortedComponents]

/-- The components of a graph, for any rows of successors and any nodes asked for. They hold the nodes
that those asked for lead to, each of them once; two nodes are in one just if each leads to the other;
each is listed in ascending order; and an edge between two leads to the one listed before. -/
theorem sortedComponents_ok (g : Digraph Int) (order : Option (List Int)) :
    (g.sortedComponents order).flatten.Nodup ∧
      (∀ a, a ∈ (g.sortedComponents order).flatten ↔
        ∃ r ∈ g.nodesOr order, ReflTransGen g.Edge r a) ∧
      (∀ a ∈ (g.sortedComponents order).flatten, ∀ b,
        (∃ c ∈ g.sortedComponents order, a ∈ c ∧ b ∈ c) ↔ g.Mutual a b) ∧
      (∀ c ∈ g.sortedComponents order, c ≠ [] ∧ c.Pairwise fun a b => a < b) ∧
      ∀ (i j : Nat) c c', (g.sortedComponents order)[i]? = some c →
        (g.sortedComponents order)[j]? = some c' → ∀ u ∈ c, ∀ v ∈ c', g.Edge u v → i ≠ j → j < i := by
  obtain ⟨hpart, hmem⟩ := partition_sortedComponents g order
  refine ⟨hpart.nodup_flatten, hmem, fun a ha b => hpart.share_iff ha, fun c hc => ?_,
    fun i j c c' hc hc' u hu v hv huv hne => hpart.lt_of_edge hc hc' hu hv huv hne⟩
  obtain ⟨hne, hnodup, -⟩ := hpart.component c hc
  obtain ⟨c, -, rfl⟩ := List.mem_map.1 hc
  have hkeys : (c.map id).Nodup := by
    rw [List.map_id]
    exact (List.mergeSort_perm c _).nodup_iff.1 hnodup
  exact ⟨hne, pairwise_lt_mergeSort hkeys⟩

end Digraph

end RuleNetwork
