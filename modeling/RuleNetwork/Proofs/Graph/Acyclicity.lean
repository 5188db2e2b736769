import RuleNetwork.Proofs.Graph.Components
import RuleNetwork.Proofs.Graph.Cycles

/-!
Which parts of a graph have cycles listed. Among the nodes that those asked for lead to, each component of
several nodes holds a cycle listed, and each edge from a node to itself is one. So no cycle is listed just
if there is none.
-/

set_option autoImplicit false

namespace RuleNetwork

open Relation

theorem ClosedWalk.imp {α : Type} {step step' : α → α → Prop} {walk : List α} (h : ClosedWalk step walk)
    (himp : ∀ a b, step a b → step' a b) : ClosedWalk step' walk :=
  ⟨h.ne_nil, h.nodup, h.chain.imp himp⟩

namespace Digraph

section Reaching

variable {α : Type} [DecidableEq α] {g : Digraph α} {order : List α} {a b : α}

theorem Reached.trans (h : g.Reached order a) (hab : ReflTransGen g.Edge a b) : g.Reached order b := by
  obtain ⟨r, hr, hra⟩ := h
  exact ⟨r, hr, hra.trans hab⟩

/-- What leads back to a node led to stays among such nodes. -/
theorem Reached.transGen (h : g.Reached order a) (hab : TransGen g.Edge a b) :
    TransGen (fun x y => g.Reached order x ∧ g.Edge x y) a b := by
  obtain ⟨c, hac, hcb⟩ := TransGen.head'_iff.1 hab
  have hin : ReflTransGen (fun x y => g.Reached order x ∧ g.Edge x y) c b ∧ g.Reached order b :=
    reflTransGen_inside (fun hx hxy => ⟨⟨hx, hxy⟩, hx.edge hxy⟩) (h.edge hac) hcb
  exact .head' ⟨h, hac⟩ hin.1

/-- One node leads to another by edges between different nodes. -/
theorem Reached.transGen_ne (h : g.Reached order a) (hab : ReflTransGen g.Edge a b) (hne : a ≠ b) :
    TransGen (fun x y => x ≠ y ∧ g.Reached order x ∧ g.Edge x y) a b := by
  have hsteps : ReflTransGen (fun x y => x ≠ y ∧ g.Reached order x ∧ g.Edge x y) a b := by
    clear hne
    induction hab with
    | refl => exact .refl
    | @tail b c hab hbc ih =>
      by_cases heq : b = c
      · exact heq ▸ ih
      · exact ih.tail ⟨heq, h.trans hab, hbc⟩
  exact (reflTransGen_iff_eq_or_transGen.1 hsteps).resolve_left fun heq => hne heq.symm

end Reaching

section Listed

variable {α : Type} [DecidableEq α] [Hashable α] {g : Digraph α} {order : List α} {a b : α}

/-- A node that is mutually connected with another one is so with the nodes of a cycle listed through
several nodes. -/
theorem exists_cycle_of_mutual (ha : g.Reached order a) (hne : a ≠ b) (hab : g.Mutual a b) :
    ∃ c ∈ g.cycles order, 1 < c.length ∧ ∀ x ∈ c, g.Mutual a x := by
  have hloop := (ha.transGen_ne hab.1 hne).trans ((ha.trans hab.1).transGen_ne hab.2 hne.symm)
  obtain ⟨c, hc, hconnected⟩ := (meets_reached order).several.exists_connected hloop
  obtain ⟨hc, hlen⟩ := List.mem_filter.1 hc
  refine ⟨c, by simpa using hc, by simpa using hlen, fun x hx => ?_⟩
  obtain ⟨hax, hxa⟩ := hconnected x hx
  have hmono : ∀ {y z}, TransGen (fun x y => x ≠ y ∧ g.Reached order x ∧ g.Edge x y) y z →
      ReflTransGen g.Edge y z := fun h => (h.lift id fun _ _ h => h.2.2).to_reflTransGen
  exact ⟨hmono hax, hmono hxa⟩

/-- The nodes of a cycle listed are led to, and each leads back to itself. -/
theorem reached_of_mem_cycles {c : List α} (hc : c ∈ g.cycles order) (ha : a ∈ c) :
    g.Reached order a ∧ TransGen g.Edge a a := by
  have hloop := ((meets_reached order).closed c hc).leads ha ha
  obtain ⟨b, ⟨hreached, -⟩, -⟩ := TransGen.head'_iff.1 hloop
  exact ⟨hreached, hloop.lift id fun _ _ h => h.2⟩

/-- No cycle is listed just if no node led to leads back to itself. -/
theorem cycles_eq_nil_iff :
    g.cycles order = [] ↔ ∀ a, g.Reached order a → ¬ TransGen g.Edge a a := by
  constructor
  · intro hnil a ha hloop
    obtain ⟨c, hc, -⟩ := (meets_reached order).exists_connected (ha.transGen hloop)
    rw [hnil] at hc
    cases hc
  · intro hnone
    refine List.eq_nil_iff_forall_not_mem.2 fun c hc => ?_
    obtain ⟨a, ha⟩ := List.exists_mem_of_ne_nil c ((meets_reached order).closed c hc).ne_nil
    obtain ⟨hreached, hloop⟩ := reached_of_mem_cycles hc ha
    exact hnone a hreached hloop

end Listed

/-- The cycles of a graph, for any rows of successors and any nodes asked for. They are closed walks
without repetition through nodes that those asked for lead to, no two through the same nodes. Of a node
that is mutually connected with others, the component holds a cycle listed through several nodes; an edge
from a node to itself is listed; and none is listed just if no node leads back to itself. -/
theorem cycles_ok (g : Digraph Int) (order : Option (List Int)) :
    (∀ c ∈ g.cycles (g.nodesOr order),
        ClosedWalk g.Edge c ∧ ∀ a ∈ c, g.Reached (g.nodesOr order) a) ∧
      (g.cycles (g.nodesOr order)).Pairwise (fun c c' => ¬ ∀ a, a ∈ c ↔ a ∈ c') ∧
      (∀ a, g.Reached (g.nodesOr order) a → ∀ b, a ≠ b → g.Mutual a b →
        ∃ c ∈ g.cycles (g.nodesOr order), 1 < c.length ∧ ∀ x ∈ c, g.Mutual a x) ∧
      (∀ a, g.Reached (g.nodesOr order) a → g.Edge a a → [a] ∈ g.cycles (g.nodesOr order)) ∧
      (g.cycles (g.nodesOr order) = [] ↔
        ∀ a, g.Reached (g.nodesOr order) a → ¬ TransGen g.Edge a a) := by
  have h := meets_reached (g := g) (g.nodesOr order)
  refine ⟨fun c hc => ⟨(h.closed c hc).imp fun _ _ hab => hab.2, fun a ha => ?_⟩, h.apart,
    fun a ha b => exists_cycle_of_mutual ha, fun a => singleton_mem_cycles, cycles_eq_nil_iff⟩
  exact (reached_of_mem_cycles hc ha).1

end Digraph

end RuleNetwork
