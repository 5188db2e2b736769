import RuleNetwork.Graph.Digraph
import RuleNetwork.Proofs.Graph.Search

/-!
The edges of a graph, and the nodes that a depth-first exploration finishes: all those asked for.
-/

set_option autoImplicit false

namespace RuleNetwork

section Folds

variable {σ β : Type} {f : σ → β → σ} {P : σ → Prop} {Q : β → σ → Prop}

/-- What a loop keeps, and what it brings about for each item and keeps from then on. -/
theorem foldl_collect {l : List β} (hkeep : ∀ s, ∀ b ∈ l, P s → P (f s b) ∧ ∀ c, Q c s → Q c (f s b))
    (hmake : ∀ s, ∀ b ∈ l, P s → Q b (f s b)) {s : σ} (hs : P s) :
    P (l.foldl f s) ∧ (∀ c, Q c s → Q c (l.foldl f s)) ∧ ∀ b ∈ l, Q b (l.foldl f s) := by
  induction l generalizing s with
  | nil => exact ⟨hs, fun c hc => hc, fun b hb => absurd hb List.not_mem_nil⟩
  | cons a l ih =>
    have ha := List.mem_cons_self (a := a) (l := l)
    obtain ⟨hP, hstay, hall⟩ := ih (fun s b hb => hkeep s b (List.mem_cons_of_mem _ hb))
      (fun s b hb => hmake s b (List.mem_cons_of_mem _ hb)) (hkeep s a ha hs).1
    refine ⟨hP, fun c hc => hstay c ((hkeep s a ha hs).2 c hc), fun b hb => ?_⟩
    obtain rfl | hb := List.mem_cons.1 hb
    · exact hstay b (hmake s b ha hs)
    · exact hall b hb

end Folds

namespace Digraph

section Edges

variable {α : Type} (g : Digraph α)

/-- The nodes that rows mention. -/
def nodes : List α := g.rows.entries.flatMap fun e => e.1 :: e.2

theorem length_nodes : g.nodes.length = g.bound := by
  simp only [nodes, bound, List.length_flatMap, List.length_cons, List.sum_eq_foldr]

variable [DecidableEq α]

/-- There is an edge from one node to another. -/
def Edge (a b : α) : Prop := b ∈ g.successors a

variable {g}

theorem edge_iff {a b : α} : g.Edge a b ↔ ∃ l, (a, l) ∈ g.rows.entries ∧ b ∈ l := by
  unfold Edge successors
  constructor
  · intro h
    cases hl : g.rows.get? a with
    | none => rw [hl] at h; exact absurd h List.not_mem_nil
    | some l =>
      rw [hl] at h
      exact ⟨l, g.rows.get?_eq_some_iff.1 hl, h⟩
  · rintro ⟨l, hl, hb⟩
    rw [g.rows.get?_eq_some_iff.2 hl]
    exact hb

theorem Edge.left {a b : α} (h : g.Edge a b) : a ∈ g.nodes := by
  obtain ⟨l, hl, -⟩ := edge_iff.1 h
  exact List.mem_flatMap.2 ⟨_, hl, List.mem_cons_self ..⟩

theorem Edge.right {a b : α} (h : g.Edge a b) : b ∈ g.nodes := by
  obtain ⟨l, hl, hb⟩ := edge_iff.1 h
  exact List.mem_flatMap.2 ⟨_, hl, List.mem_cons_of_mem _ hb⟩

/-- Some node asked for leads to the node. -/
def Reached (g : Digraph α) (order : List α) (a : α) : Prop :=
  ∃ r ∈ order, Relation.ReflTransGen g.Edge r a

namespace Reached

variable {order : List α} {a b : α}

theorem root (ha : a ∈ order) : g.Reached order a := ⟨a, ha, .refl⟩

theorem edge (h : g.Reached order a) (hab : g.Edge a b) : g.Reached order b := by
  obtain ⟨r, hr, hra⟩ := h
  exact ⟨r, hr, hra.tail hab⟩

/-- A node led to is one of those asked for or one that rows mention. -/
theorem listed (h : g.Reached order a) : a ∈ order ∨ a ∈ g.nodes := by
  obtain ⟨r, hr, hra⟩ := h
  obtain rfl | ⟨b, -, hba⟩ := hra.cases_tail
  · exact .inl hr
  · exact .inr hba.right

end Reached

end Edges

section Exploring

variable {α : Type} [DecidableEq α] [Hashable α] {g : Digraph α}

namespace Exploration

/-- Every node seen has been finished, but for those of the path. -/
def Settled (e : Exploration α) (path : List α) : Prop :=
  ∀ a ∈ e.seen.toList, a ∈ e.finished ∨ a ∈ path

@[simp] theorem seen_close (e : Exploration α) (path : List α) (b : α) :
    (e.close path b).seen = e.seen := by
  unfold close
  simp only
  split <;> rfl

@[simp] theorem finished_close (e : Exploration α) (path : List α) (b : α) :
    (e.close path b).finished = e.finished := by
  unfold close
  simp only
  split <;> rfl

end Exploration

open Exploration

theorem settled_visit (bound : Nat) {path : List α} {a : α} {e : Exploration α}
    (h : e.Settled path) :
    (g.visit bound path a e).Settled path ∧
      (∀ b ∈ e.finished, b ∈ (g.visit bound path a e).finished) ∧
      (0 < bound → a ∈ (g.visit bound path a e).finished) := by
  induction bound generalizing path a e with
  | zero => exact ⟨h, fun b hb => hb, fun h0 => absurd h0 (Nat.lt_irrefl 0)⟩
  | succ bound ih =>
    -- the successors keep the nodes finished and settle all but the longer path
    have hfold : ∀ (l : List α) (e : Exploration α), e.Settled (a :: path) →
        (l.foldl (fun e b =>
          if b ∈ a :: path then e.close (a :: path) b
          else if e.seen.contains b then e
          else g.visit bound (a :: path) b e) e).Settled (a :: path) ∧
        ∀ b ∈ e.finished, b ∈ (l.foldl (fun e b =>
          if b ∈ a :: path then e.close (a :: path) b
          else if e.seen.contains b then e
          else g.visit bound (a :: path) b e) e).finished := by
      intro l
      induction l with
      | nil => exact fun e he => ⟨he, fun b hb => hb⟩
      | cons c l ihl =>
        intro e he
        rw [List.foldl_cons]
        split
        · have hclose : (e.close (a :: path) c).Settled (a :: path) := by
            intro b hb
            rw [seen_close] at hb
            rw [finished_close]
            exact he b hb
          obtain ⟨h₁, h₂⟩ := ihl _ hclose
          exact ⟨h₁, fun b hb => h₂ b (by rwa [finished_close])⟩
        · split
          · exact ihl e he
          · obtain ⟨hv, hkeep, -⟩ := ih (a := c) he
            obtain ⟨h₁, h₂⟩ := ihl _ hv
            exact ⟨h₁, fun b hb => h₂ b (hkeep b hb)⟩
    have hdiscover : (e.discover a).Settled (a :: path) := by
      intro b hb
      obtain hb | rfl := (OrderedSet.mem_toList_insert _ _ _).1 hb
      · exact (h b hb).imp id (List.mem_cons_of_mem _)
      · exact .inr (List.mem_cons_self ..)
    obtain ⟨h₁, h₂⟩ := hfold (g.successors a) (e.discover a) hdiscover
    unfold visit
    refine ⟨fun b hb => ?_, fun b hb => List.mem_cons_of_mem _ (h₂ b hb),
      fun _ => List.mem_cons_self ..⟩
    obtain hb | hb := h₁ b hb
    · exact .inl (List.mem_cons_of_mem _ hb)
    · obtain rfl | hb := List.mem_cons.1 hb
      · exact .inl (List.mem_cons_self ..)
      · exact .inr hb

/-- Every node asked for is finished. -/
theorem mem_finished_explore {order : List α} {a : α} (ha : a ∈ order) :
    a ∈ (g.explore order).finished := by
  have key : ∀ (l : List α) (e : Exploration α) (bound : Nat), 0 < bound → e.Settled [] →
      (∀ b ∈ e.finished, b ∈ (l.foldl (fun e a =>
        if e.seen.contains a then e else g.visit bound [] a e) e).finished) ∧
      ∀ b ∈ l, b ∈ (l.foldl (fun e a =>
        if e.seen.contains a then e else g.visit bound [] a e) e).finished := by
    intro l
    induction l with
    | nil => exact fun e bound _ _ => ⟨fun b hb => hb, fun b hb => absurd hb List.not_mem_nil⟩
    | cons c l ih =>
      intro e bound hbound he
      rw [List.foldl_cons]
      split
      · rename_i hseen
        obtain ⟨h₁, h₂⟩ := ih e bound hbound he
        refine ⟨h₁, fun b hb => ?_⟩
        obtain rfl | hb := List.mem_cons.1 hb
        · have hmem := (OrderedSet.contains_iff _ _).1 hseen
          exact h₁ b ((he b hmem).resolve_right List.not_mem_nil)
        · exact h₂ b hb
      · obtain ⟨hv, hkeep, hc⟩ := settled_visit (g := g) bound (a := c) he
        obtain ⟨h₁, h₂⟩ := ih _ bound hbound hv
        refine ⟨fun b hb => h₁ b (hkeep b hb), fun b hb => ?_⟩
        obtain rfl | hb := List.mem_cons.1 hb
        · exact h₁ b (hc hbound)
        · exact h₂ b hb
  have hpos : 0 < g.bound + order.length := by
    have := List.length_pos_of_mem ha
    omega
  exact (key order {} _ hpos fun b hb => absurd hb List.not_mem_nil).2 a ha

end Exploring

end Digraph

end RuleNetwork
