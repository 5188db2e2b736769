import Mathlib.Algebra.BigOperators.Group.Finset.Basic
import Mathlib.Algebra.Order.BigOperators.Group.Finset
import RuleNetwork.Graph.Components
import RuleNetwork.Proofs.Graph.Exploring

/-!
How the components of a graph are found. Two nodes are in one component just if each leads to the other.

While components are found, the nodes held fall apart into layers, one for each open node, which is
the first of its layer. The nodes of a layer are mutually connected, and all that has been looked at
from them and is still held has at least the number that the open node keeps. So when this is its
own number, nothing leads from the layer to those below, and the layer is a component.
-/

set_option autoImplicit false

namespace RuleNetwork

open Relation

namespace Digraph

section Mutual

variable {α : Type} [DecidableEq α]

/-- Each leads to the other. -/
def Mutual (g : Digraph α) (a b : α) : Prop :=
  Relation.ReflTransGen g.Edge a b ∧ Relation.ReflTransGen g.Edge b a

variable {g : Digraph α}

theorem Mutual.refl (a : α) : g.Mutual a a := ⟨.refl, .refl⟩

theorem Mutual.symm {a b : α} (h : g.Mutual a b) : g.Mutual b a := ⟨h.2, h.1⟩

theorem Mutual.trans {a b c : α} (h : g.Mutual a b) (h' : g.Mutual b c) : g.Mutual a c :=
  ⟨h.1.trans h'.1, h'.2.trans h.2⟩

/-- Components, the last one first: all that its edges lead to is in it or in one of those after it. -/
inductive Ranked (g : Digraph α) : List (List α) → Prop
  | nil : Ranked g []
  | cons {c : List α} {found : List (List α)} (hne : c ≠ []) (hnodup : c.Nodup)
      (hmutual : ∀ a ∈ c, ∀ b, b ∈ c ↔ g.Mutual a b)
      (hedges : ∀ a ∈ c, ∀ b, g.Edge a b → b ∈ c ∨ b ∈ found.flatten)
      (hapart : ∀ a ∈ c, a ∉ found.flatten) (hfound : Ranked g found) : Ranked g (c :: found)

theorem Ranked.mem_of_edge {found : List (List α)} (h : g.Ranked found) {a b : α}
    (ha : a ∈ found.flatten) (hab : g.Edge a b) : b ∈ found.flatten := by
  induction h with
  | nil => cases ha
  | cons _ _ _ hedges _ _ ih =>
    rw [List.flatten_cons, List.mem_append] at ha ⊢
    obtain ha | ha := ha
    · exact hedges a ha b hab
    · exact .inr (ih ha)

theorem Ranked.mem_of_reach {found : List (List α)} (h : g.Ranked found) {a b : α}
    (ha : a ∈ found.flatten) (hab : ReflTransGen g.Edge a b) : b ∈ found.flatten := by
  induction hab with
  | refl => exact ha
  | tail _ hstep ih => exact h.mem_of_edge ih hstep

theorem Ranked.component {found : List (List α)} (h : g.Ranked found) {c : List α} (hc : c ∈ found) :
    c ≠ [] ∧ c.Nodup ∧ ∀ a ∈ c, ∀ b, b ∈ c ↔ g.Mutual a b := by
  induction h with
  | nil => cases hc
  | cons hne hnodup hmutual _ _ _ ih =>
    obtain rfl | hc := List.mem_cons.1 hc
    · exact ⟨hne, hnodup, hmutual⟩
    · exact ih hc

/-- Components have no node in common, and no edge leads from one to one before it. -/
theorem Ranked.pairwise {found : List (List α)} (h : g.Ranked found) :
    found.Pairwise fun c c' => List.Disjoint c c' ∧ ∀ a ∈ c', ∀ b ∈ c, ¬ g.Edge a b := by
  induction h with
  | nil => exact .nil
  | cons _ _ _ _ hapart hfound ih =>
    refine List.pairwise_cons.2 ⟨fun c' hc' => ⟨fun a ha ha' => ?_, fun a ha b hb hab => ?_⟩, ih⟩
    · exact hapart a ha (List.mem_flatten.2 ⟨c', hc', ha'⟩)
    · exact hapart b hb (hfound.mem_of_edge (List.mem_flatten.2 ⟨c', hc', ha⟩) hab)

end Mutual

namespace Linking

variable {α : Type} [DecidableEq α] [Hashable α] {g : Digraph α}

/-- A node that has been looked at is numbered, and if it is held then by no less than is known. -/
def Looked (t : Linking α) (low : Nat) (b : α) : Prop :=
  ∃ n, t.numbers[b]? = some n ∧ (b ∈ t.held → low ≤ n)

/-- An open node with what is held since it was entered, above what was held before. -/
structure Layer (g : Digraph α) (t : Linking α) (f : Frame α) (above below : List α) : Prop where
  low_le : ∃ n, t.numbers[f.node]? = some n ∧ f.low ≤ n
  least : ∃ b ∈ above ++ f.node :: below, t.numbers[b]? = some f.low ∧ ReflTransGen g.Edge f.node b
  joined : ∀ b ∈ above, g.Mutual f.node b
  left : ∀ a ∈ above, ∀ b, g.Edge a b → t.Looked f.low b
  looked : ∀ b ∈ (g.successors f.node).take f.next, t.Looked f.low b

/-- Nodes held, in the layers of open nodes each of which leads to the next one. -/
inductive Layered (g : Digraph α) (t : Linking α) : List (Frame α) → List α → Prop
  | nil : Layered g t [] []
  | cons {f : Frame α} {rest : List (Frame α)} {above below : List α} (hlayer : Layer g t f above below)
      (hedge : ∀ p ∈ rest.head?, g.Edge p.node f.node) (hrest : Layered g t rest below) :
      Layered g t (f :: rest) (above ++ f.node :: below)

/-- What is held and what is found, whatever is open. -/
structure Numbered (g : Digraph α) (order : List α) (t : Linking α) : Prop where
  mem_iff : ∀ a : α, (∃ n, t.numbers[a]? = some n) ↔ a ∈ t.held ∨ a ∈ t.found.flatten
  lt_counter : ∀ {a : α} {n : Nat}, t.numbers[a]? = some n → n < t.counter
  falling : t.held.Pairwise fun a b =>
    ∀ n m : Nat, t.numbers[a]? = some n → t.numbers[b]? = some m → m < n
  apart : ∀ a ∈ t.held, a ∉ t.found.flatten
  reached : ∀ {a : α} {n : Nat}, t.numbers[a]? = some n → ∃ r ∈ order, ReflTransGen g.Edge r a
  ranked : g.Ranked t.found

structure Linked (g : Digraph α) (order : List α) (t : Linking α) : Prop extends Numbered g order t where
  layered : Layered g t t.work t.held

/-- Numbers stay, and nothing with a number is held anew. -/
structure Later (t t' : Linking α) : Prop where
  numbers : ∀ {a : α} {n : Nat}, t.numbers[a]? = some n → t'.numbers[a]? = some n
  held : ∀ {a : α} {n : Nat}, t.numbers[a]? = some n → a ∈ t'.held → a ∈ t.held

variable {order : List α} {t t' t'' : Linking α} {f : Frame α} {rest : List (Frame α)} {a b : α}

theorem Layered.held_eq_nil {held : List α} (h : Layered g t [] held) : held = [] := by
  cases h with
  | nil => rfl

theorem Later.refl (t : Linking α) : Later t t := ⟨id, fun _ => id⟩

theorem Later.trans (h : Later t t') (h' : Later t' t'') : Later t t'' :=
  ⟨fun ha => h'.numbers (h.numbers ha), fun ha hheld => h.held ha (h'.held (h.numbers ha) hheld)⟩

theorem later_work (t : Linking α) (work : List (Frame α)) : Later t { t with work := work } :=
  ⟨id, fun _ => id⟩

theorem Looked.later {low low' : Nat} (h : t.Looked low b) (hlater : Later t t') (hle : low' ≤ low) :
    t'.Looked low' b := by
  obtain ⟨n, hn, hlow⟩ := h
  exact ⟨n, hlater.numbers hn, fun hb => hle.trans (hlow (hlater.held hn hb))⟩

/-- A layer in a later state, when more of the successors of its open node have been looked at. -/
theorem Layer.later {above below : List α} (h : Layer g t f above below) (hlater : Later t t')
    {f' : Frame α} (hnode : f'.node = f.node) (hle : f'.low ≤ f.low)
    (hleast : f'.low = f.low ∨ ∃ b ∈ above ++ f.node :: below,
      t'.numbers[b]? = some f'.low ∧ ReflTransGen g.Edge f.node b)
    (hlooked : ∀ b ∈ (g.successors f.node).take f'.next,
      b ∈ (g.successors f.node).take f.next ∨ t'.Looked f'.low b) : Layer g t' f' above below := by
  obtain ⟨node, next, low⟩ := f'
  obtain rfl := hnode
  refine ⟨?_, ?_, h.joined, fun a ha b hab => (h.left a ha b hab).later hlater hle, fun b hb => ?_⟩
  · obtain ⟨n, hn, hlow⟩ := h.low_le
    exact ⟨n, hlater.numbers hn, hle.trans hlow⟩
  · obtain rfl | hleast := hleast
    · obtain ⟨b, hb, hn, hreach⟩ := h.least
      exact ⟨b, hb, hlater.numbers hn, hreach⟩
    · exact hleast
  · exact (hlooked b hb).elim (fun hb => (h.looked b hb).later hlater hle) id

theorem Layered.later {work : List (Frame α)} {held : List α} (h : Layered g t work held)
    (hlater : Later t t') : Layered g t' work held := by
  induction h with
  | nil => exact .nil
  | cons hlayer hedge _ ih =>
    exact .cons (hlayer.later hlater rfl le_rfl (.inl rfl) fun _ hb => .inl hb) hedge ih

theorem Layered.look {held : List α} (h : Layered g t (f :: rest) held) (hlater : Later t t')
    (f' : Frame α) (hnode : f'.node = f.node) (hle : f'.low ≤ f.low)
    (hleast : f'.low = f.low ∨ ∃ b ∈ held,
      t'.numbers[b]? = some f'.low ∧ ReflTransGen g.Edge f.node b)
    (hlooked : ∀ b ∈ (g.successors f.node).take f'.next,
      b ∈ (g.successors f.node).take f.next ∨ t'.Looked f'.low b) :
    Layered g t' (f' :: rest) held := by
  cases h with
  | cons hlayer hedge hrest =>
    have hlayer := hlayer.later hlater hnode hle hleast hlooked
    rw [← hnode] at hedge ⊢
    exact .cons hlayer hedge (hrest.later hlater)

/-- All that is held leads to the latest open node. -/
theorem Layered.leads {held : List α} (h : Layered g t (f :: rest) held) (hb : b ∈ held) :
    ReflTransGen g.Edge b f.node := by
  generalize hwork : f :: rest = work at h
  induction h generalizing f rest with
  | nil => cases hb
  | cons hlayer hedge hrest ih =>
    cases hwork
    obtain hb | hb := List.mem_append.1 hb
    · exact (hlayer.joined b hb).2
    · obtain rfl | hb := List.mem_cons.1 hb
      · exact .refl
      · cases hrest with
        | nil => cases hb
        | cons hlayer' hedge' hrest' => exact (ih hb rfl).tail (hedge _ rfl)

theorem Numbered.nodup (h : Numbered g order t) : t.held.Nodup := by
  refine List.Pairwise.imp_of_mem (fun {a b} ha _ hlt heq => ?_) h.falling
  obtain ⟨n, hn⟩ := (h.mem_iff a).2 (.inl ha)
  exact Nat.lt_irrefl n (hlt n n hn (heq ▸ hn))

/-- What is held above a node has greater numbers, what is held below it lesser ones. -/
theorem Numbered.number_lt (h : Numbered g order t) {above below : List α}
    (hheld : t.held = above ++ a :: below) {n m : Nat} (hn : t.numbers[a]? = some n)
    (hm : t.numbers[b]? = some m) : (b ∈ above → n < m) ∧ (b ∈ below → m < n) := by
  have hfalling := h.falling
  rw [hheld, List.pairwise_append, List.pairwise_cons] at hfalling
  exact ⟨fun hb => hfalling.2.2 b hb a (List.mem_cons_self ..) m n hm hn,
    fun hb => hfalling.2.1.1 b hb n m hn hm⟩

theorem Layered.latest {held : List α} (h : Layered g t (f :: rest) held) :
    ∃ above below, held = above ++ f.node :: below ∧ Layer g t f above below ∧
      (∀ p ∈ rest.head?, g.Edge p.node f.node) ∧ Layered g t rest below := by
  cases h with
  | cons hlayer hedge hrest => exact ⟨_, _, rfl, hlayer, hedge, hrest⟩

theorem getElem?_enter (t : Linking α) (a b : α) :
    (t.enter a).numbers[b]? = if a = b then some t.counter else t.numbers[b]? := by
  unfold enter
  simp only [Std.HashMap.getElem?_insert, beq_iff_eq]

theorem later_enter (ha : t.numbers[a]? = none) : Later t (t.enter a) where
  numbers {b n} hb := by
    rw [getElem?_enter, if_neg, hb]
    rintro rfl
    rw [ha] at hb
    cases hb
  held {b n} hb hmem := by
    refine (List.mem_cons.1 hmem).resolve_left ?_
    rintro rfl
    rw [ha] at hb
    cases hb

theorem Numbered.enter (h : Numbered g order t) (ha : t.numbers[a]? = none)
    (hreach : ∃ r ∈ order, ReflTransGen g.Edge r a) : Numbered g order (t.enter a) := by
  have hnew : a ∉ t.held ∧ a ∉ t.found.flatten := by
    rw [← not_or, ← h.mem_iff, ha]
    rintro ⟨n, hn⟩
    cases hn
  have hcases : ∀ {b n}, (t.enter a).numbers[b]? = some n →
      (b = a ∧ n = t.counter) ∨ t.numbers[b]? = some n := fun {b n} hb => by
    rw [getElem?_enter] at hb
    split at hb
    · rename_i heq
      exact .inl ⟨heq.symm, (Option.some.inj hb).symm⟩
    · exact .inr hb
  refine ⟨fun b => ?_, fun {b n} hb => ?_, ?_, fun b hb => ?_, fun {b n} hb => ?_, h.ranked⟩
  · by_cases heq : a = b
    · subst heq
      refine ⟨fun _ => .inl (List.mem_cons_self ..), fun _ => ⟨t.counter, ?_⟩⟩
      rw [getElem?_enter, if_pos rfl]
    · rw [getElem?_enter, if_neg heq, h.mem_iff]
      exact or_congr_left ⟨List.mem_cons_of_mem _, fun hb =>
        (List.mem_cons.1 hb).resolve_left fun hba => heq hba.symm⟩
  · obtain ⟨-, rfl⟩ | hb := hcases hb
    · exact Nat.lt_succ_self _
    · exact Nat.lt_succ_of_lt (h.lt_counter hb)
  · refine List.pairwise_cons.2 ⟨fun b hb n m hn hm => ?_, h.falling.imp_of_mem fun hb hc hlt n m hn hm => ?_⟩
    · rw [getElem?_enter, if_pos rfl] at hn
      cases hn
      obtain ⟨rfl, -⟩ | hm := hcases hm
      · exact absurd hb hnew.1
      · exact h.lt_counter hm
    · obtain ⟨rfl, -⟩ | hn := hcases hn
      · exact absurd hb hnew.1
      · obtain ⟨rfl, -⟩ | hm := hcases hm
        · exact absurd hc hnew.1
        · exact hlt n m hn hm
  · obtain rfl | hb := List.mem_cons.1 hb
    · exact hnew.2
    · exact h.apart b hb
  · obtain ⟨rfl, -⟩ | hb := hcases hb
    · exact hreach
    · exact h.reached hb

theorem Layered.enter {work : List (Frame α)} {held : List α}
    (h : Layered g (t.enter a) work held) (hedge : ∀ p ∈ work.head?, g.Edge p.node a) :
    Layered g (t.enter a) (⟨a, 0, t.counter⟩ :: work) (a :: held) := by
  have hself : (t.enter a).numbers[a]? = some t.counter := by rw [getElem?_enter, if_pos rfl]
  have hlayer : Layer g (t.enter a) ⟨a, 0, t.counter⟩ [] held := by
    refine ⟨⟨_, hself, le_rfl⟩, ⟨a, List.mem_cons_self .., hself, .refl⟩, ?_, ?_, ?_⟩
    · exact fun b hb => absurd hb List.not_mem_nil
    · exact fun b hb => absurd hb List.not_mem_nil
    · exact fun b hb => absurd hb List.not_mem_nil
  exact .cons hlayer hedge h

theorem Linked.enter (h : Linked g order t) (hwork : t.work = []) (ha : t.numbers[a]? = none)
    (horder : a ∈ order) : Linked g order (t.enter a) := by
  have hlayered := h.layered.later (later_enter ha)
  refine ⟨h.toNumbered.enter ha ⟨a, horder, .refl⟩, hlayered.enter fun p hp => ?_⟩
  rw [hwork] at hp
  cases hp

/-- A successor is entered if it is new, and else remembered if it is held. -/
theorem Linked.look (h : Linked g order t) (hwork : t.work = f :: rest)
    (hb : (g.successors f.node)[f.next]? = some b) : Linked g order (t.look f rest b) := by
  have hlayered := h.layered
  rw [hwork] at hlayered
  obtain ⟨above, below, hheld, hlayer, -⟩ := hlayered.latest
  obtain ⟨n, hn, hle⟩ := hlayer.low_le
  have hfb : g.Edge f.node b := List.mem_of_getElem? hb
  have htake : ∀ c ∈ (g.successors f.node).take (f.next + 1),
      c ∈ (g.successors f.node).take f.next ∨ c = b := fun c hc => by
    rw [List.take_add_one, hb, List.mem_append] at hc
    simpa using hc
  unfold Linking.look
  cases hnb : t.numbers[b]? with
  | none =>
    obtain ⟨r, hr, hrf⟩ := h.reached hn
    have hlater : Later t (Linking.enter { t with work := { f with next := f.next + 1 } :: rest } b) :=
      (later_work t _).trans (later_enter hnb)
    have hnumbered : Numbered g order { t with work := { f with next := f.next + 1 } :: rest } :=
      { h with }
    refine ⟨hnumbered.enter hnb ⟨r, hr, hrf.tail hfb⟩, Layered.enter ?_ fun p hp => ?_⟩
    · refine hlayered.look hlater { f with next := f.next + 1 } rfl le_rfl (.inl rfl) fun c hc => (htake c hc).imp_right ?_
      rintro rfl
      refine ⟨t.counter, ?_, fun _ => hle.trans (h.lt_counter hn).le⟩
      rw [getElem?_enter, if_pos rfl]
    · cases hp
      exact hfb
  | some m =>
    simp only
    split
    · rename_i hmem
      refine ⟨{ h with }, hlayered.look (later_work t _)
        { f with next := f.next + 1, low := min f.low m } rfl (min_le_left _ _) ?_ fun c hc => (htake c hc).imp_right ?_⟩
      · obtain hmin | hmin := min_choice f.low m
        · exact .inl hmin
        · exact .inr ⟨b, hmem, hnb.trans (congrArg some hmin.symm), .single hfb⟩
      · rintro rfl
        exact ⟨m, hnb, fun _ => min_le_right _ _⟩
    · rename_i hmem
      refine ⟨{ h with }, hlayered.look (later_work t _)
        { f with next := f.next + 1 } rfl le_rfl (.inl rfl) fun c hc => (htake c hc).imp_right ?_⟩
      rintro rfl
      exact ⟨m, hnb, fun hc => absurd hc hmem⟩

/-- All successors of a node that is left have been looked at, as those of the nodes above it. -/
theorem Layer.edges {above below : List α} (h : Layer g t f above below)
    (hdone : (g.successors f.node)[f.next]? = none) (ha : a ∈ above ++ [f.node]) (hab : g.Edge a b) :
    t.Looked f.low b := by
  obtain ha | ha := List.mem_append.1 ha
  · exact h.left a ha b hab
  · obtain rfl := List.mem_singleton.1 ha
    refine h.looked b ?_
    rw [List.take_of_length_le (List.getElem?_eq_none_iff.1 hdone)]
    exact hab

/-- What leads to a node held below has not come back to the one that is left. -/
theorem Layered.lower_eq {below : List α} (h : Layered g t rest below) {low : Nat}
    (hlt : ∀ b ∈ below, ∀ n, t.numbers[b]? = some n → n < low) : lower low rest = rest := by
  cases h with
  | nil => rfl
  | @cons p rest above below hlayer _ _ =>
    obtain ⟨n, hn, hle⟩ := hlayer.low_le
    have hn := hlt p.node (List.mem_append_right _ (List.mem_cons_self ..)) n hn
    rw [lower, min_eq_left (hle.trans hn.le)]

section Complete

variable {above below : List α} (h : Linked g order t) (hheld : t.held = above ++ f.node :: below)
  (hlayer : Layer g t f above below) (hdone : (g.successors f.node)[f.next]? = none)
  (hlow : t.numbers[f.node]? = some f.low)
include h hheld hlayer hdone hlow

/-- A layer that leads to no number before its own leads to none of the nodes below. -/
theorem Linked.mem_of_edge (ha : a ∈ above ++ [f.node]) (hab : g.Edge a b) :
    b ∈ above ++ [f.node] ∨ b ∈ t.found.flatten := by
  obtain ⟨n, hn, hle⟩ := hlayer.edges hdone ha hab
  obtain hb | hb := (h.mem_iff b).1 ⟨n, hn⟩
  · have hle := hle hb
    rw [hheld, List.append_cons, List.mem_append] at hb
    exact .inl (hb.resolve_right fun hb => absurd ((h.number_lt hheld hlow hn).2 hb) hle.not_gt)
  · exact .inr hb

theorem Linked.mem_layer_iff : b ∈ above ++ [f.node] ↔ g.Mutual f.node b := by
  have hreach : ∀ {b}, ReflTransGen g.Edge f.node b → b ∈ above ++ [f.node] ∨ b ∈ t.found.flatten :=
    fun hfb => by
      induction hfb with
      | refl => exact .inl (List.mem_append_right _ (List.mem_singleton_self _))
      | tail _ hstep ih =>
        obtain hb | hb := ih
        · exact h.mem_of_edge hheld hlayer hdone hlow hb hstep
        · exact .inr (h.ranked.mem_of_edge hb hstep)
  constructor
  · intro hb
    obtain hb | hb := List.mem_append.1 hb
    · exact hlayer.joined b hb
    · exact List.mem_singleton.1 hb ▸ .refl _
  · -- components found do not lead to a node that is held
    have hfnode : f.node ∈ t.held := by simp [hheld]
    exact fun ⟨hfb, hbf⟩ => (hreach hfb).resolve_right fun hb =>
      h.apart f.node hfnode (h.ranked.mem_of_reach hb hbf)

end Complete

/-- A layer from which nothing leads below is a component. -/
theorem Linked.leave_complete (h : Linked g order t) (hwork : t.work = f :: rest)
    (hdone : (g.successors f.node)[f.next]? = none) (hlow : t.numbers[f.node]? = some f.low) :
    Linked g order (t.leave f rest) := by
  have hlayered := h.layered
  rw [hwork] at hlayered
  obtain ⟨above, below, hheld, hlayer, -, hrest⟩ := hlayered.latest
  have hmem : ∀ b, b ∈ t.held ↔ b ∈ above ++ [f.node] ∨ b ∈ below := fun b => by
    rw [hheld, List.append_cons, List.mem_append]
  have hmutual := fun b => h.mem_layer_iff hheld hlayer hdone hlow (b := b)
  have hnodup := h.nodup
  have hfalling := h.falling
  rw [hheld, List.append_cons] at hnodup hfalling
  obtain ⟨hc, -, hapart⟩ := List.nodup_append.1 hnodup
  have hne : ∀ x ∈ above, decide (x ≠ f.node) = true :=
    fun x hx => decide_eq_true ((List.nodup_append.1 hc).2.2 x hx f.node (List.mem_singleton_self _))
  have htake : t.held.takeWhile (· ≠ f.node) = above := by
    rw [hheld, List.takeWhile_append_of_pos hne]
    simp
  have hdrop : (t.held.dropWhile (· ≠ f.node)).tail = below := by
    rw [hheld, List.dropWhile_append_of_pos hne]
    simp
  unfold Linking.leave
  rw [if_pos hlow, htake, hdrop, hrest.lower_eq fun b hb n hn => (h.number_lt hheld hlow hn).2 hb]
  refine ⟨⟨fun b => (h.mem_iff b).trans ?_, h.lt_counter, (List.pairwise_append.1 hfalling).2.1,
    fun b hb => ?_, h.reached, ?_⟩, hrest.later ⟨id, fun _ hb => (hmem _).2 (.inr hb)⟩⟩
  · rw [hmem, or_assoc, or_left_comm, ← List.mem_append, ← List.flatten_cons]
  · rw [List.flatten_cons, List.mem_append, not_or]
    exact ⟨fun hb' => hapart _ hb' _ hb rfl, h.apart b ((hmem b).2 (.inr hb))⟩
  · refine .cons (by simp) hc (fun a ha b => ?_)
      (fun a ha b => h.mem_of_edge hheld hlayer hdone hlow ha)
      (fun a ha => h.apart a ((hmem a).2 (.inl ha))) h.ranked
    have hfa := (hmutual a).1 ha
    exact (hmutual b).trans ⟨hfa.symm.trans, hfa.trans⟩

/-- Two layers as one, when the upper one leads to the nodes held below it. -/
theorem Layer.join {p : Frame α} {above below above' below' : List α} (hlayer : Layer g t f above below)
    (hbelow : below = above' ++ p.node :: below') (hlayer' : Layer g t p above' below')
    (hdone : (g.successors f.node)[f.next]? = none) (hpf : g.Edge p.node f.node)
    (hfp : ReflTransGen g.Edge f.node p.node) :
    Layer g t { p with low := min p.low f.low } (above ++ f.node :: above') below' := by
  have hmutual : g.Mutual p.node f.node := ⟨.single hpf, hfp⟩
  obtain ⟨n, hn, hle⟩ := hlayer'.low_le
  refine ⟨⟨n, hn, (min_le_left _ _).trans hle⟩, ?_, fun b hb => ?_, fun a ha b hab => ?_,
    fun b hb => (hlayer'.looked b hb).later (.refl t) (min_le_left _ _)⟩
  · obtain ⟨b, hb, hbn, hpb⟩ := hlayer'.least
    obtain ⟨c, hc, hcn, hfc⟩ := hlayer.least
    rw [List.append_assoc, List.cons_append, ← hbelow]
    obtain hmin | hmin := min_choice p.low f.low
    · exact ⟨b, by rw [hbelow]; exact List.mem_append_right _ (List.mem_cons_of_mem _ hb),
        hbn.trans (congrArg some hmin.symm), hpb⟩
    · exact ⟨c, hc, hcn.trans (congrArg some hmin.symm), .head hpf hfc⟩
  · obtain hb | hb := List.mem_append.1 hb
    · exact hmutual.trans (hlayer.joined b hb)
    · obtain rfl | hb := List.mem_cons.1 hb
      · exact hmutual
      · exact hlayer'.joined b hb
  · rw [List.append_cons] at ha
    obtain ha | ha := List.mem_append.1 ha
    · exact (hlayer.edges hdone ha hab).later (.refl t) (min_le_right _ _)
    · exact (hlayer'.left a ha b hab).later (.refl t) (min_le_left _ _)

/-- A layer from which something leads below joins the one below it. -/
theorem Linked.leave_joined (h : Linked g order t) (hwork : t.work = f :: rest)
    (hdone : (g.successors f.node)[f.next]? = none) (hlow : t.numbers[f.node]? ≠ some f.low) :
    Linked g order (t.leave f rest) := by
  have hlayered := h.layered
  rw [hwork] at hlayered
  obtain ⟨above, below, hheld, hlayer, hedge, hrest⟩ := hlayered.latest
  obtain ⟨n, hn, hle⟩ := hlayer.low_le
  obtain ⟨b, hb, hbn, hfb⟩ := hlayer.least
  have hlt : f.low < n := lt_of_le_of_ne hle fun heq => hlow (heq ▸ hn)
  have hbelow : b ∈ below := by
    obtain hb | hb := List.mem_append.1 hb
    · exact absurd ((h.number_lt hheld hn hbn).1 hb) hlt.not_gt
    · refine (List.mem_cons.1 hb).resolve_left ?_
      rintro rfl
      exact hlow hbn
  have hjoined : Layered g t (lower f.low rest) t.held := by
    cases rest with
    | nil =>
      cases hrest
      cases hbelow
    | cons p rest =>
      have hbp := hrest.leads hbelow
      obtain ⟨above', below', heq, hlayer', hedge', hrest'⟩ := hrest.latest
      have hjoin := hlayer.join heq hlayer' hdone (hedge p rfl) (hfb.trans hbp)
      rw [hheld, heq, ← List.cons_append, ← List.append_assoc]
      exact .cons (f := { p with low := min p.low f.low }) hjoin hedge' hrest'
  unfold Linking.leave
  rw [if_neg hlow]
  exact ⟨{ h with }, hjoined.later (later_work t _)⟩

theorem Linked.advance (h : Linked g order t) : Linked g order (g.advance t) := by
  unfold Digraph.advance
  split
  · exact h
  · rename_i f rest hwork
    split
    · rename_i b hb
      exact h.look hwork hb
    · rename_i hdone
      by_cases hlow : t.numbers[f.node]? = some f.low
      · exact h.leave_complete hwork hdone hlow
      · exact h.leave_joined hwork hdone hlow

theorem numbers_advance {n : Nat} (ha : t.numbers[a]? = some n) :
    (g.advance t).numbers[a]? = some n := by
  unfold Digraph.advance
  split
  · exact ha
  · split
    · unfold Linking.look
      split
      · rename_i hb
        exact ((later_work t _).trans (later_enter hb)).numbers ha
      · split
        · exact ha
        · exact ha
    · unfold Linking.leave
      split
      · exact ha
      · exact ha

section Steps

variable (g) (univ : Finset α)

/-- Steps still to be taken for an open node. -/
def toGo (f : Frame α) : Nat := (g.successors f.node).length - f.next + 1

/-- Steps still to be taken, at most, if all new nodes of a set are yet to be entered. -/
def remaining (t : Linking α) : Nat :=
  ∑ a ∈ univ with t.numbers[a]? = none, ((g.successors a).length + 1) + (t.work.map (toGo g)).sum

theorem remaining_enter (hin : a ∈ univ) (ha : t.numbers[a]? = none) :
    remaining g univ (t.enter a) = remaining g univ t := by
  have hnew : univ.filter (fun x => (t.enter a).numbers[x]? = none) =
      (univ.filter fun x => t.numbers[x]? = none).erase a := by
    ext x
    simp only [Finset.mem_filter, Finset.mem_erase, getElem?_enter]
    by_cases hx : a = x
    · simp [hx]
    · simp [hx, Ne.symm hx]
  have hmem : a ∈ univ.filter fun x => t.numbers[x]? = none := Finset.mem_filter.2 ⟨hin, ha⟩
  unfold remaining
  rw [hnew, ← Finset.add_sum_erase _ _ hmem]
  simp only [Linking.enter, List.map_cons, List.sum_cons, toGo]
  omega

omit [Hashable α] in
theorem toGo_lower (low : Nat) (rest : List (Frame α)) :
    (lower low rest).map (toGo g) = rest.map (toGo g) := by
  cases rest with
  | nil => rfl
  | cons f rest => rfl

/-- Every step brings the end nearer. -/
theorem remaining_advance_lt {g} {univ} (huniv : ∀ {a b}, g.Edge a b → b ∈ univ) (hwork : t.work ≠ []) :
    remaining g univ (g.advance t) < remaining g univ t := by
  unfold Digraph.advance
  split
  · rename_i hnil
    exact absurd hnil hwork
  · rename_i f rest hf
    split
    · rename_i b hb
      have hnext := (List.getElem?_eq_some_iff.1 hb).1
      have hlt : ∀ low, toGo g { f with next := f.next + 1, low := low } < toGo g f := fun low => by
        simp only [toGo]
        omega
      unfold Linking.look
      split
      · rename_i hnew
        have henter := remaining_enter g univ (huniv (List.mem_of_getElem? hb))
          (t := { t with work := { f with next := f.next + 1 } :: rest }) hnew
        refine henter.trans_lt ?_
        simpa [remaining, hf] using hlt f.low
      · rename_i n _
        split
        · simpa [remaining, hf] using hlt (min f.low n)
        · simpa [remaining, hf] using hlt f.low
    · unfold Linking.leave
      split
      · simp [remaining, hf, toGo_lower, toGo]
      · simp [remaining, hf, toGo_lower, toGo]

theorem Linked.drain {g} {univ} (huniv : ∀ {a b}, g.Edge a b → b ∈ univ) {bound : Nat}
    (h : Linked g order t) (hbound : remaining g univ t ≤ bound) :
    Linked g order (g.drain bound t) ∧ (g.drain bound t).work = [] ∧
      ∀ {a : α} {n : Nat}, t.numbers[a]? = some n → (g.drain bound t).numbers[a]? = some n := by
  induction bound generalizing t with
  | zero =>
    refine ⟨h, ?_, id⟩
    have hzero : (t.work.map (toGo g)).sum = 0 := by
      unfold remaining at hbound
      omega
    cases hwork : t.work with
    | nil => exact hwork
    | cons f rest => simp [hwork, toGo] at hzero
  | succ bound ih =>
    unfold Digraph.drain
    split
    · rename_i hnil
      exact ⟨h, List.isEmpty_iff.1 hnil, id⟩
    · rename_i hwork
      have hlt := remaining_advance_lt huniv (t := t) (by simpa using hwork)
      obtain ⟨hlinked, hnil, hkeep⟩ := ih h.advance (by omega)
      exact ⟨hlinked, hnil, fun ha => hkeep (numbers_advance ha)⟩

end Steps

end Linking

section Exploring

variable {α : Type} [DecidableEq α] [Hashable α] {g : Digraph α} {order : List α}

omit [Hashable α] in
theorem length_successors_le (a : α) : (g.successors a).length ≤ g.bound := by
  unfold successors bound
  cases hl : g.rows.get? a with
  | none => exact Nat.zero_le _
  | some l =>
    have hmem := List.mem_map_of_mem (f := fun e => e.2.length + 1) (g.rows.get?_eq_some_iff.1 hl)
    have hle := List.le_sum_of_mem hmem
    rw [List.sum_eq_foldr] at hle
    exact (Nat.le_succ _).trans hle

open Linking in
theorem remaining_le (t : Linking α) (hwork : t.work = []) :
    remaining g (order ++ g.nodes).toFinset t ≤ g.linkingBound order := by
  have hcard : ((order ++ g.nodes).toFinset.filter fun a => t.numbers[a]? = none).card ≤
      g.bound + order.length := by
    refine (Finset.card_filter_le _ _).trans ((List.toFinset_card_le _).trans ?_)
    rw [List.length_append, length_nodes, Nat.add_comm]
  have hsum := Finset.sum_le_card_nsmul
    ((order ++ g.nodes).toFinset.filter fun a => t.numbers[a]? = none)
    (fun a => (g.successors a).length + 1) (g.bound + 1)
    fun a _ => Nat.succ_le_succ (length_successors_le a)
  unfold remaining linkingBound
  rw [hwork, List.map_nil, List.sum_nil, Nat.add_zero]
  exact hsum.trans (Nat.mul_le_mul_right _ hcard)

open Linking in
/-- The exploration comes to its end, and every node asked for is numbered. -/
theorem linking_ok (order : List α) : Linked g order (g.linking order) ∧ (g.linking order).work = [] ∧
    ∀ a ∈ order, ∃ n, (g.linking order).numbers[a]? = some n := by
  have hstep : ∀ t : Linking α, ∀ a ∈ order, Linked g order t ∧ t.work = [] →
      let t' := if t.numbers.contains a then t else g.drain (g.linkingBound order) (t.enter a)
      (Linked g order t' ∧ t'.work = []) ∧ (∃ n, t'.numbers[a]? = some n) ∧
        ∀ {b : α} {n : Nat}, t.numbers[b]? = some n → t'.numbers[b]? = some n := by
    rintro t a ha ⟨h, hwork⟩
    simp only
    split
    · rename_i hknown
      exact ⟨⟨h, hwork⟩, ⟨_, Std.HashMap.getElem?_eq_some_getElem hknown⟩, id⟩
    · rename_i hnew
      have hnone : t.numbers[a]? = none := Std.HashMap.getElem?_eq_none hnew
      have hbound : remaining g (order ++ g.nodes).toFinset (t.enter a) ≤ g.linkingBound order := by
        rw [remaining_enter g _ (by simp [ha]) hnone]
        exact remaining_le t hwork
      obtain ⟨hlinked, hnil, hkeep⟩ := Linked.drain (fun hab => by simp [Edge.right hab])
        (h.enter hwork hnone ha) hbound
      refine ⟨⟨hlinked, hnil⟩, ⟨t.counter, hkeep ?_⟩, fun hb => hkeep ((later_enter hnone).numbers hb)⟩
      rw [getElem?_enter, if_pos rfl]
  obtain ⟨⟨hlinked, hnil⟩, -, hall⟩ := foldl_collect (l := order)
    (P := fun t => Linked g order t ∧ t.work = []) (Q := fun a t => ∃ n, t.numbers[a]? = some n)
    (fun t a ha ht => ⟨(hstep t a ha ht).1, fun b ⟨n, hn⟩ => ⟨n, (hstep t a ha ht).2.2 hn⟩⟩)
    (fun t a ha ht => (hstep t a ha ht).2.1) (s := {})
    ⟨⟨⟨by simp, by simp, .nil, by simp, by simp, .nil⟩, .nil⟩, rfl⟩
  exact ⟨hlinked, hnil, hall⟩

end Exploring

end Digraph

end RuleNetwork
