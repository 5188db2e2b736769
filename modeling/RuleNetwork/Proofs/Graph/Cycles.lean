import Mathlib.Data.List.Chain
import RuleNetwork.Proofs.Graph.Exploring

/-!
The cycles that a depth-first exploration of a graph notes. They are closed walks without repetition,
no two of them through the same nodes. An edge whose ends lie on no common cycle noted leads from a node
to one that has been finished before it, so every closed walk of the graph has two neighbours on a cycle
noted, and a node of a closed walk is mutually connected with the nodes of such a cycle. It need not lie
on one itself.
-/

set_option autoImplicit false

namespace RuleNetwork

open Relation

section Walks

variable {α : Type} {step : α → α → Prop}

/-- A walk along a relation that comes back to its start and meets no node twice. -/
structure ClosedWalk (step : α → α → Prop) (walk : List α) : Prop where
  ne_nil : walk ≠ []
  nodup : walk.Nodup
  chain : (walk ++ walk.take 1).IsChain step

/-- Each node of a closed walk leads to each. -/
theorem ClosedWalk.leads {walk : List α} (h : ClosedWalk step walk) {a b : α} (ha : a ∈ walk)
    (hb : b ∈ walk) : TransGen step a b := by
  have hchain : (walk ++ walk.take 1).IsChain (TransGen step) := h.chain.imp fun _ _ => .single
  cases walk with
  | nil => cases ha
  | cons first rest =>
    obtain ⟨s, t, hst⟩ := List.append_of_mem ha
    have hback : TransGen step a first := by
      rw [hst, List.append_assoc, List.cons_append] at hchain
      exact hchain.right_of_append.rel_cons (by rw [← hst]; simp)
    obtain rfl | hb := List.mem_cons.1 hb
    · exact hback
    · exact hback.trans (hchain.rel_cons (List.mem_append_left _ hb))

/-- A closed walk through several nodes goes from each to another one. -/
theorem ClosedWalk.several {walk : List α} (h : ClosedWalk step walk) (hlen : 1 < walk.length) :
    ClosedWalk (fun a b => a ≠ b ∧ step a b) walk := by
  refine ⟨h.ne_nil, h.nodup, ?_⟩
  obtain _ | ⟨a, _ | ⟨b, l⟩⟩ := walk
  · cases hlen
  · exact absurd hlen (Nat.lt_irrefl 1)
  · have hne : (a :: b :: l ++ [a]).IsChain (· ≠ ·) := by
      refine List.IsChain.append h.nodup.isChain (List.isChain_singleton a) fun x hx y hy => ?_
      cases hy
      rw [List.getLast?_cons_cons] at hx
      exact fun heq => (List.nodup_cons.1 h.nodup).1 (heq ▸ List.mem_of_getLast? hx)
    refine List.isChain_iff_getElem.2 fun i hi => ⟨?_, ?_⟩
    · exact List.isChain_iff_getElem.1 hne i hi
    · exact List.isChain_iff_getElem.1 h.chain i hi

theorem ClosedWalk.map {β : Type} {step' : β → β → Prop} {f : α → β} {walk : List α}
    (h : ClosedWalk step walk) (hinj : ∀ a ∈ walk, ∀ b ∈ walk, f a = f b → a = b)
    (hstep : ∀ a ∈ walk, ∀ b ∈ walk, step a b → step' (f a) (f b)) : ClosedWalk step' (walk.map f) := by
  refine ⟨by simpa using h.ne_nil, (List.nodup_map_iff_inj_on h.nodup).2 hinj, ?_⟩
  rw [← List.map_take, ← List.map_append, List.isChain_map]
  refine h.chain.imp_of_mem_imp fun a b ha hb => hstep a ?_ b ?_
  · exact (List.mem_append.1 ha).elim id List.mem_of_mem_take
  · exact (List.mem_append.1 hb).elim id List.mem_of_mem_take

/-- Every step of the relation from a node of the list leads to a later one. -/
inductive Descends (step : α → α → Prop) : List α → Prop
  | nil : Descends step []
  | cons {a : α} {l : List α} : (∀ b, step a b → b ∈ l) → Descends step l → Descends step (a :: l)

namespace Descends

variable {l : List α}

theorem mono {step' : α → α → Prop} (h : Descends step l) (hle : ∀ a b, step' a b → step a b) :
    Descends step' l := by
  induction h with
  | nil => exact .nil
  | cons hmem _ ih => exact .cons (fun b hb => hmem b (hle _ b hb)) ih

theorem mem_of_step (h : Descends step l) {a b : α} (ha : a ∈ l) (hab : step a b) : b ∈ l := by
  induction h with
  | nil => cases ha
  | cons hmem _ ih =>
    obtain rfl | ha := List.mem_cons.1 ha
    · exact List.mem_cons_of_mem _ (hmem b hab)
    · exact List.mem_cons_of_mem _ (ih ha)

/-- No node of the list leads to itself. -/
theorem not_transGen (h : Descends step l) {a : α} (ha : a ∈ l) : ¬ TransGen step a a := by
  induction h with
  | nil => cases ha
  | @cons c l hmem hl ih =>
    by_cases hal : a ∈ l
    · exact ih hal
    · obtain rfl := (List.mem_cons.1 ha).resolve_right hal
      intro hloop
      obtain ⟨b, hab, hba⟩ := TransGen.head'_iff.1 hloop
      have hstay : ∀ {d}, ReflTransGen step b d → d ∈ l := fun hd => by
        induction hd with
        | refl => exact hmem b hab
        | tail _ hstep ih => exact hl.mem_of_step ih hstep
      exact hal (hstay hba)

end Descends

/-- A chain of steps has only steps of one kind, or it has a step that is not of this kind. -/
theorem transGen_and_or {p : α → α → Prop} {a b : α} (h : TransGen step a b) :
    TransGen (fun x y => step x y ∧ p x y) a b ∨
      ∃ x y, ReflTransGen step a x ∧ step x y ∧ ¬ p x y ∧ ReflTransGen step y b := by
  induction h with
  | @single b hab =>
    by_cases hp : p a b
    · exact .inl (.single ⟨hab, hp⟩)
    · exact .inr ⟨a, b, .refl, hab, hp, .refl⟩
  | @tail b c hab hbc ih =>
    obtain hall | ⟨x, y, hx, hxy, hp, hy⟩ := ih
    · by_cases hp : p b c
      · exact .inl (hall.tail ⟨hbc, hp⟩)
      · exact .inr ⟨b, c, hab.to_reflTransGen, hbc, hp, .refl⟩
    · exact .inr ⟨x, y, hx, hxy, hp, hy.tail hbc⟩

/-- The nodes lie on a common cycle. -/
def Together (found : List (List α)) (a b : α) : Prop := ∃ c ∈ found, a ∈ c ∧ b ∈ c

/-- What the cycles noted tell of a relation: they are closed walks through different sets of nodes, and
every closed walk has two neighbours that lie together on one of them. -/
structure Meets (step : α → α → Prop) (found : List (List α)) : Prop where
  closed : ∀ c ∈ found, ClosedWalk step c
  apart : found.Pairwise fun c c' => ¬ ∀ a, a ∈ c ↔ a ∈ c'
  neighbours : ∀ a, ¬ TransGen (fun x y => step x y ∧ ¬ Together found x y) a a

namespace Meets

variable {found : List (List α)} (h : Meets step found)
include h

/-- A node that leads back to itself is mutually connected with the nodes of a cycle noted. -/
theorem exists_connected {a : α} (ha : TransGen step a a) :
    ∃ c ∈ found, ∀ b ∈ c, TransGen step a b ∧ TransGen step b a := by
  obtain hall | ⟨x, y, hax, hxy, hp, hya⟩ := transGen_and_or (p := fun x y => ¬ Together found x y) ha
  · exact absurd hall (h.neighbours a)
  · obtain ⟨c, hc, hx, -⟩ := not_not.1 hp
    refine ⟨c, hc, fun b hb => ⟨.trans_right hax ?_, ?_⟩⟩
    · exact (h.closed c hc).leads hx hb
    · exact ((h.closed c hc).leads hb hx).trans (.trans_left (.single hxy) hya)

/-- Two nodes with a step each way lie together on a cycle noted; and so does one with a step to
itself. -/
theorem together_of_steps {a b : α} (hab : step a b) (hba : step b a) : Together found a b := by
  by_contra hnone
  have hnone' : ¬ Together found b a := fun ⟨c, hc, hb, ha⟩ => hnone ⟨c, hc, ha, hb⟩
  exact h.neighbours a (.tail (.single ⟨hab, hnone⟩) ⟨hba, hnone'⟩)

/-- The cycles through several nodes meet the closed walks of steps between different nodes. -/
theorem several : Meets (fun a b => a ≠ b ∧ step a b) (found.filter fun c => 1 < c.length) where
  closed c hc := by
    obtain ⟨hc, hlen⟩ := List.mem_filter.1 hc
    exact (h.closed c hc).several (by simpa using hlen)
  apart := h.apart.filter _
  neighbours a hloop := by
    refine h.neighbours a (hloop.lift id fun x y ⟨⟨hne, hxy⟩, hnone⟩ => ⟨hxy, ?_⟩)
    rintro ⟨c, hc, hx, hy⟩
    have hlen := (two_le_length_iff (h.closed c hc).nodup hx).2 ⟨y, hy, fun heq => hne heq.symm⟩
    exact hnone ⟨c, List.mem_filter.2 ⟨hc, decide_eq_true hlen⟩, hx, hy⟩

end Meets

section Names

variable {β : Type} {name : α → β} {P : α → Prop} (hP : ∀ a b, step a b → P a ∧ P b)
  (hinj : ∀ a b, P a → P b → name a = name b → a = b)
include hP hinj

/-- Chains of steps told by names are told of chains of steps, where no two nodes with steps have one
name. -/
theorem exists_transGen_of_map {x y : β} (h : TransGen (Relation.Map step name name) x y) :
    ∃ a b, P a ∧ P b ∧ name a = x ∧ name b = y ∧ TransGen step a b := by
  induction h with
  | single hstep =>
    obtain ⟨a, b, hab, rfl, rfl⟩ := hstep
    exact ⟨a, b, (hP a b hab).1, (hP a b hab).2, rfl, rfl, .single hab⟩
  | tail _ hstep ih =>
    obtain ⟨a, b, ha, hb, rfl, rfl, hab⟩ := ih
    obtain ⟨b', c, hbc, hname, rfl⟩ := hstep
    obtain rfl := hinj b' b (hP b' c hbc).1 hb hname
    exact ⟨a, c, ha, (hP _ c hbc).2, rfl, rfl, hab.tail hbc⟩

/-- A chain of steps told by names that begins with the name of a node begins at this node. -/
theorem exists_reflTransGen_of_map {a : α} {y : β} (ha : P a)
    (h : ReflTransGen (Relation.Map step name name) (name a) y) :
    ∃ b, P b ∧ name b = y ∧ ReflTransGen step a b := by
  induction h with
  | refl => exact ⟨a, ha, rfl, .refl⟩
  | tail _ hstep ih =>
    obtain ⟨b, hb, rfl, hab⟩ := ih
    obtain ⟨b', c, hbc, hname, rfl⟩ := hstep
    obtain rfl := hinj b' b (hP b' c hbc).1 hb hname
    exact ⟨c, (hP _ c hbc).2, rfl, hab.tail hbc⟩

theorem Meets.map {found : List (List α)} (h : Meets step found) :
    Meets (Relation.Map step name name) (found.map (List.map name)) := by
  have hmem : ∀ c ∈ found, ∀ a ∈ c, P a := fun c hc a ha => by
    obtain ⟨b, hab, -⟩ := TransGen.head'_iff.1 ((h.closed c hc).leads ha ha)
    exact (hP a b hab).1
  have himage : ∀ {c a}, c ∈ found → P a → (name a ∈ c.map name ↔ a ∈ c) := fun hc ha => by
    refine ⟨fun hmap => ?_, List.mem_map_of_mem⟩
    obtain ⟨b, hb, heq⟩ := List.mem_map.1 hmap
    exact hinj b _ (hmem _ hc b hb) ha heq ▸ hb
  refine ⟨fun c' hc' => ?_, ?_, fun x hloop => ?_⟩
  · obtain ⟨c, hc, rfl⟩ := List.mem_map.1 hc'
    exact (h.closed c hc).map (fun a ha b hb => hinj a b (hmem c hc a ha) (hmem c hc b hb))
      fun a _ b _ hab => ⟨a, b, hab, rfl, rfl⟩
  · refine List.pairwise_map.2 (h.apart.imp_of_mem fun {c c'} hc hc' hne heq => hne fun a => ?_)
    constructor
    · exact fun ha => (himage hc' (hmem c hc a ha)).1 ((heq _).1 (List.mem_map_of_mem ha))
    · exact fun ha => (himage hc (hmem c' hc' a ha)).1 ((heq _).2 (List.mem_map_of_mem ha))
  · -- names of nodes that lie together lie together
    have hlift : TransGen (Relation.Map (fun a b => step a b ∧ ¬ Together found a b) name name) x x := by
      refine hloop.lift id ?_
      rintro _ _ ⟨⟨a, b, hab, rfl, rfl⟩, hnone⟩
      refine ⟨a, b, ⟨hab, fun ⟨c, hc, ha, hb⟩ => hnone ⟨c.map name, List.mem_map_of_mem hc, ?_, ?_⟩⟩,
        rfl, rfl⟩
      · exact List.mem_map_of_mem ha
      · exact List.mem_map_of_mem hb
    obtain ⟨a, b, ha, hb, hxa, hxb, hab⟩ := exists_transGen_of_map (fun a b h => hP a b h.1) hinj hlift
    obtain rfl := hinj a b ha hb (hxa.trans hxb.symm)
    exact h.neighbours a hab

end Names

end Walks

namespace Digraph

section Ways

variable {α : Type} [DecidableEq α] {g : Digraph α}

theorem sameMembers_iff {a b : List α} : sameMembers a b = true ↔ ∀ x, x ∈ a ↔ x ∈ b := by
  simp only [sameMembers, Bool.and_eq_true, List.all_eq_true, decide_eq_true_iff]
  exact ⟨fun h x => ⟨h.1 x, h.2 x⟩, fun h => ⟨fun x => (h x).1, fun x => (h x).2⟩⟩

/-- Nodes on the way from a root, the latest first. -/
structure Way (g : Digraph α) (path : List α) : Prop where
  nodup : path.Nodup
  chain : path.IsChain fun a b => g.Edge b a

theorem Way.cons {path : List α} {a b : α} (h : g.Way (a :: path)) (hab : g.Edge a b)
    (hb : b ∉ a :: path) : g.Way (b :: a :: path) :=
  ⟨List.nodup_cons.2 ⟨hb, h.nodup⟩, List.isChain_cons_cons.2 ⟨hab, h.chain⟩⟩

/-- An edge back into the way closes a cycle. -/
theorem Way.closedWalk {path : List α} {a b : α} (h : g.Way (a :: path)) (hab : g.Edge a b)
    (hb : b ∈ a :: path) : ClosedWalk g.Edge (b :: ((a :: path).takeWhile (· ≠ b)).reverse) ∧
      a ∈ b :: ((a :: path).takeWhile (· ≠ b)).reverse := by
  obtain ⟨s, t, hst, hbs⟩ := List.eq_append_cons_of_mem hb
  have htake : (a :: path).takeWhile (· ≠ b) = s := by
    rw [hst, List.takeWhile_append_of_pos fun x hx => decide_eq_true (ne_of_mem_of_not_mem hx hbs)]
    simp
  have hsb : (s ++ [b]).IsChain fun x y => g.Edge y x := by
    have hchain := h.chain
    rw [hst, List.append_cons] at hchain
    exact hchain.left_of_append
  have hhead : ∀ x ∈ (s ++ [b]).head?, x = a := by
    intro x hx
    have : (a :: path).head? = some x := by rw [hst, List.append_cons, List.head?_append, hx]; rfl
    cases this
    rfl
  rw [htake]
  refine ⟨⟨List.cons_ne_nil _ _, ?_, ?_⟩, ?_⟩
  · have hnodup := h.nodup
    rw [hst] at hnodup
    exact List.nodup_cons.2 ⟨by simpa using hbs, List.nodup_reverse.2 (List.nodup_append.1 hnodup).1⟩
  · have hround : (b :: (s ++ [b])).IsChain fun x y => g.Edge y x :=
      List.isChain_cons.2 ⟨fun x hx => hhead x hx ▸ hab, hsb⟩
    have := List.isChain_reverse.2 hround
    simpa using this
  · cases s with
    | nil => exact List.mem_cons.2 (.inl (hhead b rfl).symm)
    | cons x s => simp [hhead x rfl]

end Ways

section Exploring

variable {α : Type} [DecidableEq α] [Hashable α] {g : Digraph α}

/-- An edge is accounted for while a way is open: it leads to a node finished, or back into the way, and
then its ends lie on a cycle noted, which is the node itself if the edge leads from it to itself. -/
def Accounted (e : Exploration α) (path : List α) (a b : α) : Prop :=
  b ∈ e.finished ∨ b ∈ path ∧ Together e.cycles a b ∧ (a = b → [a] ∈ e.cycles)

/-- What an exploration has found while a way is open: what it has seen is finished or on the way, and so
is what the nodes finished lead to. An edge from a node finished whose ends lie on no common cycle leads
to one finished before. -/
structure Explored (g : Digraph α) (order : List α) (e : Exploration α) (path : List α) : Prop where
  settled : e.Settled path
  closed : ∀ c ∈ e.cycles, ClosedWalk g.Edge c
  reached : ∀ c ∈ e.cycles, ∀ a ∈ c, g.Reached order a
  apart : e.cycles.Pairwise fun c c' => ¬ ∀ a, a ∈ c ↔ a ∈ c'
  onward : ∀ a ∈ e.finished, ∀ b, g.Edge a b → b ∈ e.finished ∨ b ∈ path
  loops : ∀ a ∈ e.finished, g.Edge a a → [a] ∈ e.cycles
  descends : Descends (fun a b => g.Edge a b ∧ ¬ Together e.cycles a b) e.finished

namespace Explored

variable {order : List α} {e : Exploration α} {path : List α} (h : g.Explored order e path)
include h

theorem discover (a : α) : g.Explored order (e.discover a) (a :: path) where
  settled b hb := by
    obtain hb | rfl := (OrderedSet.mem_toList_insert _ _ _).1 hb
    · exact (h.settled b hb).imp id (List.mem_cons_of_mem _)
    · exact .inr (List.mem_cons_self ..)
  closed := h.closed
  reached := h.reached
  apart := h.apart
  onward a ha b hab := (h.onward a ha b hab).imp id (List.mem_cons_of_mem _)
  loops := h.loops
  descends := h.descends

end Explored

/-- An edge back into the way is accounted for by the cycle that it closes, or by one with the same
members. -/
theorem Explored.close {order : List α} {e : Exploration α} {path : List α} {a b : α}
    (h : g.Explored order e (a :: path)) (hway : g.Way (a :: path))
    (hreached : ∀ x ∈ a :: path, g.Reached order x) (hab : g.Edge a b) (hb : b ∈ a :: path) :
    g.Explored order (e.close (a :: path) b) (a :: path) ∧
      (∀ c ∈ e.cycles, c ∈ (e.close (a :: path) b).cycles) ∧
      Accounted (e.close (a :: path) b) (a :: path) a b := by
  obtain ⟨hwalk, ha⟩ := hway.closedWalk hab hb
  have hbc := List.mem_cons_self (a := b) (l := ((a :: path).takeWhile (· ≠ b)).reverse)
  have hself : a = b → b :: ((a :: path).takeWhile (· ≠ b)).reverse = [a] := by
    rintro rfl
    simp
  have hin : ∀ x ∈ b :: ((a :: path).takeWhile (· ≠ b)).reverse, g.Reached order x := fun x hx => by
    obtain rfl | hx := List.mem_cons.1 hx
    · exact hreached _ hb
    · exact hreached x ((List.takeWhile_prefix _).subset (List.mem_reverse.1 hx))
  unfold Exploration.close
  generalize b :: ((a :: path).takeWhile (· ≠ b)).reverse = cycle at *
  simp only
  split
  · rename_i hknown
    obtain ⟨c, hc, hsame⟩ := List.any_eq_true.1 hknown
    have hsame := sameMembers_iff.1 hsame
    refine ⟨h, fun c hc => hc, .inr ⟨hb, ⟨c, hc, (hsame a).1 ha, (hsame b).1 hbc⟩, fun heq => ?_⟩⟩
    have hperm : c.Perm [a] := (List.perm_ext_iff_of_nodup (h.closed c hc).nodup
      (List.nodup_singleton a)).2 fun x => by rw [← hself heq, hsame]
    exact List.perm_singleton.1 hperm ▸ hc
  · rename_i hnew
    have hmono : ∀ c ∈ e.cycles, c ∈ cycle :: e.cycles := fun c hc => List.mem_cons_of_mem _ hc
    have hnoted := List.mem_cons_self (a := cycle) (l := e.cycles)
    refine ⟨⟨h.settled, ?_, ?_, ?_, h.onward, ?_, ?_⟩, hmono,
      .inr ⟨hb, ⟨cycle, hnoted, ha, hbc⟩, fun heq => hself heq ▸ hnoted⟩⟩
    · exact List.forall_mem_cons.2 ⟨hwalk, h.closed⟩
    · exact List.forall_mem_cons.2 ⟨hin, h.reached⟩
    · refine List.pairwise_cons.2 ⟨fun c hc hsame => hnew ?_, h.apart⟩
      exact List.any_eq_true.2 ⟨c, hc, sameMembers_iff.2 hsame⟩
    · exact fun x hx hxx => hmono _ (h.loops x hx hxx)
    · exact h.descends.mono fun x y hxy =>
        ⟨hxy.1, fun hc => hxy.2 (hc.imp fun c hc => ⟨hmono c hc.1, hc.2⟩)⟩

/-- A node is finished once all its edges are accounted for. -/
theorem Explored.finish {order : List α} {e : Exploration α} {path : List α} {a : α}
    (h : g.Explored order e (a :: path)) (hall : ∀ b, g.Edge a b → Accounted e (a :: path) a b) :
    g.Explored order (e.finish a) path where
  settled b hb := by
    obtain hb | hb := h.settled b hb
    · exact .inl (List.mem_cons_of_mem _ hb)
    · exact (List.mem_cons.1 hb).imp (fun heq => List.mem_cons.2 (.inl heq)) id
  closed := h.closed
  reached := h.reached
  apart := h.apart
  onward x hx b hxb := by
    have hout : b ∈ e.finished ∨ b ∈ a :: path := by
      obtain rfl | hx := List.mem_cons.1 hx
      · exact (hall b hxb).imp id And.left
      · exact h.onward x hx b hxb
    obtain hb | hb := hout
    · exact .inl (List.mem_cons_of_mem _ hb)
    · exact (List.mem_cons.1 hb).imp (fun heq => List.mem_cons.2 (.inl heq)) id
  loops x hx hxx := by
    obtain rfl | hx := List.mem_cons.1 hx
    · obtain hx | ⟨-, -, hloop⟩ := hall x hxx
      · exact h.loops x hx hxx
      · exact hloop rfl
    · exact h.loops x hx hxx
  descends := .cons (fun b ⟨hab, hnone⟩ => (hall b hab).resolve_right fun h => hnone h.2.1) h.descends

/-- What an exploration has found stays found. -/
structure Keeps (e e' : Exploration α) : Prop where
  finished : ∀ a ∈ e.finished, a ∈ e'.finished
  cycles : ∀ c ∈ e.cycles, c ∈ e'.cycles

theorem Keeps.refl (e : Exploration α) : Keeps e e := ⟨fun _ ha => ha, fun _ hc => hc⟩

theorem Keeps.trans {e e' e'' : Exploration α} (h : Keeps e e') (h' : Keeps e' e'') : Keeps e e'' :=
  ⟨fun a ha => h'.finished a (h.finished a ha), fun c hc => h'.cycles c (h.cycles c hc)⟩

theorem Keeps.accounted {e e' : Exploration α} (h : Keeps e e') {path : List α} {a b : α}
    (hb : Accounted e path a b) : Accounted e' path a b :=
  hb.imp (h.finished b) fun ⟨hpath, ⟨c, hc, hmem⟩, hloop⟩ =>
    ⟨hpath, ⟨c, h.cycles c hc, hmem⟩, fun heq => h.cycles _ (hloop heq)⟩

theorem explored_visit {order univ : List α} (huniv : ∀ {a}, g.Reached order a → a ∈ univ) (bound : Nat)
    {path : List α} {a : α} {e : Exploration α} (h : g.Explored order e path) (hway : g.Way (a :: path))
    (hreached : ∀ b ∈ a :: path, g.Reached order b) (hbound : univ.length ≤ bound + path.length) :
    g.Explored order (g.visit bound path a e) path ∧ Keeps e (g.visit bound path a e) ∧
      a ∈ (g.visit bound path a e).finished := by
  induction bound generalizing path a e with
  | zero =>
    have hlen := (hway.nodup.subperm fun b hb => huniv (hreached b hb)).length_le
    rw [List.length_cons] at hlen
    omega
  | succ bound ih =>
    -- each edge leads back into the way, to a node finished or to one that is visited next
    have hstep : ∀ e', g.Explored order e' (a :: path) → ∀ b ∈ g.successors a,
        let next := if b ∈ a :: path then e'.close (a :: path) b
          else if e'.seen.contains b then e' else g.visit bound (a :: path) b e'
        g.Explored order next (a :: path) ∧ Keeps e' next ∧ Accounted next (a :: path) a b := by
      intro e' he' b hb
      simp only
      split
      · rename_i hpath
        obtain ⟨hexp, hcycles, haccounted⟩ := he'.close hway hreached hb hpath
        exact ⟨hexp, ⟨fun c hc => by rwa [Exploration.finished_close], hcycles⟩, haccounted⟩
      · rename_i hpath
        split
        · rename_i hseen
          have hfinished := (he'.settled b ((OrderedSet.contains_iff _ _).1 hseen)).resolve_right hpath
          exact ⟨he', .refl e', .inl hfinished⟩
        · have hbr := (hreached a (List.mem_cons_self ..)).edge hb
          obtain ⟨hexp, hkeeps, hfinished⟩ := ih he' (hway.cons hb hpath)
            (List.forall_mem_cons.2 ⟨hbr, hreached⟩) (by rw [List.length_cons]; omega)
          exact ⟨hexp, hkeeps, .inl hfinished⟩
    obtain ⟨⟨hexp, hkeeps⟩, -, hall⟩ := foldl_collect (l := g.successors a)
      (P := fun e' => g.Explored order e' (a :: path) ∧ Keeps e e')
      (Q := fun b e' => Accounted e' (a :: path) a b)
      (fun e' b hb ⟨he', hkeeps⟩ => by
        obtain ⟨hexp, hmore, -⟩ := hstep e' he' b hb
        exact ⟨⟨hexp, hkeeps.trans hmore⟩, fun c => hmore.accounted⟩)
      (fun e' b hb ⟨he', _⟩ => (hstep e' he' b hb).2.2)
      (s := e.discover a) ⟨h.discover a, ⟨fun _ hb => hb, fun _ hc => hc⟩⟩
    refine ⟨hexp.finish hall, ⟨fun b hb => ?_, hkeeps.cycles⟩, List.mem_cons_self ..⟩
    exact List.mem_cons_of_mem _ (hkeeps.finished b hb)

theorem explored_explore (order : List α) : g.Explored order (g.explore order) [] := by
  have hlen : (order ++ g.nodes).length ≤ g.bound + order.length + ([] : List α).length := by
    rw [List.length_append, length_nodes, List.length_nil]
    omega
  unfold explore
  refine (foldl_collect (l := order) (P := fun e => g.Explored order e []) (Q := fun _ _ => True)
    (fun e a ha he => ⟨?_, fun _ hc => hc⟩) (fun _ _ _ _ => trivial) ?_).1
  · split
    · exact he
    · refine (explored_visit (fun ha => List.mem_append.2 ha.listed) _ he
        ⟨List.nodup_singleton a, List.isChain_singleton a⟩ (fun b hb => ?_) hlen).1
      exact List.mem_singleton.1 hb ▸ .root ha
  · exact ⟨fun a ha => absurd ha List.not_mem_nil, fun c hc => absurd hc List.not_mem_nil,
      fun c hc => absurd hc List.not_mem_nil, .nil, fun a ha => absurd ha List.not_mem_nil,
      fun a ha => absurd ha List.not_mem_nil, .nil⟩

/-- All that the nodes asked for lead to is finished. -/
theorem Reached.finished {order : List α} {a : α} (ha : g.Reached order a) :
    a ∈ (g.explore order).finished := by
  obtain ⟨r, hr, hra⟩ := ha
  induction hra with
  | refl => exact mem_finished_explore hr
  | tail _ hstep ih =>
    exact ((explored_explore order).onward _ ih _ hstep).resolve_right List.not_mem_nil

end Exploring

section Cycles

variable {α : Type} [DecidableEq α] [Hashable α] {g : Digraph α}

/-- The cycles listed meet every closed walk that the nodes asked for lead to. -/
theorem meets_reached (order : List α) :
    Meets (fun a b => g.Reached order a ∧ g.Edge a b) (g.cycles order) := by
  have h := explored_explore (g := g) order
  have hmem : ∀ {c}, c ∈ g.cycles order ↔ c ∈ (g.explore order).cycles := List.mem_reverse
  refine ⟨fun c hc => ?_, ?_, fun a hloop => ?_⟩
  · have hwalk : ClosedWalk (fun a b => g.Reached order a ∧ g.Edge a b) (c.map id) :=
      (h.closed c (hmem.1 hc)).map (fun _ _ _ _ heq => heq) fun a ha _ _ hab =>
        ⟨h.reached c (hmem.1 hc) a ha, hab⟩
    rwa [List.map_id] at hwalk
  · exact List.pairwise_reverse.2 (h.apart.imp fun hne heq => hne fun a => (heq a).symm)
  · obtain ⟨b, ⟨⟨ha, -⟩, -⟩, -⟩ := TransGen.head'_iff.1 hloop
    refine h.descends.not_transGen ha.finished (hloop.lift id ?_)
    exact fun x y ⟨⟨_, hxy⟩, hnone⟩ => ⟨hxy, fun ⟨c, hc, hx⟩ => hnone ⟨c, hmem.2 hc, hx⟩⟩

/-- The cycles listed meet every closed walk, if all nodes with successors are asked for. -/
theorem meets_cycles {order : List α} (horder : ∀ {a b}, g.Edge a b → a ∈ order) :
    Meets g.Edge (g.cycles order) := by
  have hall : (fun a b => g.Reached order a ∧ g.Edge a b) = g.Edge := by
    funext a b
    exact propext (and_iff_right_iff_imp.2 fun hab => .root (horder hab))
  exact hall ▸ meets_reached order

/-- An edge from a node to itself is listed as a cycle. -/
theorem singleton_mem_cycles {order : List α} {a : α} (ha : g.Reached order a) (hloop : g.Edge a a) :
    [a] ∈ g.cycles order :=
  List.mem_reverse.2 ((explored_explore order).loops a ha.finished hloop)

end Cycles

open Exploration in
/-- A node need not lie on a cycle listed, although it leads back to itself: it may be found when its
successor is finished. -/
theorem cycles_triangle :
    (ofRows [(0, [1, 2]), (1, [0]), (2, [1])] : Digraph Int).cycles [0, 1, 2] = [[0, 1]] := by
  have hinsert : ∀ (s : OrderedSet Int) a b,
      (s.insert a).contains b = decide (b ∈ s.toList ∨ b = a) := fun s a b => by
    rw [Bool.eq_iff_iff, OrderedSet.contains_iff, OrderedSet.mem_toList_insert, decide_eq_true_iff]
  have hempty : ∀ a, (∅ : OrderedSet Int).contains a = false := fun a => by
    rw [← Bool.not_eq_true, OrderedSet.contains_iff]
    exact List.not_mem_nil
  generalize hg : (ofRows [(0, [1, 2]), (1, [0]), (2, [1])] : Digraph Int) = g
  have hbound : g.bound = 7 := by
    rw [← hg]
    rfl
  have hrows : g.successors 0 = [1, 2] ∧ g.successors 1 = [0] ∧ g.successors 2 = [1] := by
    rw [← hg]
    exact ⟨rfl, rfl, rfl⟩
  simp [cycles, explore, visit, hrows, hbound, hinsert, hempty, discover, finish, close]

end Digraph

end RuleNetwork
