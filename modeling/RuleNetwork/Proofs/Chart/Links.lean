import Mathlib.Data.List.Nodup
import RuleNetwork.Chart.Index
import RuleNetwork.Proofs.Layout.Arena

/-!
The edges of a proper network read backwards. Every edge is listed once, under the state that it
leads to or that its call resumes at, in the order of the states and their transitions.
-/

set_option autoImplicit false

namespace RuleNetwork

/-- A transition together with its number and the state that it leaves. -/
structure Arc where
  source : Int
  id : Int
  transition : Transition

namespace Network

variable (n : Network)

def arcsOf (st : State) : List Arc :=
  if st.kind = .ruleStop then []
  else st.transitions.filterMap fun id => (n.transition id).toOption.map fun t => ⟨st.id, id, t⟩

def arcs : List Arc := n.states.toList.flatMap n.arcsOf

variable {n} {rules : Nat}

theorem state_getElem {i : Nat} (hi : i < n.states.toList.length) :
    n.state i = .ok n.states.toList[i] := by
  have hi' : i < n.states.size := by simpa using hi
  exact state_eq_ok_iff.2 ⟨by omega, Array.getElem?_eq_getElem hi'⟩

theorem mem_arcsOf {st : State} {a : Arc} : a ∈ n.arcsOf st ↔
    st.kind ≠ .ruleStop ∧ a.source = st.id ∧ a.id ∈ st.transitions ∧
      n.transition a.id = .ok a.transition := by
  unfold arcsOf
  split
  · simp_all
  · rename_i hk
    simp only [List.mem_filterMap, Option.map_eq_some_iff]
    constructor
    · rintro ⟨id, hid, t, ht, rfl⟩
      refine ⟨hk, rfl, hid, ?_⟩
      cases hn : n.transition id with
      | error f => rw [hn] at ht; cases ht
      | ok u => rw [hn] at ht; cases ht; rfl
    · rintro ⟨-, hs, hid, ht⟩
      exact ⟨a.id, hid, a.transition, by rw [ht]; rfl, by rw [← hs]⟩

theorem Proper.mem_arcs (hp : n.Proper rules) {a : Arc} :
    a ∈ n.arcs ↔ n.Leaves a.source a.id a.transition := by
  unfold arcs
  simp only [List.mem_flatMap, mem_arcsOf]
  constructor
  · rintro ⟨st, hst, hk, hs, hid, ht⟩
    obtain ⟨i, hi, rfl⟩ := List.getElem_of_mem hst
    have hok := state_getElem hi
    rw [hs, (hp.state hok).id]
    exact ⟨_, hok, hk, hid, ht⟩
  · rintro ⟨st, hst, hk, hid, ht⟩
    refine ⟨st, ?_, hk, (hp.state hst).id.symm, hid, ht⟩
    exact Array.mem_toList_iff.2 (Array.mem_of_getElem? (state_eq_ok_iff.1 hst).2)

theorem Proper.nodup_arcs (hp : n.Proper rules) : n.arcs.Nodup := by
  refine List.nodup_flatMap.2 ⟨fun st hst => ?_, ?_⟩
  · obtain ⟨i, hi, rfl⟩ := List.getElem_of_mem hst
    unfold arcsOf
    split
    · exact List.nodup_nil
    · refine (hp.state (state_getElem hi)).nodup.filterMap fun id id' a h h' => ?_
      obtain ⟨t, -, rfl⟩ := Option.map_eq_some_iff.1 h
      obtain ⟨t', -, ha⟩ := Option.map_eq_some_iff.1 h'
      exact (congrArg Arc.id ha).symm
  · refine List.pairwise_iff_getElem.2 fun i j hi hj hij => ?_
    refine List.disjoint_left.2 fun a hai haj => ?_
    have h₁ := (mem_arcsOf.1 hai).2.1
    have h₂ := (mem_arcsOf.1 haj).2.1
    rw [(hp.state (state_getElem hi)).id] at h₁
    rw [(hp.state (state_getElem hj)).id] at h₂
    omega

theorem mapM_transition_eq {ids : List Int} (h : ∀ id ∈ ids, ∃ t, n.transition id = .ok t) :
    ids.mapM n.transition = .ok (ids.filterMap fun id => (n.transition id).toOption) := by
  induction ids with
  | nil => rfl
  | cons id ids ih =>
    obtain ⟨t, ht⟩ := h id (List.mem_cons_self ..)
    rw [List.mapM_cons, ht, ih fun i hi => h i (List.mem_cons_of_mem _ hi)]
    simp [ht, Except.toOption, bind, Except.bind, pure, Except.pure]

/-- The ways out of a state, in the order of its arcs. -/
theorem Proper.outgoing_eq (hp : n.Proper rules) {s : Int} {st : State} (hs : n.state s = .ok st)
    (hk : st.kind ≠ .ruleStop) : n.outgoing s = .ok ((n.arcsOf st).map Arc.transition) := by
  have hall : ∀ id ∈ st.transitions, ∃ t, n.transition id = .ok t := fun id hid => by
    obtain ⟨t, ht, -⟩ := (hp.state hs).fits id hid
    exact ⟨t, ht⟩
  have harcs : (n.arcsOf st).map Arc.transition =
      st.transitions.filterMap fun id => (n.transition id).toOption := by
    unfold arcsOf
    rw [if_neg hk, List.map_filterMap]
    congr 1
    funext id
    cases (n.transition id).toOption <;> rfl
  unfold outgoing
  rw [hs, harcs]
  exact mapM_transition_eq hall

/-- What goes out of a state is what leaves it. -/
theorem Proper.outgoing_ok (hp : n.Proper rules) {s : Int} {st : State} (hs : n.state s = .ok st) :
    ∃ l, n.outgoing s = .ok l ∧ ∀ t, t ∈ l ↔ ∃ id, n.Leaves s id t := by
  by_cases hk : st.kind = .ruleStop
  · refine ⟨[], ?_, fun t => ?_⟩
    · unfold outgoing
      rw [hs]
      simp only [bind, Except.bind, ((hp.state hs).stop hk).2]
      rfl
    · simp only [List.not_mem_nil, false_iff, not_exists]
      rintro id ⟨st', hs', hk', -⟩
      rw [hs] at hs'
      cases hs'
      exact hk' hk
  · refine ⟨_, hp.outgoing_eq hs hk, fun t => ?_⟩
    rw [List.mem_map]
    constructor
    · rintro ⟨a, ha, rfl⟩
      obtain ⟨-, -, hid, ht⟩ := mem_arcsOf.1 ha
      exact ⟨a.id, st, hs, hk, hid, ht⟩
    · rintro ⟨id, st', hs', -, hid, ht⟩
      rw [hs] at hs'
      cases hs'
      exact ⟨⟨st.id, id, t⟩, mem_arcsOf.2 ⟨hk, rfl, hid, ht⟩, rfl⟩

end Network

open Network

namespace Arc

/-- The source of an arc without input that leads to the state. -/
def free? (s : Int) (a : Arc) : Option Int :=
  if a.transition.isFree = true ∧ a.transition.target = s then some a.source else none

def scan? (s : Int) (a : Arc) : Option (Int × List String) :=
  if a.transition.kind = .terminal ∧ a.transition.target = s then
    some (a.source, a.transition.tokens)
  else none

/-- The source and the callee of a call that resumes at the state. -/
def resume? (s : Int) (a : Arc) : Option (Int × Int) :=
  a.transition.call?.bind fun c => if c.2 = s then some (a.source, c.1) else none

end Arc

namespace Backlinks

variable {n : Network} {rules : Nat}

/-- The rows list what a function picks out of some arcs for every state. -/
def Rows {α : Type} (pick : Int → Arc → Option α) (size : Nat) (l : List Arc)
    (rows : Array (List α)) : Prop :=
  rows.size = size ∧ ∀ s < size, rows[s]? = some (l.filterMap (pick s))

section Rows

variable {α : Type} {pick : Int → Arc → Option α} {size : Nat} {l : List Arc}
  {rows : Array (List α)}

theorem rows_nil : Rows pick size [] (Array.replicate size []) :=
  ⟨Array.size_replicate, fun s hs => by simp [hs]⟩

theorem Rows.skip (h : Rows pick size l rows) {a : Arc} (ha : ∀ s, pick s a = none) :
    Rows pick size (l ++ [a]) rows :=
  ⟨h.1, fun s hs => by simp [h.2 s hs, ha]⟩

theorem Rows.record (h : Rows pick size l rows) {a : Arc} {target : Int} {x : α} (h0 : 0 ≤ target)
    (hlt : target < size) (ha : ∀ s, pick s a = if target = s then some x else none) :
    ∃ rows', Backlinks.record rows target x = .ok rows' ∧ Rows pick size (l ++ [a]) rows' := by
  obtain ⟨i, rfl⟩ := Int.eq_ofNat_of_zero_le h0
  have hi : i < rows.size := by rw [h.1]; omega
  refine ⟨rows.modify i (· ++ [x]), ?_, by simp [h.1], fun s hs => ?_⟩
  · unfold Backlinks.record
    rw [Position.resolve_of_lt hi]
  · have hs' : s < rows.size := by rw [h.1]; exact hs
    have hold : rows[s] = l.filterMap (pick s) := by
      have := h.2 s hs
      rw [Array.getElem?_eq_getElem hs'] at this
      exact Option.some.inj this
    rw [Array.getElem?_eq_getElem (by simpa using hs'), Array.getElem_modify, hold,
      List.filterMap_append]
    by_cases his : i = s
    · simp [ha, his]
    · have : ¬ (i : Int) = s := by omega
      simp [ha, his, this]

theorem Rows.row (h : Rows pick size l rows) {s : Int} (h0 : 0 ≤ s) (hlt : s < size) :
    Backlinks.row rows s = .ok (l.filterMap (pick s)) := by
  obtain ⟨i, rfl⟩ := Int.eq_ofNat_of_zero_le h0
  have hi : i < rows.size := by rw [h.1]; omega
  unfold Backlinks.row Position.get?
  rw [Position.resolve_of_lt hi, Option.bind_some, h.2 i (by omega)]

end Rows

/-- Every one of some arcs is listed, and nothing else. -/
structure Lists (b : Backlinks) (size : Nat) (l : List Arc) : Prop where
  free : Rows Arc.free? size l b.free
  scan : Rows Arc.scan? size l b.scan
  call : Rows Arc.resume? size l b.call

theorem lists_add {b : Backlinks} {l : List Arc} (h : b.Lists n.states.size l) {a : Arc}
    {r : Int} (hf : a.transition.Fits n rules r) :
    ∃ b', add a.source b a.transition = .ok b' ∧ b'.Lists n.states.size (l ++ [a]) := by
  obtain ⟨s, id, t⟩ := a
  unfold add
  simp only
  have hbound : ∀ {s}, n.Inside r s → 0 ≤ s ∧ s < n.states.size := fun h => by
    obtain ⟨st, hs, -⟩ := h
    exact lt_of_state hs
  have hcall : t.kind ≠ .ruleCall → t.call? = none := fun hk => by
    cases hc : t.call? with
    | none => rfl
    | some c => exact absurd (Transition.kind_of_call? hc) hk
  have hfree : (t.kind = .epsilon ∨ t.kind = .predicate) → n.Inside r t.target → ∃ b',
      (do return { b with free := ← record b.free t.target s } : Except Fault Backlinks) = .ok b' ∧
        b'.Lists n.states.size (l ++ [⟨s, id, t⟩]) := by
    intro hk hi
    have hfree : t.isFree = true := by
      unfold Transition.isFree
      obtain hk | hk := hk <;> rw [hk]
    have hterm : t.kind ≠ .terminal := by obtain hk | hk := hk <;> simp [hk]
    have hnot : t.kind ≠ .ruleCall := by obtain hk | hk := hk <;> simp [hk]
    obtain ⟨rows, hr, hrows⟩ := h.free.record (a := ⟨s, id, t⟩) (x := s) (hbound hi).1 (hbound hi).2
      fun s' => by simp [Arc.free?, hfree]
    refine ⟨{ b with free := rows }, by rw [hr]; rfl, hrows, h.scan.skip ?_, h.call.skip ?_⟩
    · intro s'; simp [Arc.scan?, hterm]
    · intro s'; simp [Arc.resume?, hcall hnot]
  obtain ⟨hk, hi⟩ | ⟨callee, follow, -, hc, -, hi⟩ := hf
  · cases hkind : t.kind with
    | ruleCall => exact absurd hkind hk
    | epsilon => exact hfree (.inl hkind) hi
    | predicate => exact hfree (.inr hkind) hi
    | terminal =>
      obtain ⟨rows, hr, hrows⟩ := h.scan.record (a := ⟨s, id, t⟩) (x := (s, t.tokens)) (hbound hi).1
        (hbound hi).2 fun s' => by simp [Arc.scan?, hkind]
      refine ⟨{ b with scan := rows }, by simp only [hr]; rfl, h.free.skip ?_, hrows, h.call.skip ?_⟩
      · intro s'; simp [Arc.free?, Transition.isFree, hkind]
      · intro s'; simp [Arc.resume?, hcall hk]
  · replace hc : t.call? = some (Int.ofNat callee, follow) := hc
    have hkind := Transition.kind_of_call? hc
    simp only [hkind, hc]
    obtain ⟨rows, hr, hrows⟩ := h.call.record (a := ⟨s, id, t⟩) (x := (s, Int.ofNat callee))
      (hbound hi).1 (hbound hi).2 fun s' => by simp [Arc.resume?, hc]
    refine ⟨{ b with call := rows }, by simp only [hr]; rfl, h.free.skip ?_, h.scan.skip ?_, hrows⟩
    · intro s'; simp [Arc.free?, Transition.isFree, hkind]
    · intro s'; simp [Arc.scan?, hkind]

theorem lists_addAll {b : Backlinks} {l arcs : List Arc} {source r : Int}
    (h : b.Lists n.states.size l) (hs : ∀ a ∈ arcs, a.source = source)
    (hf : ∀ a ∈ arcs, a.transition.Fits n rules r) :
    ∃ b', (arcs.map Arc.transition).foldlM (add source) b = .ok b' ∧
      b'.Lists n.states.size (l ++ arcs) := by
  induction arcs generalizing b l with
  | nil => exact ⟨b, rfl, by rwa [List.append_nil]⟩
  | cons a arcs ih =>
    obtain ⟨b₁, h₁, hl₁⟩ := lists_add h (hf a (List.mem_cons_self ..))
    rw [hs a (List.mem_cons_self ..)] at h₁
    obtain ⟨b₂, h₂, hl₂⟩ := ih hl₁ (fun a ha => hs a (List.mem_cons_of_mem _ ha))
      fun a ha => hf a (List.mem_cons_of_mem _ ha)
    refine ⟨b₂, ?_, by rwa [List.append_assoc] at hl₂⟩
    rw [List.map_cons, List.foldlM_cons, h₁]
    exact h₂

theorem lists_addState (hp : n.Proper rules) {b : Backlinks} {l : List Arc}
    (h : b.Lists n.states.size l) {s : Int} {st : State} (hs : n.state s = .ok st) :
    ∃ b', addState n b st = .ok b' ∧ b'.Lists n.states.size (l ++ n.arcsOf st) := by
  unfold addState
  by_cases hk : st.kind = .ruleStop
  · refine ⟨b, by simp [hk, pure, Except.pure], ?_⟩
    rwa [arcsOf, if_pos hk, List.append_nil]
  · have hid := (hp.state hs).id
    obtain ⟨b', hb, hl⟩ := lists_addAll (r := st.rule) h (fun a ha => (mem_arcsOf.1 ha).2.1)
      fun a ha => by
        obtain ⟨-, -, hid, ht⟩ := mem_arcsOf.1 ha
        obtain ⟨t, ht', hf⟩ := (hp.state hs).fits a.id hid
        rw [ht] at ht'
        cases ht'
        exact hf
    refine ⟨b', ?_, hl⟩
    rw [hid, hp.outgoing_eq hs hk]
    rw [hid] at hb
    simpa [hk, bind, Except.bind] using hb

theorem lists_ofNetwork (hp : n.Proper rules) :
    ∃ b, ofNetwork n = .ok b ∧ b.Lists n.states.size n.arcs := by
  have key : ∀ (l : List State) (b : Backlinks) (done : List Arc), (∀ st ∈ l, ∃ s, n.state s = .ok st) →
      b.Lists n.states.size done →
      ∃ b', l.foldlM (addState n) b = .ok b' ∧
        b'.Lists n.states.size (done ++ l.flatMap n.arcsOf) := by
    intro l
    induction l with
    | nil => exact fun b done _ h => ⟨b, rfl, by simpa using h⟩
    | cons st l ih =>
      intro b done hl h
      obtain ⟨s, hs⟩ := hl st (List.mem_cons_self ..)
      obtain ⟨b₁, h₁, hl₁⟩ := lists_addState hp h hs
      obtain ⟨b₂, h₂, hl₂⟩ := ih b₁ _ (fun st hst => hl st (List.mem_cons_of_mem _ hst)) hl₁
      refine ⟨b₂, ?_, by simpa using hl₂⟩
      rw [List.foldlM_cons, h₁]
      exact h₂
  refine key n.states.toList _ [] (fun st hst => ?_) ⟨rows_nil, rows_nil, rows_nil⟩
  obtain ⟨i, hi, rfl⟩ := List.getElem_of_mem hst
  exact ⟨i, state_getElem hi⟩

end Backlinks

/-- An index of a proper grammar, which lists its edges backwards. -/
structure ChartIndex.Proper (ix : ChartIndex) : Prop where
  grammar : ix.grammar.Proper
  links : ix.links.Lists ix.grammar.network.states.size ix.grammar.network.arcs

theorem ChartIndex.ofGrammar_ok {g : Grammar} (hg : g.Proper) :
    ∃ ix, ofGrammar g = .ok ix ∧ ix.grammar = g ∧ ix.Proper := by
  obtain ⟨b, hb, hl⟩ := Backlinks.lists_ofNetwork hg.network
  exact ⟨⟨g, b⟩, by rw [ofGrammar, hb]; rfl, rfl, hg, hl⟩

namespace ChartIndex

variable {ix : ChartIndex}

theorem rule_ok {i : Nat} (hi : i < ix.grammar.rules.size) :
    ix.rule i = .ok ix.grammar.rules[i] := by
  unfold rule Position.get?
  rw [Position.resolve_of_lt hi, Option.bind_some, Array.getElem?_eq_getElem hi]

theorem startOf_ok (hg : ix.grammar.Proper) {i : Nat} (hi : i < ix.grammar.rules.size) :
    ix.startOf i = .ok (startState i) := by
  unfold startOf
  rw [rule_ok hi, ← (hg.rule (Array.getElem?_eq_getElem hi)).2.1]
  rfl

theorem stopOf_ok (hg : ix.grammar.Proper) {i : Nat} (hi : i < ix.grammar.rules.size) :
    ix.stopOf i = .ok (stopState i) := by
  unfold stopOf
  rw [rule_ok hi, ← (hg.rule (Array.getElem?_eq_getElem hi)).2.2]
  rfl

end ChartIndex

end RuleNetwork
