import RuleNetwork.Proofs.Attempt
import RuleNetwork.Proofs.Chart.Links
import RuleNetwork.Proofs.Run.Reach

/-!
The choices of a network: the alternatives of a state by their numbers, and the decisions, of which
every state with a choice has one.
-/

set_option autoImplicit false

namespace RuleNetwork

/-- The alternative of that number, counted from 1, is the transition. -/
def Network.Offers (n : Network) (s : Int) (a : Nat) (id : Int) : Prop :=
  ∃ st, n.state s = .ok st ∧ ∃ k, st.transitions[k]? = some id ∧ a = k + 1

namespace Network

variable {n : Network} {rules : Nat} {s id id' : Int} {a a' : Nat}

theorem Offers.id_unique (h : n.Offers s a id) (h' : n.Offers s a id') : id = id' := by
  obtain ⟨st, hs, k, hk, rfl⟩ := h
  obtain ⟨st', hs', k', hk', heq⟩ := h'
  rw [hs] at hs'
  cases hs'
  obtain rfl := Nat.succ.inj heq
  rw [hk] at hk'
  exact Option.some.inj hk'

theorem Leaves.offers {t : Transition} (h : n.Leaves s id t) : ∃ a, n.Offers s a id := by
  obtain ⟨st, hs, -, hid, -⟩ := h
  obtain ⟨k, hk⟩ := List.getElem?_of_mem hid
  exact ⟨k + 1, st, hs, k, hk, rfl⟩

/-- A state that offers something does not end its rule. -/
theorem Proper.leaves_of_offers (hp : n.Proper rules) (h : n.Offers s a id) :
    ∃ t, n.Leaves s id t := by
  obtain ⟨st, hs, k, hk, -⟩ := h
  have hid := List.mem_of_getElem? hk
  obtain ⟨t, ht, -⟩ := (hp.state hs).fits id hid
  refine ⟨t, st, hs, fun hkind => ?_, hid, ht⟩
  rw [((hp.state hs).stop hkind).2] at hid
  cases hid

/-- The ways out of a state are listed by number. -/
theorem Proper.outgoing_offers (hp : n.Proper rules) {st : State} (hs : n.state s = .ok st) :
    ∃ out, n.outgoing s = .ok out ∧ out.length = st.transitions.length ∧
      ∀ (k : Nat) (t : Transition), out[k]? = some t ↔ ∃ id, n.Offers s (k + 1) id ∧ n.Leaves s id t := by
  obtain ⟨out, hout⟩ := exists_mapM (l := st.transitions) (f := n.transition) fun id hid => by
    obtain ⟨t, ht, -⟩ := (hp.state hs).fits id hid
    exact ⟨t, ht⟩
  have hall := mapM_eq_ok.1 hout
  have hlen := hall.length_eq
  refine ⟨out, bind_eq_ok.2 ⟨st, hs, hout⟩, hlen.symm, fun k t => ?_⟩
  constructor
  · intro hk
    obtain ⟨hlt, rfl⟩ := List.getElem?_eq_some_iff.1 hk
    have ht := hall.get (by omega) hlt
    have hof : n.Offers s (k + 1) st.transitions[k] :=
      ⟨st, hs, k, List.getElem?_eq_getElem (by omega), rfl⟩
    obtain ⟨t', st', hs', hkind, hid, -⟩ := hp.leaves_of_offers hof
    exact ⟨_, hof, st', hs', hkind, hid, ht⟩
  · rintro ⟨id, ⟨st', hs', k', hk', heq⟩, -, -, -, -, ht⟩
    rw [hs] at hs'
    cases hs'
    obtain rfl := Nat.succ.inj heq
    obtain ⟨hlt, rfl⟩ := List.getElem?_eq_some_iff.1 hk'
    have ht' := hall.get hlt (by omega)
    simp only [List.get_eq_getElem] at ht'
    rw [ht] at ht'
    rw [List.getElem?_eq_getElem (by omega), Except.ok.inj ht']

theorem Proper.mem_decisions (hp : n.Proper rules) {d : Decision} (hd : d ∈ n.decisions) :
    ∃ st, n.state d.state = .ok st ∧ isDecision st = true ∧ d.rule = st.rule ∧
      d.alternatives = st.transitions.length := by
  obtain ⟨k, hk, rfl⟩ := List.mem_mapIdx.1 hd
  obtain ⟨hst, hdec⟩ := List.mem_filter.1 (List.getElem_mem hk)
  obtain ⟨j, hj, hget⟩ := List.getElem_of_mem hst
  have hok := state_getElem hj
  rw [hget] at hok
  refine ⟨_, ?_, hdec, rfl, rfl⟩
  rw [(hp.state hok).id]
  exact hok

theorem Proper.kind_of_decision (hp : n.Proper rules) {d : Decision} (hd : d ∈ n.decisions) :
    ∃ st, n.state d.state = .ok st ∧ st.kind = .decision ∧ st.rule = d.rule := by
  obtain ⟨st, hst, hdec, hrule, -⟩ := hp.mem_decisions hd
  exact ⟨st, hst, beq_iff_eq.1 (Bool.and_eq_true_iff.1 hdec).1, hrule.symm⟩

theorem Proper.exists_decision (hp : n.Proper rules) {st : State} (hs : n.state s = .ok st)
    (hd : isDecision st = true) : ∃ d ∈ n.decisions, d.state = s := by
  have hmem : st ∈ n.states.toList :=
    Array.mem_toList_iff.2 (Array.mem_of_getElem? (state_eq_ok_iff.1 hs).2)
  obtain ⟨k, hk, hget⟩ := List.getElem_of_mem (List.mem_filter.2 ⟨hmem, hd⟩)
  refine ⟨_, List.mem_mapIdx.2 ⟨k, hk, rfl⟩, ?_⟩
  rw [hget]
  exact (hp.state hs).id

/-- Where the states bear the numbers of their places, a state has one decision at most. -/
theorem decision_unique (hids : ∀ {s st}, n.state s = .ok st → st.id = s) {d d' : Decision}
    (hd : d ∈ n.decisions) (hd' : d' ∈ n.decisions) (hs : d.state = d'.state) : d = d' := by
  obtain ⟨k, hk, rfl⟩ := List.mem_mapIdx.1 hd
  obtain ⟨k', hk', rfl⟩ := List.mem_mapIdx.1 hd'
  have hids : (n.states.toList.filter isDecision).Pairwise fun a b => a.id ≠ b.id := by
    refine List.Pairwise.filter _ (List.pairwise_iff_getElem.2 fun i j hi hj hij heq => ?_)
    rw [hids (state_getElem hi), hids (state_getElem hj)] at heq
    omega
  have hpair := List.pairwise_iff_getElem.1 hids
  obtain hlt | rfl | hlt := Nat.lt_trichotomy k k'
  · exact absurd hs (hpair k k' hk hk' hlt)
  · rfl
  · exact absurd hs.symm (hpair k' k hk' hk hlt)

theorem Proper.decision_unique (hp : n.Proper rules) {d d' : Decision} (hd : d ∈ n.decisions)
    (hd' : d' ∈ n.decisions) (hs : d.state = d'.state) : d = d' :=
  Network.decision_unique (fun h => (hp.state h).id) hd hd' hs

/-- A state with two alternatives is one of a decision. -/
theorem Proper.exists_decision_of_offers (hp : n.Proper rules) {b : Nat} (ha : n.Offers s a id)
    (hb : n.Offers s b id') (hne : b ≠ a) : ∃ d ∈ n.decisions, d.state = s := by
  obtain ⟨st, hs, k, hk, rfl⟩ := ha
  obtain ⟨st', hs', k', hk', rfl⟩ := hb
  rw [hs] at hs'
  cases hs'
  have hlt := (List.getElem?_eq_some_iff.1 hk).1
  have hlt' := (List.getElem?_eq_some_iff.1 hk').1
  have hlen : 2 ≤ st.transitions.length := by omega
  refine hp.exists_decision hs ?_
  unfold isDecision
  rw [decide_eq_true hlen, Bool.and_true, beq_iff_eq]
  by_contra hkind
  have := (hp.state hs).single hkind
  omega

/-- Decisions are numbered by their places. -/
theorem eq_of_decision_id {d d' : Decision} (hd : d ∈ n.decisions) (hd' : d' ∈ n.decisions)
    (hid : d.id = d'.id) : d = d' := by
  obtain ⟨k, hk, rfl⟩ := List.mem_mapIdx.1 hd
  obtain ⟨k', hk', rfl⟩ := List.mem_mapIdx.1 hd'
  obtain rfl : k = k' := hid
  rfl

end Network

end RuleNetwork
