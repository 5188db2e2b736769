import RuleNetwork.Proofs.Layout.Proper

/-!
The two steps of a layout, seen through look-ups in the network that it has laid out so far: a fresh
state, which nothing leaves yet, and a connection, which adds a last way out of one state.
-/

set_option autoImplicit false

namespace RuleNetwork

/-- The network laid out so far. -/
def Arena.network (a : Arena) : Network := ⟨a.states, a.transitions⟩

namespace Network

variable {n n' : Network} {rules : Nat}

theorem state_eq_ok_iff {s : Int} {st : State} :
    n.state s = .ok st ↔ 0 ≤ s ∧ n.states[s.toNat]? = some st := by
  unfold state Position.forward?
  by_cases hs : 0 ≤ s
  · cases n.states[s.toNat]? <;> simp [hs]
  · simp [hs]

theorem transition_eq_ok_iff {id : Int} {t : Transition} :
    n.transition id = .ok t ↔ 0 ≤ id ∧ n.transitions[id.toNat]? = some t := by
  unfold transition Position.forward?
  by_cases hs : 0 ≤ id
  · cases n.transitions[id.toNat]? <;> simp [hs]
  · simp [hs]

theorem lt_of_state {s : Int} {st : State} (h : n.state s = .ok st) : 0 ≤ s ∧ s < n.states.size := by
  obtain ⟨h0, hs⟩ := state_eq_ok_iff.1 h
  have := (Array.getElem?_eq_some_iff.1 hs).1
  omega

theorem lt_of_transition {id : Int} {t : Transition} (h : n.transition id = .ok t) :
    0 ≤ id ∧ id < n.transitions.size := by
  obtain ⟨h0, ht⟩ := transition_eq_ok_iff.1 h
  have := (Array.getElem?_eq_some_iff.1 ht).1
  omega

/-- What a state is, and the ways out of it. -/
def At (n : Network) (s rule : Int) (kind : StateKind) (l : List Transition) : Prop :=
  ∃ st, n.state s = .ok st ∧ st.rule = rule ∧ st.kind = kind ∧
    st.transitions.mapM n.transition = .ok l

theorem At.inside {s rule : Int} {kind : StateKind} {l : List Transition}
    (h : n.At s rule kind l) (hk : kind ≠ .ruleStart) : n.Inside rule s := by
  obtain ⟨st, hs, hr, rfl, -⟩ := h
  exact ⟨st, hs, hr, hk⟩

theorem mapM_transition_mono (h : ∀ {id t}, n.transition id = .ok t → n'.transition id = .ok t)
    {ids : List Int} {l : List Transition} (hl : ids.mapM n.transition = .ok l) :
    ids.mapM n'.transition = .ok l :=
  mapM_eq_ok.2 ((mapM_eq_ok.1 hl).imp fun _ _ => h)

end Network

namespace Layout

open Network

variable {a : Arena} {rules rule : Nat} {kind : StateKind}

theorem fresh_eq : fresh rule kind a =
    ((a.states.size : Int),
      ⟨a.states.push { id := a.states.size, rule := rule, kind }, a.transitions⟩) := rfl

theorem state_fresh_of_ok {s : Int} {st : State} (h : a.network.state s = .ok st) :
    (fresh rule kind a).2.network.state s = .ok st := by
  obtain ⟨h0, hs⟩ := state_eq_ok_iff.1 h
  refine state_eq_ok_iff.2 ⟨h0, ?_⟩
  have hlt : s.toNat < a.states.size := (Array.getElem?_eq_some_iff.1 hs).1
  simp only [fresh_eq, Arena.network, Array.getElem?_push]
  rw [if_neg (by omega)]
  exact hs

theorem state_fresh (rule : Nat) (kind : StateKind) (a : Arena) :
    (fresh rule kind a).2.network.state a.states.size =
      .ok { id := a.states.size, rule := rule, kind } := by
  refine state_eq_ok_iff.2 ⟨by omega, ?_⟩
  simp [fresh_eq, Arena.network]

theorem state_of_fresh {s : Int} {st : State} (h : (fresh rule kind a).2.network.state s = .ok st) :
    a.network.state s = .ok st ∨
      s = a.states.size ∧ st = { id := a.states.size, rule := rule, kind } := by
  obtain ⟨h0, hs⟩ := state_eq_ok_iff.1 h
  simp only [fresh_eq, Arena.network, Array.getElem?_push] at hs
  split at hs
  · exact .inr ⟨by omega, (Option.some.inj hs).symm⟩
  · exact .inl (state_eq_ok_iff.2 ⟨h0, hs⟩)

theorem extends_fresh (rule : Nat) (kind : StateKind) (a : Arena) :
    a.network.Extends (fresh rule kind a).2.network where
  state h := ⟨_, state_fresh_of_ok h, rfl, rfl⟩
  transition h := h

theorem at_fresh_of_at {s r : Int} {k : StateKind} {l : List Transition} (h : a.network.At s r k l) :
    (fresh rule kind a).2.network.At s r k l := by
  obtain ⟨st, hs, hr, hk, hl⟩ := h
  exact ⟨st, state_fresh_of_ok hs, hr, hk, hl⟩

theorem at_fresh (rule : Nat) (kind : StateKind) (a : Arena) :
    (fresh rule kind a).2.network.At a.states.size rule kind [] :=
  ⟨_, state_fresh rule kind a, rfl, rfl, rfl⟩

/-- A fresh state in the middle of a rule. -/
theorem proper_fresh (h : a.network.Proper rules) (hr : rule < rules) (hs : kind ≠ .ruleStart)
    (he : kind ≠ .ruleStop) : (fresh rule kind a).2.network.Proper rules where
  start i hi := (extends_fresh rule kind a).exists_state (h.start i hi)
  stop i hi := (extends_fresh rule kind a).exists_state (h.stop i hi)
  state {s st} hst := by
    obtain hold | ⟨rfl, rfl⟩ := state_of_fresh hst
    · have p := h.state hold
      refine ⟨p.id, p.rule, p.start, p.stop, p.single, p.nodup, fun id hid => ?_⟩
      obtain ⟨t, ht, hf⟩ := p.fits id hid
      exact ⟨t, ht, fits_mono (extends_fresh rule kind a) hf⟩
    · exact ⟨rfl, ⟨rule, hr, rfl⟩, fun e => absurd e hs, fun e => absurd e he,
        fun _ => Nat.zero_le _, List.nodup_nil, fun id hid => absurd hid List.not_mem_nil⟩
  listed ht := by
    obtain ⟨s, st, hs, hid⟩ := h.listed ht
    exact ⟨s, st, state_fresh_of_ok hs, hid⟩

variable {source : Int} {t : Transition}

theorem transition_connect_of_ok {id : Int} {u : Transition} (h : a.network.transition id = .ok u) :
    (connect source t a).2.network.transition id = .ok u := by
  obtain ⟨h0, ht⟩ := transition_eq_ok_iff.1 h
  refine transition_eq_ok_iff.2 ⟨h0, ?_⟩
  have hlt : id.toNat < a.transitions.size := (Array.getElem?_eq_some_iff.1 ht).1
  simp only [connect, Arena.network, Array.getElem?_push]
  rw [if_neg (by omega)]
  exact ht

theorem transition_connect (source : Int) (t : Transition) (a : Arena) :
    (connect source t a).2.network.transition a.transitions.size = .ok t := by
  refine transition_eq_ok_iff.2 ⟨by omega, ?_⟩
  simp [connect, Arena.network]

/-- The transitions after a connection: those before it, and the new one. -/
theorem transition_of_connect {id : Int} {u : Transition}
    (h : (connect source t a).2.network.transition id = .ok u) :
    a.network.transition id = .ok u ∨ id = a.transitions.size := by
  obtain ⟨h0, hget⟩ := transition_eq_ok_iff.1 h
  simp only [Arena.network, connect, Array.getElem?_push] at hget
  split at hget
  · exact .inr (by omega)
  · exact .inl (transition_eq_ok_iff.2 ⟨h0, hget⟩)

theorem state_connect_of_ne {s : Int} (h0 : 0 ≤ source) (h : s ≠ source) :
    (connect source t a).2.network.state s = a.network.state s := by
  unfold Network.state Position.forward?
  by_cases hs : 0 ≤ s
  · have : ¬ source.toNat = s.toNat := by omega
    simp [connect, Arena.network, Array.getElem?_modify, hs, this]
  · simp [hs]

theorem state_connect {st : State} (h : a.network.state source = .ok st) :
    (connect source t a).2.network.state source =
      .ok { st with transitions := st.transitions ++ [(a.transitions.size : Int)] } := by
  obtain ⟨h0, hs⟩ := state_eq_ok_iff.1 h
  refine state_eq_ok_iff.2 ⟨h0, ?_⟩
  have hs' : a.states[source.toNat]? = some st := hs
  simp [connect, Arena.network, Array.getElem?_modify, hs']

/-- The states after a connection: the source lists the new transition too, all others stay. -/
theorem state_of_connect {s : Int} {st : State} (hs : (connect source t a).2.network.state s = .ok st) :
    ∃ st', a.network.state s = .ok st' ∧ st'.rule = st.rule ∧ st'.kind = st.kind ∧
      (st.transitions = st'.transitions ∨
        source.toNat = s.toNat ∧ st.transitions = st'.transitions ++ [(a.transitions.size : Int)]) := by
  obtain ⟨h0, hget⟩ := state_eq_ok_iff.1 hs
  simp only [Arena.network, connect, Array.getElem?_modify] at hget
  split at hget
  · rename_i heq
    obtain ⟨st', hst', rfl⟩ := Option.map_eq_some_iff.1 hget
    exact ⟨st', state_eq_ok_iff.2 ⟨h0, hst'⟩, rfl, rfl, .inr ⟨heq, rfl⟩⟩
  · exact ⟨st, state_eq_ok_iff.2 ⟨h0, hget⟩, rfl, rfl, .inl rfl⟩

theorem extends_connect {st : State} (h : a.network.state source = .ok st) :
    a.network.Extends (connect source t a).2.network where
  state {s st'} hs := by
    by_cases he : s = source
    · subst he
      rw [h] at hs
      cases hs
      exact ⟨_, state_connect h, rfl, rfl⟩
    · exact ⟨st', by rw [state_connect_of_ne (lt_of_state h).1 he]; exact hs, rfl, rfl⟩
  transition hu := transition_connect_of_ok hu

theorem at_connect_of_ne {s r : Int} {k : StateKind} {l : List Transition} (h0 : 0 ≤ source)
    (hs : s ≠ source) (h : a.network.At s r k l) : (connect source t a).2.network.At s r k l := by
  obtain ⟨st, hst, hr, hk, hl⟩ := h
  exact ⟨st, by rw [state_connect_of_ne h0 hs]; exact hst, hr, hk,
    mapM_transition_mono transition_connect_of_ok hl⟩

theorem at_connect {r : Int} {k : StateKind} {l : List Transition} (h : a.network.At source r k l) :
    (connect source t a).2.network.At source r k (l ++ [t]) := by
  obtain ⟨st, hst, hr, hk, hl⟩ := h
  have hlast : [(a.transitions.size : Int)].mapM (connect source t a).2.network.transition = .ok [t] :=
    mapM_cons_eq_ok.2 ⟨t, [], transition_connect source t a, rfl, rfl⟩
  exact ⟨_, state_connect hst, hr, hk, mapM_append_eq_ok.2
    ⟨l, [t], mapM_transition_mono transition_connect_of_ok hl, hlast, rfl⟩⟩

theorem proper_connect_of_state {st : State} (h : a.network.Proper rules)
    (hst : a.network.state source = .ok st) (hk : st.kind ≠ .ruleStop)
    (hone : st.kind = .decision ∨ st.transitions = []) (ht : t.Fits a.network rules st.rule) :
    (connect source t a).2.network.Proper rules where
  start i hi := (extends_connect hst).exists_state (h.start i hi)
  stop i hi := (extends_connect hst).exists_state (h.stop i hi)
  state {s st'} hs := by
    have hfits : ∀ {u : State}, u.Proper a.network rules s → ∀ id ∈ u.transitions,
        ∃ t', (connect source t a).2.network.transition id = .ok t' ∧
          t'.Fits (connect source t a).2.network rules u.rule := by
      intro u hu id hid
      obtain ⟨t', ht', hf⟩ := hu.fits id hid
      exact ⟨t', transition_connect_of_ok ht', fits_mono (extends_connect hst) hf⟩
    by_cases he : s = source
    · subst he
      rw [state_connect hst] at hs
      cases hs
      have p := h.state hst
      refine ⟨p.id, p.rule, p.start, fun e => absurd e hk, fun e => ?_, ?_, fun id hid => ?_⟩
      · obtain hd | hn := hone
        · exact absurd hd e
        · simp [hn]
      · refine List.nodup_append.2 ⟨p.nodup, by simp, ?_⟩
        intro x hx y hy
        simp only [List.mem_singleton] at hy
        subst hy
        obtain ⟨u, hu, -⟩ := p.fits x hx
        have := (lt_of_transition hu).2
        simp only [Arena.network] at this
        omega
      · simp only [List.mem_append, List.mem_singleton] at hid
        obtain hid | rfl := hid
        · exact hfits p id hid
        · exact ⟨t, transition_connect _ _ _, fits_mono (extends_connect hst) ht⟩
    · rw [state_connect_of_ne (lt_of_state hst).1 he] at hs
      have p := h.state hs
      exact ⟨p.id, p.rule, p.start, p.stop, p.single, p.nodup, hfits p⟩
  listed {id u} hu := by
    obtain hold | rfl := transition_of_connect hu
    · obtain ⟨s, st', hs, hid⟩ := h.listed hold
      by_cases he : s = source
      · subst he
        rw [hst] at hs
        cases hs
        exact ⟨s, _, state_connect hst, List.mem_append_left _ hid⟩
      · exact ⟨s, st', by rw [state_connect_of_ne (lt_of_state hst).1 he]; exact hs, hid⟩
    · exact ⟨source, _, state_connect hst, by simp⟩

/-- A connection from a decision, or from a state that nothing leaves yet. -/
theorem proper_connect {r : Int} {k : StateKind} {l : List Transition} (h : a.network.Proper rules)
    (hs : a.network.At source r k l) (hk : k ≠ .ruleStop) (hone : k = .decision ∨ l = [])
    (ht : t.Fits a.network rules r) : (connect source t a).2.network.Proper rules := by
  obtain ⟨st, hst, rfl, rfl, hl⟩ := hs
  refine proper_connect_of_state h hst hk (hone.imp_right fun e => ?_) ht
  subst e
  exact List.forall₂_nil_right_iff.1 (mapM_eq_ok.1 hl)

theorem extends_connect_of_at {r : Int} {k : StateKind} {l : List Transition}
    (hs : a.network.At source r k l) : a.network.Extends (connect source t a).2.network := by
  obtain ⟨st, hst, -⟩ := hs
  exact extends_connect hst

end Layout

end RuleNetwork
