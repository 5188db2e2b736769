import RuleNetwork.Proofs.Run.Stack

/-!
A run reads nothing but the tokens that it passes. The same moves are a run from a like configuration
at any position where the same tokens follow; in particular moves that read nothing can be made
anywhere.
-/

set_option autoImplicit false

namespace RuleNetwork

/-- The same state and the same places to resume. -/
def Config.Like (c d : Config) : Prop :=
  c.state = d.state ∧ c.callers.map Frame.resume = d.callers.map Frame.resume

theorem Config.Like.refl (c : Config) : c.Like c := ⟨rfl, rfl⟩

theorem Config.Like.symm {c d : Config} (h : c.Like d) : d.Like c := ⟨h.1.symm, h.2.symm⟩

theorem Transition.Reads.transport {t : Transition} {types types' : List String} {k k' j : Nat}
    (h : t.Reads types k k') (ht : ∀ i, k + i < k' → types'[j + i]? = types[k + i]?) :
    t.Reads types' j (j + (k' - k)) := by
  unfold Reads at h ⊢
  split at h
  · obtain ⟨⟨x, hx, hm⟩, rfl⟩ := h
    have h0 := ht 0 (by omega)
    exact ⟨⟨x, h0.trans hx, hm⟩, by omega⟩
  · exact h.elim
  all_goals
    subst h
    simp

namespace Network

variable {n : Network} {types types' : List String}

theorem step_transport {c d c' : Config} {m : Move} (h : n.step types c m = some d)
    (hl : c.Like c')
    (ht : ∀ i, c.position + i < d.position → types'[c'.position + i]? = types[c.position + i]?) :
    ∃ d', n.step types' c' m = some d' ∧ d.Like d' ∧
      d'.position = c'.position + (d.position - c.position) := by
  obtain ⟨s, o, k, l⟩ := c
  obtain ⟨s', o', k', l'⟩ := c'
  obtain ⟨rfl, hr⟩ := hl
  obtain ⟨id, t, j, rfl, hleaves, hj, rfl⟩ | ⟨id, t, callee, follow, rfl, hc, rfl⟩ |
    ⟨rfl, hs, f, r, hf, rfl⟩ := step_cases h
  · exact ⟨_, step_read hleaves (hj.transport ht), ⟨rfl, hr⟩, rfl⟩
  · exact ⟨_, step_call hc, ⟨rfl, by simpa using hr⟩, by simp⟩
  · subst hf
    cases l' with
    | nil => simp at hr
    | cons f' r' =>
      simp only [List.map_cons, List.cons.injEq] at hr
      exact ⟨_, step_back hs, hr, by simp⟩

theorem run_transport {c d c' : Config} {ms : List Move} (h : n.run types c ms = some d)
    (hl : c.Like c')
    (ht : ∀ i, c.position + i < d.position → types'[c'.position + i]? = types[c.position + i]?) :
    ∃ d', n.run types' c' ms = some d' ∧ d.Like d' ∧
      d'.position = c'.position + (d.position - c.position) := by
  induction ms generalizing c c' with
  | nil =>
    cases h
    exact ⟨c', rfl, hl, by omega⟩
  | cons m ms ih =>
    obtain ⟨e, he, hr⟩ := run_cons_iff.1 h
    have h1 := step_position he
    have h2 := run_position hr
    have ht' : ∀ i, c.position + i < e.position →
        types'[c'.position + i]? = types[c.position + i]? := fun i hi => ht i (by omega)
    obtain ⟨e', he', hle, hpe⟩ := step_transport he hl ht'
    obtain ⟨d', hd', hld, hpd⟩ := ih hr hle fun i hi => by
      have := ht (e.position - c.position + i) (by omega)
      rw [hpe, Nat.add_assoc, this]
      congr 1
      omega
    exact ⟨d', run_cons_iff.2 ⟨e', he', hd'⟩, hld, by omega⟩

/-- A run that stays in its invocation, moved to another position. -/
theorem run_local_transport {s s' : Int} {o k k' j : Nat} {ms : List Move}
    (h : n.run types ⟨s, o, k, []⟩ ms = some ⟨s', o, k', []⟩) (o' : Nat)
    (ht : ∀ i, k + i < k' → types'[j + i]? = types[k + i]?) :
    n.run types' ⟨s, o', j, []⟩ ms = some ⟨s', o', j + (k' - k), []⟩ := by
  have hlike : (Config.mk s o k []).Like ⟨s, o', j, []⟩ := ⟨rfl, rfl⟩
  obtain ⟨⟨s'', o'', j', l⟩, hd, ⟨hs, hl⟩, hj⟩ := run_transport h hlike ht
  simp only [List.map_nil, List.nil_eq, List.map_eq_nil_iff] at hs hl hj
  subst hs hl hj
  rw [hd, origin_of_run hd]

/-- Tokens after the end of a run are of no account. -/
theorem run_take {c d : Config} {ms : List Move} {m : Nat} (hm : d.position ≤ m) :
    n.run (types.take m) c ms = some d ↔ n.run types c ms = some d := by
  induction ms using List.reverseRecOn generalizing d with
  | nil => simp
  | append_singleton ms x ih =>
    have hstep : ∀ e, n.step (types.take m) e x = some d ↔ n.step types e x = some d := by
      intro e
      have key : ∀ a b : List String, (∀ i, i < m → b[i]? = a[i]?) → n.step a e x = some d →
          n.step b e x = some d := by
        intro a b hab h
        obtain ⟨id, t, j, rfl, hleaves, hj, rfl⟩ | ⟨id, t, callee, follow, rfl, hc, rfl⟩ |
          ⟨rfl, hs, f, r, hf, rfl⟩ := step_cases h
        · have := hj.bounds
          have ht : ∀ i, e.position + i < j → b[e.position + i]? = a[e.position + i]? :=
            fun i hi => hab _ (by simp only at hm; omega)
          have hr := hj.transport ht
          rw [Nat.add_sub_cancel' (by omega)] at hr
          exact step_read hleaves hr
        · exact step_call hc
        · exact step_back_iff.2 ⟨hs, f, r, hf, rfl⟩
      constructor
      · exact key _ _ fun i hi => (List.getElem?_take_of_lt hi).symm
      · exact key _ _ fun i hi => List.getElem?_take_of_lt hi
    constructor
    · intro h
      obtain ⟨e, he, hx⟩ := run_append_iff.1 h
      obtain ⟨d', hd, hd'⟩ := run_cons_iff.1 hx
      cases hd'
      have := step_position hd
      exact run_snoc ((ih (by omega)).1 he) ((hstep e).1 hd)
    · intro h
      obtain ⟨e, he, hx⟩ := run_append_iff.1 h
      obtain ⟨d', hd, hd'⟩ := run_cons_iff.1 hx
      cases hd'
      have := step_position hd
      exact run_snoc ((ih (by omega)).2 he) ((hstep e).2 hd)

end Network

end RuleNetwork
