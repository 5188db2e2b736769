import RuleNetwork.Chart.Recognition
import RuleNetwork.Proofs.Layout.Proper
import RuleNetwork.Proofs.Run.Stack

/-!
Where the runs of a proper network can be. A visit is reached if a run from the start rule comes to
it with some calls open. The visits reached are the least set closed under reading, entering a rule
and resuming a caller.
-/

set_option autoImplicit false

namespace RuleNetwork

/-- The state where the outermost invocation that a configuration knows of goes on. -/
def Config.bottom (c : Config) : Int := (c.callers.getLast?).elim c.state Frame.resume

namespace Network

variable {n : Network} {rules : Nat} {types : List String}

/-- The state belongs to the rule. -/
def Owns (n : Network) (rule s : Int) : Prop := ∃ st, n.state s = .ok st ∧ st.rule = rule

theorem Owns.unique {r r' s : Int} (h : n.Owns r s) (h' : n.Owns r' s) : r = r' := by
  obtain ⟨st, hs, rfl⟩ := h
  obtain ⟨st', hs', rfl⟩ := h'
  rw [hs] at hs'
  cases hs'
  rfl

theorem Inside.owns {r s : Int} (h : n.Inside r s) : n.Owns r s := by
  obtain ⟨st, hs, hr, -⟩ := h
  exact ⟨st, hs, hr⟩

theorem Leaves.owned {s id : Int} {t : Transition} (h : n.Leaves s id t) : ∃ r, n.Owns r s := by
  obtain ⟨st, hs, -⟩ := h
  exact ⟨st.rule, st, hs, rfl⟩

namespace Proper

theorem owns_start (hp : n.Proper rules) {i : Nat} (hi : i < rules) : n.Owns i (startState i) := by
  obtain ⟨st, hs, hr, -⟩ := hp.start i hi
  exact ⟨st, hs, hr⟩

theorem owns_stop (hp : n.Proper rules) {i : Nat} (hi : i < rules) : n.Owns i (stopState i) := by
  obtain ⟨st, hs, hr, -⟩ := hp.stop i hi
  exact ⟨st, hs, hr⟩

/-- A rule ends in one state. -/
theorem eq_stop (hp : n.Proper rules) {i : Nat} {s : Int} (ho : n.Owns i s) (he : n.Ends s) :
    s = stopState i := by
  obtain ⟨st, hs, hr⟩ := ho
  obtain ⟨st', hs', hk⟩ := he
  rw [hs] at hs'
  cases hs'
  rw [((hp.state hs).stop hk).1, hr]
  rfl

theorem fits (hp : n.Proper rules) {r s id : Int} {t : Transition} (h : n.Leaves s id t)
    (ho : n.Owns r s) : t.Fits n rules r := by
  obtain ⟨st, hs, -, hid, ht⟩ := h
  obtain ⟨st', hs', rfl⟩ := ho
  rw [hs] at hs'
  cases hs'
  obtain ⟨t', ht', hf⟩ := (hp.state hs).fits id hid
  rw [ht] at ht'
  cases ht'
  exact hf

/-- Reading stays in the rule. -/
theorem inside_of_reads (hp : n.Proper rules) {r s id : Int} {t : Transition} {k k' : Nat}
    (h : n.Leaves s id t) (ho : n.Owns r s) (hr : t.Reads types k k') : n.Inside r t.target := by
  obtain ⟨-, hi⟩ | ⟨callee, follow, -, hc, -⟩ := hp.fits h ho
  · exact hi
  · exact absurd (Transition.kind_of_call? hc) hr.kind_ne

/-- A call enters a rule at its start and resumes in its own. -/
theorem of_calls (hp : n.Proper rules) {r s id callee follow : Int} {t : Transition}
    (h : n.Calls s id t callee follow) (ho : n.Owns r s) :
    ∃ i < rules, callee = Int.ofNat i ∧ t.target = startState i ∧ n.Inside r follow := by
  obtain ⟨hk, -⟩ | ⟨i, f, hi, hc, ht, hin⟩ := hp.fits h.1 ho
  · exact absurd (Transition.kind_of_call? h.2) hk
  · rw [h.2] at hc
    cases hc
    exact ⟨i, hi, rfl, ht, hin⟩

theorem owns_of_step (hp : n.Proper rules) {c d : Config} {m : Move} {r : Int}
    (h : n.step types c m = some d) (ho : n.Owns r c.bottom) : n.Owns r d.bottom := by
  obtain ⟨s, o, k, l⟩ := c
  obtain ⟨id, t, j, rfl, ht, hj, rfl⟩ | ⟨id, t, callee, follow, rfl, hc, rfl⟩ |
    ⟨rfl, hs, f, l', hf, rfl⟩ := step_cases h
  · cases l with
    | nil => exact (hp.inside_of_reads ht ho hj).owns
    | cons f l => exact ho
  · cases l with
    | nil =>
      obtain ⟨i, -, -, -, hin⟩ := hp.of_calls hc ho
      exact hin.owns
    | cons f l => simpa [Config.bottom, List.getLast?_cons] using ho
  · simp only at hf
    subst hf
    cases l' with
    | nil => simpa [Config.bottom] using ho
    | cons f' l' => simpa [Config.bottom, List.getLast?_cons] using ho

theorem owns_of_run (hp : n.Proper rules) {c d : Config} {ms : List Move} {r : Int}
    (h : n.run types c ms = some d) (ho : n.Owns r c.bottom) : n.Owns r d.bottom := by
  induction ms generalizing c with
  | nil => cases h; exact ho
  | cons m ms ih =>
    obtain ⟨e, he, hr⟩ := run_cons_iff.1 h
    exact ih hr (hp.owns_of_step he ho)

/-- The innermost open invocation: its rule was entered at its start, and the run so far within it. -/
theorem exists_entry (hp : n.Proper rules) {i₀ : Nat} (hi₀ : i₀ < rules) {s : Int} {o k : Nat}
    {l : List Frame} {ms : List Move}
    (h : n.run types (.enter (startState i₀) 0) ms = some ⟨s, o, k, l⟩) :
    ∃ i < rules, ∃ ms', n.run types (.enter (startState i) o) ms' = some ⟨s, o, k, []⟩ ∧
      n.Owns i s := by
  cases l with
  | nil =>
    obtain rfl := origin_of_run h
    exact ⟨i₀, hi₀, ms, h, hp.owns_of_run h (hp.owns_start hi₀)⟩
  | cons f l =>
    obtain ⟨ms₁, s', k', id, t, callee, ms₂, -, -, hc, h₂⟩ :=
      exists_call (a := []) h (Nat.zero_le _) rfl
    obtain ⟨r, hr⟩ := hc.1.owned
    obtain ⟨i, hi, -, ht, -⟩ := hp.of_calls hc hr
    rw [ht] at h₂
    obtain rfl := origin_of_run h₂
    exact ⟨i, hi, ms₂, h₂, hp.owns_of_run h₂ (hp.owns_start hi)⟩

end Proper

/-- Some run from the start rule comes to the visit. -/
def Reaches (n : Network) (types : List String) (start : Int) (v : Visit) : Prop :=
  ∃ ms callers, n.run types (.enter start 0) ms = some ⟨v.state, v.origin, v.position, callers⟩

/-- A set of visits that a run cannot leave. -/
structure Closed (n : Network) (types : List String) (start : Int) (c : Visit → Prop) : Prop where
  start : c ⟨start, 0, 0⟩
  read : ∀ {s id : Int} {o k k' : Nat} {t}, c ⟨s, o, k⟩ → n.Leaves s id t → t.Reads types k k' →
    c ⟨t.target, o, k'⟩
  enter : ∀ {s id callee follow : Int} {o k : Nat} {t}, c ⟨s, o, k⟩ →
    n.Calls s id t callee follow → c ⟨t.target, k, k⟩
  resume : ∀ {s id callee follow z : Int} {o k k' : Nat} {t}, c ⟨s, o, k⟩ →
    n.Calls s id t callee follow → c ⟨z, k, k'⟩ → n.Ends z → n.Owns callee z → c ⟨follow, o, k'⟩

namespace Reaches

variable {start : Int}

theorem start_visit : n.Reaches types start ⟨start, 0, 0⟩ := ⟨[], [], rfl⟩

theorem read {s id : Int} {o k k' : Nat} {t : Transition} (h : n.Reaches types start ⟨s, o, k⟩)
    (ht : n.Leaves s id t) (hr : t.Reads types k k') : n.Reaches types start ⟨t.target, o, k'⟩ := by
  obtain ⟨ms, l, h⟩ := h
  exact ⟨ms ++ [.along id], l, run_snoc h (step_read ht hr)⟩

theorem enter {s id callee follow : Int} {o k : Nat} {t : Transition}
    (h : n.Reaches types start ⟨s, o, k⟩) (hc : n.Calls s id t callee follow) :
    n.Reaches types start ⟨t.target, k, k⟩ := by
  obtain ⟨ms, l, h⟩ := h
  exact ⟨ms ++ [.along id], ⟨follow, o⟩ :: l, run_snoc h (step_call hc)⟩

theorem resume (hp : n.Proper rules) {i₀ : Nat} (hi₀ : i₀ < rules) {s id callee follow z : Int}
    {o k k' : Nat} {t : Transition} (h : n.Reaches types (startState i₀) ⟨s, o, k⟩)
    (hc : n.Calls s id t callee follow) (hz : n.Reaches types (startState i₀) ⟨z, k, k'⟩)
    (he : n.Ends z) (ho : n.Owns callee z) : n.Reaches types (startState i₀) ⟨follow, o, k'⟩ := by
  obtain ⟨ms, l, h⟩ := h
  obtain ⟨ms', l', h'⟩ := hz
  obtain ⟨r, hr⟩ := hc.1.owned
  obtain ⟨i, -, rfl, ht, -⟩ := hp.of_calls hc hr
  obtain ⟨j, -, ms₁, h₁, hj⟩ := hp.exists_entry hi₀ h'
  obtain rfl : i = j := Int.ofNat.inj (ho.unique hj)
  rw [← ht] at h₁
  have hrun := run_under h₁ (⟨follow, o⟩ :: l)
  exact ⟨ms ++ .along id :: (ms₁ ++ [.back]), l,
    run_trans h (run_cons_iff.2 ⟨_, step_call hc, run_snoc hrun (step_back he)⟩)⟩

end Reaches

theorem closed_reaches (hp : n.Proper rules) {i : Nat} (hi : i < rules) :
    n.Closed types (startState i) (n.Reaches types (startState i)) where
  start := .start_visit
  read := .read
  enter := .enter
  resume := .resume hp hi

/-- The open calls were all made at visits of a set. -/
def Backed (n : Network) (c : Visit → Prop) : Int → Nat → List Frame → Prop
  | _, _, [] => True
  | rule, o, f :: r => ∃ s id t owner, c ⟨s, f.origin, o⟩ ∧ n.Calls s id t rule f.resume ∧
    n.Owns owner s ∧ Backed n c owner f.origin r

/-- The visits reached are in every set that a run cannot leave. -/
theorem Closed.of_reaches (hp : n.Proper rules) {i : Nat} (hi : i < rules) {c : Visit → Prop}
    (hc : n.Closed types (startState i) c) {v : Visit} (h : n.Reaches types (startState i) v) :
    c v := by
  obtain ⟨ms, l, h⟩ := h
  -- along the run, the visit is in the set and so are those of the open calls
  have key : ∀ ms d, n.run types (.enter (startState i) 0) ms = some d →
      c ⟨d.state, d.origin, d.position⟩ ∧
        ∃ rule, n.Owns rule d.state ∧ n.Backed c rule d.origin d.callers := by
    intro ms
    induction ms using List.reverseRecOn with
    | nil =>
      intro d hd
      cases hd
      exact ⟨hc.start, i, hp.owns_start hi, trivial⟩
    | append_singleton ms m ih =>
      intro d hd
      obtain ⟨e, he, hm⟩ := run_append_iff.1 hd
      obtain ⟨d', hs, hd'⟩ := run_cons_iff.1 hm
      cases hd'
      obtain ⟨hv, rule, ho, hb⟩ := ih e he
      obtain ⟨id, t, j, rfl, ht, hj, rfl⟩ | ⟨id, t, callee, follow, rfl, hcall, rfl⟩ |
        ⟨rfl, hend, f, r, hf, rfl⟩ := step_cases hs
      · exact ⟨hc.read hv ht hj, rule, (hp.inside_of_reads ht ho hj).owns, hb⟩
      · obtain ⟨i', hi', rfl, ht, -⟩ := hp.of_calls hcall ho
        refine ⟨hc.enter hv hcall, i', ?_, e.state, id, t, rule, hv, hcall, ho, hb⟩
        rw [ht]
        exact hp.owns_start hi'
      · rw [hf] at hb
        obtain ⟨s, id, t, owner, hs, hcall, howner, hb⟩ := hb
        obtain ⟨-, -, -, -, hin⟩ := hp.of_calls hcall howner
        exact ⟨hc.resume hs hcall hv hend ho, owner, hin.owns, hb⟩
  obtain ⟨hv, -⟩ := key _ _ h
  exact hv

end Network

end RuleNetwork
