import Mathlib.Data.List.Induction
import RuleNetwork.Proofs.Run.Basic

/-!
What a run does to its stack. A run does not look below the calls that it opens, so it can be placed
on any stack. A call that a run closes splits it at the return, and a call that it leaves open splits
it at the call.
-/

set_option autoImplicit false

namespace RuleNetwork

/-- Where the outermost invocation that a configuration knows of began. -/
def Config.base (c : Config) : Nat := (c.callers.getLast?).elim c.origin Frame.origin

namespace Network

variable {n : Network} {types : List String}

theorem step_under {c d : Config} {m : Move} (h : n.step types c m = some d) (l : List Frame) :
    n.step types (c.under l) m = some (d.under l) := by
  obtain ⟨id, t, k, rfl, ht, hr, rfl⟩ | ⟨id, t, callee, follow, rfl, hc, rfl⟩ |
    ⟨rfl, hs, f, r, hf, rfl⟩ := step_cases h
  · exact step_read ht hr
  · exact step_call hc
  · simp only [Config.under, hf]
    exact step_back hs

theorem run_under {c d : Config} {ms : List Move} (h : n.run types c ms = some d) (l : List Frame) :
    n.run types (c.under l) ms = some (d.under l) := by
  induction ms generalizing c with
  | nil => cases h; rfl
  | cons m ms ih =>
    obtain ⟨e, he, hr⟩ := run_cons_iff.1 h
    exact run_cons_iff.2 ⟨e.under l, step_under he l, ih hr⟩

theorem step_position {c d : Config} {m : Move} (h : n.step types c m = some d) :
    c.position ≤ d.position ∧ (d.position ≤ c.position ∨ d.position ≤ types.length) := by
  obtain ⟨id, t, k, rfl, ht, hr, rfl⟩ | ⟨id, t, callee, follow, rfl, hc, rfl⟩ |
    ⟨rfl, hs, f, r, hf, rfl⟩ := step_cases h
  · exact hr.bounds
  all_goals exact ⟨Nat.le_refl _, .inl (Nat.le_refl _)⟩

theorem run_position {c d : Config} {ms : List Move} (h : n.run types c ms = some d) :
    c.position ≤ d.position ∧ (d.position ≤ c.position ∨ d.position ≤ types.length) := by
  induction ms generalizing c with
  | nil => cases h; exact ⟨Nat.le_refl _, .inl (Nat.le_refl _)⟩
  | cons m ms ih =>
    obtain ⟨e, he, hr⟩ := run_cons_iff.1 h
    have h1 := step_position he
    have h2 := ih hr
    omega

/-- A run passes every position up to its own. -/
theorem exists_prefix {c d : Config} {ms : List Move} {k : Nat} (h : n.run types c ms = some d)
    (hc : c.position ≤ k) (hk : k ≤ d.position) :
    ∃ p e, p <+: ms ∧ n.run types c p = some e ∧ e.position = k := by
  induction ms using List.reverseRecOn generalizing d with
  | nil =>
    cases h
    exact ⟨[], c, List.prefix_rfl, rfl, Nat.le_antisymm hc hk⟩
  | append_singleton ms m ih =>
    obtain ⟨e, he, hm⟩ := run_append_iff.1 h
    obtain ⟨d', hs, hd⟩ := run_cons_iff.1 hm
    cases hd
    by_cases hke : k ≤ e.position
    · obtain ⟨p, e', hp, hrun, hpos⟩ := ih he hke
      exact ⟨p, e', hp.trans (List.prefix_append _ _), hrun, hpos⟩
    · refine ⟨ms ++ [m], d, List.prefix_rfl, h, ?_⟩
      obtain ⟨id, t, j, -, -, hj, rfl⟩ | ⟨id, t, r, f, -, -, rfl⟩ | ⟨-, -, f, r, -, rfl⟩ :=
        step_cases hs
      · obtain hf | hkind := hj.isFree_or_terminal
        · obtain rfl := (Transition.reads_of_isFree hf).1 hj
          exact absurd hk hke
        · obtain ⟨-, rfl⟩ := (Transition.reads_of_terminal hkind).1 hj
          simp only at hk ⊢
          omega
      all_goals exact absurd hk hke

/-- Every token that a run passes is one of a terminal's. -/
theorem exists_terminal {c d : Config} {ms : List Move} {k : Nat} (h : n.run types c ms = some d)
    (hc : c.position ≤ k) (hk : k < d.position) :
    ∃ s id t x, n.Leaves s id t ∧ t.kind = .terminal ∧ types[k]? = some x ∧ x ∈ t.tokens := by
  induction ms generalizing c with
  | nil =>
    cases h
    omega
  | cons m ms ih =>
    obtain ⟨e, he, hr⟩ := run_cons_iff.1 h
    obtain ⟨id, t, j, -, ht, hj, rfl⟩ | ⟨id, t, r, f, -, -, rfl⟩ | ⟨-, -, f, r, -, rfl⟩ := step_cases he
    · obtain hfree | hkind := hj.isFree_or_terminal
      · obtain rfl := (Transition.reads_of_isFree hfree).1 hj
        exact ih hr hc
      · obtain ⟨⟨x, hx, hmem⟩, rfl⟩ := (Transition.reads_of_terminal hkind).1 hj
        obtain rfl | hlt := Nat.eq_or_lt_of_le hc
        · exact ⟨_, id, t, x, ht, hkind, hx, hmem⟩
        · exact ih hr hlt
    all_goals exact ih hr hc

theorem step_base {c d : Config} {m : Move} (h : n.step types c m = some d) : d.base = c.base := by
  obtain ⟨id, t, k, rfl, ht, hr, rfl⟩ | ⟨id, t, callee, follow, rfl, hc, rfl⟩ |
    ⟨rfl, hs, f, r, hf, rfl⟩ := step_cases h
  · rfl
  · cases hl : c.callers <;> simp [Config.base, hl, List.getLast?_cons]
  · cases r <;> simp [Config.base, hf, List.getLast?_cons]

theorem run_base {c d : Config} {ms : List Move} (h : n.run types c ms = some d) :
    d.base = c.base := by
  induction ms generalizing c with
  | nil => cases h; rfl
  | cons m ms ih =>
    obtain ⟨e, he, hr⟩ := run_cons_iff.1 h
    rw [ih hr, step_base he]

/-- A run that closes all the calls that it opens stays in its invocation. -/
theorem origin_of_run {s s' : Int} {o o' k k' : Nat} {ms : List Move}
    (h : n.run types ⟨s, o, k, []⟩ ms = some ⟨s', o', k', []⟩) : o' = o := run_base h

/-- The moves, made from a configuration above an open call, end above it or return from it. -/
def AboveOrReturn (n : Network) (types : List String) (f : Frame) (b : List Frame) (d c : Config)
    (ms : List Move) : Prop :=
  (∃ a, d.callers = a ++ f :: b ∧ n.run types c ms = some { d with callers := a }) ∨
    ∃ ms₁ s o k ms₂, ms = ms₁ ++ .back :: ms₂ ∧ n.run types c ms₁ = some ⟨s, o, k, []⟩ ∧ n.Ends s ∧
      n.run types ⟨f.resume, f.origin, k, b⟩ ms₂ = some d

theorem AboveOrReturn.cons {f : Frame} {b : List Frame} {c d e : Config} {m : Move} {ms : List Move}
    (he : n.step types c m = some e) (h : n.AboveOrReturn types f b d e ms) :
    n.AboveOrReturn types f b d c (m :: ms) := by
  obtain ⟨a, hd, hr⟩ | ⟨ms₁, s, o, k, ms₂, rfl, hr, hs, hrest⟩ := h
  · exact .inl ⟨a, hd, run_cons_iff.2 ⟨e, he, hr⟩⟩
  · exact .inr ⟨m :: ms₁, s, o, k, ms₂, rfl, run_cons_iff.2 ⟨e, he, hr⟩, hs, hrest⟩

/-- A call that was open at first is still open at the end, or is returned from. -/
theorem above_or_return {s : Int} {o k : Nat} {a b : List Frame} {f : Frame} {d : Config}
    {ms : List Move} (h : n.run types ⟨s, o, k, a ++ f :: b⟩ ms = some d) :
    n.AboveOrReturn types f b d ⟨s, o, k, a⟩ ms := by
  induction ms generalizing s o k a with
  | nil =>
    cases h
    exact .inl ⟨a, rfl, rfl⟩
  | cons m ms ih =>
    obtain ⟨e, he, hr⟩ := run_cons_iff.1 h
    obtain ⟨id, t, j, rfl, ht, hj, rfl⟩ | ⟨id, t, callee, follow, rfl, hc, rfl⟩ |
      ⟨rfl, hs, g, r, hg, rfl⟩ := step_cases he
    · exact (ih hr).cons (step_read ht hj)
    · exact (ih (a := ⟨follow, o⟩ :: a) hr).cons (step_call hc)
    · cases a with
      | nil =>
        cases hg
        exact .inr ⟨[], s, o, k, ms, rfl, rfl, hs, hr⟩
      | cons g' a =>
        cases hg
        exact (ih hr).cons (step_back hs)

/-- Where a call that was open at first is returned from. -/
theorem exists_return {s : Int} {o k : Nat} {a b : List Frame} {f : Frame} {d : Config}
    {ms : List Move} (h : n.run types ⟨s, o, k, a ++ f :: b⟩ ms = some d)
    (hd : d.callers.length ≤ b.length) :
    ∃ ms₁ s' o' k' ms₂, ms = ms₁ ++ .back :: ms₂ ∧
      n.run types ⟨s, o, k, a⟩ ms₁ = some ⟨s', o', k', []⟩ ∧ n.Ends s' ∧
      n.run types ⟨f.resume, f.origin, k', b⟩ ms₂ = some d := by
  obtain ⟨a', ha, -⟩ | hreturn := above_or_return h
  · rw [ha, List.length_append, List.length_cons] at hd
    omega
  · exact hreturn

/-- Where a call that is still open was made. -/
theorem exists_call {c d : Config} {a b : List Frame} {f : Frame} {ms : List Move}
    (h : n.run types c ms = some d) (hc : c.callers.length ≤ b.length)
    (hd : d.callers = a ++ f :: b) :
    ∃ ms₁ s k id t callee ms₂, ms = ms₁ ++ .along id :: ms₂ ∧
      n.run types c ms₁ = some ⟨s, f.origin, k, b⟩ ∧ n.Calls s id t callee f.resume ∧
      n.run types (.enter t.target k) ms₂ = some { d with callers := a } := by
  induction ms using List.reverseRecOn generalizing d a with
  | nil =>
    cases h
    rw [hd] at hc
    simp at hc
    omega
  | append_singleton ms m ih =>
    obtain ⟨e, he, hm⟩ := run_append_iff.1 h
    obtain ⟨d', hs, hd'⟩ := run_cons_iff.1 hm
    cases hd'
    obtain ⟨id, t, j, rfl, ht, hj, rfl⟩ | ⟨id, t, callee, follow, rfl, hcall, rfl⟩ |
      ⟨rfl, hs', g, r, hg, rfl⟩ := step_cases hs
    · obtain ⟨ms₁, s, k, id', t', callee, ms₂, rfl, h1, hcall, h2⟩ := ih he hd
      exact ⟨ms₁, s, k, id', t', callee, ms₂ ++ [.along id], by simp, h1, hcall,
        run_snoc h2 (step_read ht hj)⟩
    · cases a with
      | nil =>
        obtain ⟨hf, hb⟩ := List.cons.inj hd
        subst hf hb
        exact ⟨ms, e.state, e.position, id, t, callee, [], rfl, he, hcall, rfl⟩
      | cons g a =>
        obtain ⟨hg, ha⟩ := List.cons.inj hd
        subst hg
        obtain ⟨ms₁, s, k, id', t', callee', ms₂, rfl, h1, hcall', h2⟩ := ih he ha
        exact ⟨ms₁, s, k, id', t', callee', ms₂ ++ [.along id], by simp, h1, hcall',
          run_snoc h2 (step_call hcall)⟩
    · have ha : e.callers = (g :: a) ++ f :: b := by
        rw [hg, List.cons_append]
        exact congrArg _ hd
      obtain ⟨ms₁, s, k, id', t', callee, ms₂, rfl, h1, hcall, h2⟩ := ih he ha
      exact ⟨ms₁, s, k, id', t', callee, ms₂ ++ [.back], by simp, h1, hcall,
        run_snoc h2 (step_back hs')⟩

end Network

end RuleNetwork
