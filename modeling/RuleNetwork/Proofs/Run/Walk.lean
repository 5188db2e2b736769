import RuleNetwork.Proofs.Run.Reach
import RuleNetwork.Proofs.Run.Transport

/-!
Walks: runs that stay in one invocation, from the start of its rule. The last step of a walk reads, or
returns from a call that the walk made; the run up to a visit is the run into the visit's invocation
and a walk. A walk to the end of its rule is no part of a longer one, so two of them part somewhere.
-/

set_option autoImplicit false

namespace RuleNetwork

/-- The configuration of a visit with some calls open. -/
def Visit.config (v : Visit) (callers : List Frame) : Config :=
  ⟨v.state, v.origin, v.position, callers⟩

namespace Network

variable {n : Network} {rules : Nat} {types : List String} {i K : Nat}

/-- The moves lead from the start of a rule to the visit, in the invocation of the visit. -/
def Walks (n : Network) (types : List String) (i : Nat) (v : Visit) (ms : List Move) : Prop :=
  n.run types (.enter (startState i) v.origin) ms = some (v.config [])

/-- The first step of a run in one invocation. -/
theorem first_cases {s s' : Int} {o o' k k' : Nat} {ms : List Move}
    (h : n.run types ⟨s, o, k, []⟩ ms = some ⟨s', o', k', []⟩) :
    (ms = [] ∧ s' = s ∧ k' = k) ∨
    (∃ id t j r, ms = .along id :: r ∧ n.Leaves s id t ∧ t.Reads types k j ∧
      n.run types ⟨t.target, o, j, []⟩ r = some ⟨s', o', k', []⟩) ∨
    ∃ id t callee follow q z j r, ms = .along id :: (q ++ .back :: r) ∧
      n.Calls s id t callee follow ∧ n.run types (.enter t.target k) q = some ⟨z, k, j, []⟩ ∧
      n.Ends z ∧ n.run types ⟨follow, o, j, []⟩ r = some ⟨s', o', k', []⟩ := by
  cases ms with
  | nil =>
    cases h
    exact .inl ⟨rfl, rfl, rfl⟩
  | cons m ms =>
    obtain ⟨e, he, hr⟩ := run_cons_iff.1 h
    obtain ⟨id, t, j, rfl, ht, hj, rfl⟩ | ⟨id, t, callee, follow, rfl, hc, rfl⟩ |
      ⟨-, -, f, r, hf, -⟩ := step_cases he
    · exact .inr (.inl ⟨id, t, j, ms, rfl, ht, hj, hr⟩)
    · obtain ⟨q, z, o₁, j, r, rfl, hq, hz, hr⟩ := exists_return (a := []) hr (by simp)
      obtain rfl := origin_of_run hq
      exact .inr (.inr ⟨id, t, callee, follow, q, z, j, r, rfl, hc, hq, hz, hr⟩)
    · cases hf

/-- The last step of a walk. -/
theorem Walks.cases {i : Nat} {v : Visit} {ms : List Move} (h : n.Walks types i v ms) :
    (ms = [] ∧ v = ⟨startState i, v.origin, v.origin⟩) ∨
    (∃ q p j id t, ms = q ++ [.along id] ∧ n.Leaves p id t ∧ t.Reads types j v.position ∧
      t.target = v.state ∧ n.Walks types i ⟨p, v.origin, j⟩ q) ∨
    ∃ q p j id t callee r z, ms = q ++ .along id :: (r ++ [.back]) ∧
      n.Calls p id t callee v.state ∧ n.Walks types i ⟨p, v.origin, j⟩ q ∧
      n.run types (.enter t.target j) r = some ⟨z, j, v.position, []⟩ ∧ n.Ends z := by
  obtain ⟨x, o, k⟩ := v
  induction ms using List.reverseRecOn with
  | nil =>
    cases h
    exact .inl ⟨rfl, rfl⟩
  | append_singleton ms m =>
    obtain ⟨e, he, hm⟩ := run_append_iff.1 h
    obtain ⟨d, hs, hd⟩ := run_cons_iff.1 hm
    rw [run_nil, Option.some.injEq] at hd
    subst hd
    obtain ⟨id, t, j, rfl, ht, hj, hd⟩ | ⟨id, t, callee, follow, rfl, hc, hd⟩ |
      ⟨rfl, hends, f, r, hf, hd⟩ := step_cases hs
    · obtain ⟨s, o', k', l⟩ := e
      simp only [Visit.config, Config.mk.injEq] at hd
      obtain ⟨rfl, rfl, rfl, rfl⟩ := hd
      exact .inr (.inl ⟨ms, s, k', id, t, rfl, ht, hj, rfl, he⟩)
    · simp [Visit.config] at hd
    · obtain ⟨z, o', k', l⟩ := e
      simp only [Visit.config, Config.mk.injEq] at hd
      simp only at hf hends
      obtain ⟨rfl, rfl, rfl, rfl⟩ := hd
      subst hf
      obtain ⟨q, p, j, id, t, callee, r, rfl, hq, hc, hr⟩ :=
        exists_call (a := []) he (Nat.zero_le _) rfl
      obtain rfl := origin_of_run hr
      exact .inr (.inr ⟨q, p, o', id, t, callee, r, z, by simp, hc, hq, hr, hends⟩)

theorem Walks.snoc {i : Nat} {p id : Int} {o j k : Nat} {t : Transition} {q : List Move}
    (h : n.Walks types i ⟨p, o, j⟩ q) (ht : n.Leaves p id t) (hr : t.Reads types j k) :
    n.Walks types i ⟨t.target, o, k⟩ (q ++ [.along id]) :=
  run_snoc h (step_read ht hr)

/-- A call, the moves in the callee, the way back and the rest. -/
theorem length_over (id : Int) (q r : List Move) :
    (.along id :: (q ++ .back :: r) : List Move).length = q.length + r.length + 2 := by
  rw [List.length_cons, List.length_append, List.length_cons]
  omega

/-- Up to the end of a callee. -/
theorem run_into {p id callee follow z : Int} {o j k : Nat} {t : Transition} {r : List Move}
    (hc : n.Calls p id t callee follow)
    (hr : n.run types (.enter t.target j) r = some ⟨z, j, k, []⟩) (l : List Frame) :
    n.run types ⟨p, o, j, l⟩ (.along id :: r) = some ⟨z, j, k, ⟨follow, o⟩ :: l⟩ :=
  run_cons_iff.2 ⟨_, step_call hc, run_under hr (⟨follow, o⟩ :: l)⟩

/-- Over a call as a whole. -/
theorem run_over {p id callee follow z : Int} {j k : Nat} {t : Transition} {r : List Move}
    (hc : n.Calls p id t callee follow)
    (hr : n.run types (.enter t.target j) r = some ⟨z, j, k, []⟩) (hz : n.Ends z) (o : Nat)
    (l : List Frame) :
    n.run types ⟨p, o, j, l⟩ (.along id :: (r ++ [.back])) = some ⟨follow, o, k, l⟩ :=
  run_snoc (run_into hc hr l) (step_back hz)

theorem Walks.call {i : Nat} {p id callee follow z : Int} {o j k : Nat} {t : Transition}
    {q r : List Move} (h : n.Walks types i ⟨p, o, j⟩ q) (hc : n.Calls p id t callee follow)
    (hr : n.run types (.enter t.target j) r = some ⟨z, j, k, []⟩) (hz : n.Ends z) :
    n.Walks types i ⟨follow, o, k⟩ (q ++ .along id :: (r ++ [.back])) :=
  run_trans h (run_over hc hr hz o [])

/-- A run that can go no further. -/
theorem not_run_of_ends {z : Int} {o k : Nat} {m : Move} {r : List Move} {d : Config}
    (hz : n.Ends z) : n.run types ⟨z, o, k, []⟩ (m :: r) ≠ some d := by
  intro h
  obtain ⟨e, he, -⟩ := run_cons_iff.1 h
  obtain ⟨id, t, j, -, ht, -⟩ | ⟨id, t, callee, follow, -, hc, -⟩ | ⟨-, -, f, l, hf, -⟩ :=
    step_cases he
  · exact not_leaves_of_ends hz ht
  · exact not_leaves_of_ends hz hc.1
  · cases hf

/-- A run through a callee cannot have come back before. -/
theorem eq_nil_of_return {t z s' : Int} {k k' o' j' : Nat} {f : Frame} {r y rest : List Move}
    (hr : n.run types (.enter t k) r = some ⟨z, k, k', []⟩)
    (hy : n.run types ⟨t, k, k, [f]⟩ y = some ⟨s', o', j', []⟩) (heq : r ++ [.back] = y ++ rest) :
    rest = [] := by
  obtain ⟨y₁, z₁, o₁, j₁, y₂, rfl, hy₁, hz₁, -⟩ := exists_return (a := []) hy (Nat.le_refl 0)
  obtain rfl | ⟨rest', m, rfl⟩ := List.eq_nil_or_concat rest
  · rfl
  · rw [List.concat_eq_append, ← List.append_assoc] at heq
    obtain ⟨rfl, -⟩ := List.append_inj' heq rfl
    rw [List.append_assoc] at hr
    obtain ⟨e, he, hrest⟩ := run_append_iff.1 hr
    change n.run types (.enter t k) y₁ = _ at hy₁
    rw [hy₁] at he
    cases he
    exact absurd hrest (not_run_of_ends hz₁)

/-- A walk has one last call. -/
theorem lastCall_unique {c : Config} {p p' id id' callee callee' follow follow' z z' : Int}
    {o o' k k' j j' : Nat} {t t' : Transition} {q q' r r' : List Move}
    (hq : n.run types c q = some ⟨p, o, k, []⟩) (hc : n.Calls p id t callee follow)
    (hr : n.run types (.enter t.target k) r = some ⟨z, k, j, []⟩)
    (hq' : n.run types c q' = some ⟨p', o', k', []⟩) (hc' : n.Calls p' id' t' callee' follow')
    (hr' : n.run types (.enter t'.target k') r' = some ⟨z', k', j', []⟩)
    (heq : q ++ .along id :: (r ++ [.back]) = q' ++ .along id' :: (r' ++ [.back])) :
    q = q' ∧ id = id' ∧ r = r' := by
  -- the later of two last calls would fall into the run through the callee of the earlier one
  have key : ∀ {p id callee follow z : Int} {o k j : Nat} {t : Transition} {q r x rest : List Move}
      {s' : Int} {o' k' : Nat}, n.run types c q = some ⟨p, o, k, []⟩ → n.Calls p id t callee follow →
      n.run types (.enter t.target k) r = some ⟨z, k, j, []⟩ →
      n.run types c (q ++ x) = some ⟨s', o', k', []⟩ → .along id :: (r ++ [.back]) = x ++ rest →
      rest ≠ [] → x = [] := by
    intro p id callee follow z o k j t q r x rest s' o' k' hq hc hr hqx hx hrest
    cases x with
    | nil => rfl
    | cons m x =>
      obtain ⟨rfl, htail⟩ := List.cons.inj hx
      obtain ⟨e, he, hrun⟩ := run_append_iff.1 hqx
      rw [hq] at he
      cases he
      obtain ⟨d, hd, hrun⟩ := run_cons_iff.1 hrun
      rw [step_call hc] at hd
      cases hd
      exact absurd (eq_nil_of_return hr hrun htail) hrest
  obtain ⟨x, rfl, hx⟩ | ⟨x, rfl, hx⟩ := List.append_eq_append_iff.1 heq
  · obtain rfl := key hq hc hr hq' hx (List.cons_ne_nil _ _)
    obtain ⟨hid, hrr⟩ := List.cons.inj hx
    exact ⟨by simp, Move.along.inj hid, (List.append_inj' hrr rfl).1⟩
  · obtain rfl := key hq' hc' hr' hq hx (List.cons_ne_nil _ _)
    obtain ⟨hid, hrr⟩ := List.cons.inj hx
    exact ⟨by simp, (Move.along.inj hid).symm, (List.append_inj' hrr rfl).1.symm⟩

/-- Where two runs to the end of a rule part: at a state with a choice. -/
theorem exists_parting {c : Config} {z z' : Int} {o o' k k' : Nat} {ms ms' : List Move}
    (h : n.run types c ms = some ⟨z, o, k, []⟩) (hz : n.Ends z)
    (h' : n.run types c ms' = some ⟨z', o', k', []⟩) (hz' : n.Ends z') (hne : ms ≠ ms') :
    ∃ p d id id' r r', ms = p ++ .along id :: r ∧ ms' = p ++ .along id' :: r' ∧ id ≠ id' ∧
      n.run types c p = some d := by
  induction ms generalizing c ms' with
  | nil =>
    cases h
    cases ms' with
    | nil => exact absurd rfl hne
    | cons m ms' => exact absurd h' (not_run_of_ends hz)
  | cons m ms ih =>
    cases ms' with
    | nil =>
      cases h'
      exact absurd h (not_run_of_ends hz')
    | cons m' ms' =>
      obtain ⟨e, he, hr⟩ := run_cons_iff.1 h
      obtain ⟨e', he', hr'⟩ := run_cons_iff.1 h'
      by_cases hm : m = m'
      · subst hm
        rw [he] at he'
        cases he'
        obtain ⟨p, d, id, id', r, r', rfl, rfl, hid, hp⟩ :=
          ih hr hr' (fun heq => hne (by rw [heq]))
        exact ⟨m :: p, d, id, id', r, r', rfl, rfl, hid, run_cons_iff.2 ⟨e, he, hp⟩⟩
      · -- the ways out and the way back never go together
        cases m with
        | along id =>
          cases m' with
          | along id' =>
            exact ⟨[], c, id, id', ms, ms', rfl, rfl, fun hid => hm (by rw [hid]), rfl⟩
          | back =>
            obtain ⟨t, ht, -⟩ := step_along_iff.1 he
            exact absurd ht (not_leaves_of_ends (step_back_iff.1 he').1)
        | back =>
          cases m' with
          | along id' =>
            obtain ⟨t, ht, -⟩ := step_along_iff.1 he'
            exact absurd ht (not_leaves_of_ends (step_back_iff.1 he).1)
          | back => exact absurd rfl hm

/-- A derivation of the first `K` tokens goes by the configuration. -/
def Passes (n : Network) (types : List String) (i K : Nat) (c : Config) : Prop :=
  (∃ p, n.run types (.enter (startState i) 0) p = some c) ∧
    ∃ q, n.run types c q = some ⟨stopState i, 0, K, []⟩

/-- A derivation of the first `K` tokens goes by the visit. -/
def Visits (n : Network) (types : List String) (i K : Nat) (v : Visit) : Prop :=
  ∃ l, n.Passes types i K (v.config l)

theorem Passes.visits {s : Int} {o k : Nat} {l : List Frame}
    (h : n.Passes types i K ⟨s, o, k, l⟩) : n.Visits types i K ⟨s, o, k⟩ := ⟨l, h⟩

/-- A run in one invocation, from the start of its rule to the visit `e`, goes by the visit `v`. A
derivation is such a run of the start rule. -/
def Along (n : Network) (types : List String) (j : Nat) (e v : Visit) : Prop :=
  ∃ l, (∃ p, n.run types (.enter (startState j) e.origin) p = some (v.config l)) ∧
    ∃ q, n.run types (v.config l) q = some (e.config [])

namespace Proper

/-- A run up to a visit enters the visit's invocation and then walks in it. -/
theorem exists_walk (hp : n.Proper rules) {i₀ k₀ : Nat} (hi₀ : i₀ < rules) {v : Visit}
    {l : List Frame} {ms : List Move}
    (h : n.run types (.enter (startState i₀) k₀) ms = some (v.config l)) :
    ∃ i < rules, ∃ p q, ms = p ++ q ∧ n.Walks types i v q ∧ n.Owns i v.state ∧
      n.run types (.enter (startState i₀) k₀) p =
        some ((Config.enter (startState i) v.origin).under l) := by
  obtain ⟨s, o, k⟩ := v
  cases l with
  | nil =>
    obtain rfl := origin_of_run h
    exact ⟨i₀, hi₀, [], ms, rfl, h, hp.owns_of_run h (hp.owns_start hi₀), by simp⟩
  | cons f l =>
    obtain ⟨p, s', j, id, t, callee, q, rfl, hrun, hc, hq⟩ :=
      exists_call (a := []) h (Nat.zero_le _) rfl
    obtain ⟨r, hr⟩ := hc.1.owned
    obtain ⟨i, hi, -, ht, -⟩ := hp.of_calls hc hr
    rw [ht] at hq
    obtain rfl := origin_of_run hq
    refine ⟨i, hi, p ++ [.along id], q, by simp, hq, hp.owns_of_run hq (hp.owns_start hi), ?_⟩
    have hstep := run_snoc hrun (step_call (l := l) hc)
    rw [ht] at hstep
    exact hstep

/-- All walks to a visit are through the rule that the visit's state belongs to. -/
theorem owns_of_walks (hp : n.Proper rules) {i : Nat} (hi : i < rules) {v : Visit} {ms : List Move}
    (h : n.Walks types i v ms) : n.Owns i v.state :=
  hp.owns_of_run h (hp.owns_start hi)

/-- Any visit of an invocation can be reached under the calls under which another one is. -/
theorem exists_run_under (hp : n.Proper rules) (hi : i < rules) {u v : Visit} {r : Int} {i₀ k₀ : Nat}
    (hi₀ : i₀ < rules) {l : List Frame} {p : List Move}
    (hv : n.run types (.enter (startState i₀) k₀) p = some (v.config l))
    (hu : n.Reaches types (startState i) u) (ho : u.origin = v.origin) (hrv : n.Owns r v.state)
    (hru : n.Owns r u.state) :
    ∃ p', n.run types (.enter (startState i₀) k₀) p' = some (u.config l) := by
  obtain ⟨j, -, p₀, q, -, -, hj, hentry⟩ := hp.exists_walk hi₀ hv
  obtain ⟨mu, lu, hu⟩ := hu
  obtain ⟨j', -, -, w, -, hw, hj', -⟩ := hp.exists_walk hi (v := u) hu
  obtain rfl : j = j' := Int.ofNat.inj ((hj.unique hrv).trans (hru.unique hj'))
  rw [← ho] at hentry
  exact ⟨p₀ ++ w, run_trans hentry (run_under hw l)⟩

end Proper

end Network

end RuleNetwork
