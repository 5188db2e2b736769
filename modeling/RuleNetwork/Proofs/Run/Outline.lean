import RuleNetwork.Proofs.Layout.Branches
import RuleNetwork.Proofs.Run.Trail

/-!
Outlines of walks. An outline follows a walk step by step, but of a completed call it may tell no more
than where it was made and where the callee began and ended. Which calls it opens is decided by the
invocations of caller and callee. A walk has one outline, and an outline that opens all calls has one
walk.
-/

set_option autoImplicit false

namespace RuleNetwork

/-- The steps of a walk, the last one outermost. -/
inductive Outline where
  | start
  | along (before : Outline) (transition : Int)
  /-- Through a callee and its steps. -/
  | through (before : Outline) (transition : Int) (inner : Outline)
  /-- Over a call as a whole: the state that calls, where the callee begins and where it ends. -/
  | over (before : Outline) (site : Int) (split stop : Nat)
  deriving DecidableEq, Repr, Inhabited

namespace Outline

/-- Past a completed call. -/
def past (opened : Bool) (before : Outline) (site transition : Int) (split stop : Nat)
    (inner : Outline) : Outline :=
  if opened then .through before transition inner else .over before site split stop

variable {b b' : Bool} {x x' y y' : Outline} {s s' id id' : Int} {p p' k k' : Nat}

theorem past_inj (h : past b x s id p k y = past b' x' s' id' p' k' y') :
    x = x' ∧ (b = true ∧ id = id' ∧ y = y' ∨ b = false ∧ s = s' ∧ p = p' ∧ k = k') := by
  cases b <;> cases b' <;> simp_all [past]

theorem past_ne_start : past b x s id p k y ≠ .start := by
  cases b <;> simp [past]

theorem past_ne_along : past b x s id p k y ≠ .along x' id' := by
  cases b <;> simp [past]

end Outline

theorem Transition.Reads.unique {t : Transition} {types : List String} {k j j' : Nat}
    (h : t.Reads types k j) (h' : t.Reads types k j') : j = j' := by
  obtain hf | hk := h.isFree_or_terminal
  · exact ((Transition.reads_of_isFree hf).1 h).trans ((Transition.reads_of_isFree hf).1 h').symm
  · exact ((Transition.reads_of_terminal hk).1 h).2.trans ((Transition.reads_of_terminal hk).1 h').2.symm

theorem Transition.Reads.call?_eq_none {t : Transition} {types : List String} {k j : Nat}
    (h : t.Reads types k j) : t.call? = none :=
  Option.eq_none_iff_forall_ne_some.2 fun _ hc => h.kind_ne (Transition.kind_of_call? hc)

namespace Network

variable {n : Network} {rules : Nat} {types : List String}
  {opens : Invocation → Invocation → Bool}

/-- A walk to a visit and its outline. -/
inductive Outlines (n : Network) (types : List String) (opens : Invocation → Invocation → Bool) :
    Nat → Visit → List Move → Outline → Prop where
  | start (j o : Nat) : Outlines n types opens j ⟨startState j, o, o⟩ [] .start
  | read {j : Nat} {u : Visit} {id : Int} {t : Transition} {k : Nat} {q : List Move} {x : Outline}
      (h : Outlines n types opens j u q x) (ht : n.Leaves u.state id t)
      (hr : t.Reads types u.position k) :
      Outlines n types opens j ⟨t.target, u.origin, k⟩ (q ++ [.along id]) (.along x id)
  | call {j i : Nat} {u : Visit} {id follow : Int} {t : Transition} {k : Nat} {q r : List Move}
      {x y : Outline} (h : Outlines n types opens j u q x) (hc : n.Calls u.state id t i follow)
      (hin : Outlines n types opens i ⟨stopState i, u.position, k⟩ r y) :
      Outlines n types opens j ⟨follow, u.origin, k⟩ (q ++ .along id :: (r ++ [.back]))
        (.past (opens ⟨j, u.origin⟩ ⟨i, u.position⟩) x u.state id u.position k y)

theorem Calls.unique {s id follow follow' : Int} {i i' : Nat} {t : Transition}
    (h : n.Calls s id t i follow) (h' : n.Calls s id t i' follow') : i = i' ∧ follow = follow' := by
  obtain ⟨hi, hf⟩ := Prod.mk.inj (Option.some.inj (h.2.symm.trans h'.2))
  exact ⟨Int.ofNat.inj hi, hf⟩

/-- Two walks in one invocation with the same moves lead to one visit. -/
theorem Walks.visit_unique {j : Nat} {u v : Visit} {ms : List Move} (h : n.Walks types j u ms)
    (h' : n.Walks types j v ms) (ho : u.origin = v.origin) : u = v := by
  obtain ⟨s, o, k⟩ := u
  obtain ⟨s', o', k'⟩ := v
  obtain rfl : o = o' := ho
  simpa [Visit.config] using h.symm.trans h'

namespace Outlines

variable {j : Nat} {v v' : Visit} {ms ms' : List Move} {x x' : Outline}

/-- The last step of a walk in its outline. -/
theorem cases (h : n.Outlines types opens j v ms x) :
    (ms = [] ∧ x = .start ∧ v = ⟨startState j, v.origin, v.origin⟩) ∨
    (∃ (u : Visit) (id : Int) (t : Transition) (q : List Move) (y : Outline),
      n.Outlines types opens j u q y ∧ u.origin = v.origin ∧ n.Leaves u.state id t ∧
      t.Reads types u.position v.position ∧ t.target = v.state ∧
      ms = q ++ [.along id] ∧ x = .along y id) ∨
    ∃ (u : Visit) (id : Int) (t : Transition) (i : Nat) (q r : List Move) (y z : Outline),
      n.Outlines types opens j u q y ∧ u.origin = v.origin ∧ n.Calls u.state id t i v.state ∧
      n.Outlines types opens i ⟨stopState i, u.position, v.position⟩ r z ∧
      ms = q ++ .along id :: (r ++ [.back]) ∧
      x = .past (opens ⟨j, u.origin⟩ ⟨i, u.position⟩) y u.state id u.position v.position z := by
  cases h with
  | start => exact .inl ⟨rfl, rfl, rfl⟩
  | read h ht hr => exact .inr (.inl ⟨_, _, _, _, _, h, rfl, ht, hr, rfl, rfl, rfl⟩)
  | call h hc hin => exact .inr (.inr ⟨_, _, _, _, _, _, _, _, h, rfl, hc, hin, rfl, rfl⟩)

theorem walks (hp : n.Proper rules) (hj : j < rules) (h : n.Outlines types opens j v ms x) :
    n.Walks types j v ms := by
  induction h with
  | start => rfl
  | read _ ht hr ih => exact (ih hj).snoc ht hr
  | call _ hc _ ih ihin =>
    obtain ⟨i, hi, hcallee, ht, -⟩ := hp.of_calls hc (hp.owns_of_walks hj (ih hj))
    obtain rfl := Int.ofNat.inj hcallee
    have hr := ihin hi
    rw [Walks, ← ht] at hr
    exact (ih hj).call hc hr (hp.ends_stop hi)

/-- The walk through a callee of which an outline tells. -/
theorem walks_callee {i : Nat} {u : Visit} {id follow : Int} {t : Transition} {k : Nat}
    {q r : List Move} {y : Outline} (hp : n.Proper rules) (hj : j < rules)
    (h : n.Outlines types opens j u q x) (hc : n.Calls u.state id t i follow)
    (hin : n.Outlines types opens i ⟨stopState i, u.position, k⟩ r y) :
    i < rules ∧ n.run types (.enter t.target u.position) r =
      some ⟨stopState i, u.position, k, []⟩ := by
  obtain ⟨i', hi, hcallee, ht, -⟩ := hp.of_calls hc (hp.owns_of_walks hj (h.walks hp hj))
  obtain rfl := Int.ofNat.inj hcallee
  rw [ht]
  exact ⟨hi, hin.walks hp hi⟩

/-- A walk has one outline. -/
theorem unique (hp : n.Proper rules) (hj : j < rules) (h : n.Outlines types opens j v ms x)
    (h' : n.Outlines types opens j v ms x') : x = x' := by
  induction h generalizing x' with
  | start =>
    obtain ⟨-, hx, -⟩ | ⟨_, _, _, _, _, -, -, -, -, -, hms, -⟩ |
      ⟨_, _, _, _, _, _, _, _, -, -, -, -, hms, -⟩ := h'.cases
    · exact hx.symm
    all_goals simp at hms
  | read h _ _ ih =>
    obtain ⟨hms, -⟩ | ⟨u, _, _, q, _, h₁, ho, -, -, -, hms, hx⟩ |
      ⟨_, _, _, _, _, _, _, _, -, -, -, -, hms, -⟩ := h'.cases
    · simp at hms
    · obtain ⟨rfl, hid⟩ := List.append_inj' hms rfl
      obtain ⟨hid, -⟩ := List.cons.inj hid
      obtain rfl := (h.walks hp hj).visit_unique (h₁.walks hp hj) ho.symm
      rw [hx, ih hj h₁, Move.along.inj hid]
    · rw [← List.cons_append, ← List.append_assoc] at hms
      have hlast := (List.append_inj' hms rfl).2
      simp at hlast
  | @call j i u _ _ _ _ _ _ _ _ h hc hin ih ihin =>
    obtain ⟨hms, -⟩ | ⟨_, _, _, _, _, -, -, -, -, -, hms, -⟩ |
      ⟨u₁, _, _, i₁, _, _, _, _, h₁, ho, hc₁, hin₁, hms, hx⟩ := h'.cases
    · simp at hms
    · rw [← List.cons_append, ← List.append_assoc] at hms
      have hlast := (List.append_inj' hms rfl).2
      simp at hlast
    · obtain ⟨hi, hrun⟩ := h.walks_callee hp hj hc hin
      obtain ⟨-, hrun₁⟩ := h₁.walks_callee hp hj hc₁ hin₁
      have hwalk := h.walks hp hj
      have hwalk₁ := h₁.walks hp hj
      rw [Walks, ho] at hwalk₁
      obtain ⟨rfl, rfl, rfl⟩ := lastCall_unique hwalk hc hrun hwalk₁ hc₁ hrun₁ hms
      obtain rfl := (h.walks hp hj).visit_unique (h₁.walks hp hj) ho.symm
      obtain rfl := hc.1.unique hc₁.1
      obtain rfl : i = i₁ := (hc.unique hc₁).1
      rw [hx, ih hj h₁, ihin hi hin₁]

/-- Where an outline leads is told by the outline, if the states whose calls it does not open make no
other call. -/
theorem visit_unique (honce : ∀ {a b}, opens a b = false → n.CallsOnce)
    (h : n.Outlines types opens j v ms x)
    (h' : n.Outlines types opens j v' ms' x) (ho : v.origin = v'.origin) : v = v' := by
  induction h generalizing v' ms' with
  | start =>
    obtain ⟨-, -, hv⟩ | ⟨_, _, _, _, _, -, -, -, -, -, -, hx⟩ |
      ⟨_, _, _, _, _, _, _, _, -, -, -, -, -, hx⟩ := h'.cases
    · rw [hv, ← ho]
    · cases hx
    · exact absurd hx.symm Outline.past_ne_start
  | @read _ _ _ t _ _ _ _ ht hr ih =>
    obtain ⟨-, hx, -⟩ | ⟨u, _, _, _, _, h₁, ho₁, ht₁, hr₁, htarget, -, hx⟩ |
      ⟨_, _, _, _, _, _, _, _, -, -, -, -, -, hx⟩ := h'.cases
    · cases hx
    · cases hx
      obtain rfl := ih h₁ (ho.trans ho₁.symm)
      obtain rfl := ht.unique ht₁
      obtain ⟨s, o, k⟩ := v'
      obtain rfl : t.target = s := htarget
      rw [hr.unique hr₁, ho]
    · exact absurd hx.symm Outline.past_ne_along
  | @call _ i _ _ _ _ _ _ _ _ _ _ hc _ ih ihin =>
    obtain ⟨-, hx, -⟩ | ⟨_, _, _, _, _, -, -, -, -, -, -, hx⟩ |
      ⟨u, _, _, i₁, _, _, _, _, h₁, ho₁, hc₁, hin₁, -, hx⟩ := h'.cases
    · exact absurd hx Outline.past_ne_start
    · exact absurd hx Outline.past_ne_along
    · obtain ⟨rfl, hrest⟩ := Outline.past_inj hx
      obtain rfl := ih h₁ (ho.trans ho₁.symm)
      obtain rfl := hrest.elim (fun h => h.2.1) fun h => honce h.1 hc hc₁
      obtain rfl := hc.1.unique hc₁.1
      obtain ⟨rfl, hfollow⟩ : i = i₁ ∧ _ := hc.unique hc₁
      obtain ⟨s, o, k⟩ := v'
      simp only at hfollow ho hrest hin₁
      rw [hfollow, ho]
      obtain ⟨-, -, rfl⟩ | ⟨-, -, -, rfl⟩ := hrest
      · rw [(Visit.mk.inj (ihin hin₁ rfl)).2.2]
      · rfl

end Outlines

/-- Every walk has an outline. -/
theorem Walks.exists_outlines (hp : n.Proper rules) (opens : Invocation → Invocation → Bool) {j : Nat}
    (hj : j < rules) {v : Visit} {ms : List Move} (h : n.Walks types j v ms) :
    ∃ x, n.Outlines types opens j v ms x := by
  induction hlen : ms.length using Nat.strongRecOn generalizing j v ms with
  | ind len ih =>
    subst hlen
    obtain ⟨rfl, hv⟩ | ⟨q, p, k, id, t, rfl, ht, hr, htarget, hq⟩ |
      ⟨q, p, k, id, t, callee, r, z, rfl, hc, hq, hr, hz⟩ := h.cases
    · rw [hv]
      exact ⟨_, .start j v.origin⟩
    · obtain ⟨x, hx⟩ := ih q.length (by simp) hj hq rfl
      have := hx.read ht hr
      rw [htarget] at this
      exact ⟨_, this⟩
    · obtain ⟨i, hi, rfl, ht, -⟩ := hp.of_calls hc (hp.owns_of_walks hj hq)
      obtain rfl := hp.eq_stop (hp.owns_of_run hr (by rw [ht]; exact hp.owns_start hi)) hz
      rw [ht] at hr
      obtain ⟨x, hx⟩ := ih q.length (by simp) hj hq rfl
      obtain ⟨y, hy⟩ := ih r.length (by simp; omega) hi (v := ⟨stopState i, k, v.position⟩) hr rfl
      exact ⟨_, hx.call hc hy⟩

/-- An outline that opens every call tells the walk. -/
theorem Outlines.walk_unique {j j' : Nat} {v v' : Visit} {ms ms' : List Move} {x : Outline}
    (h : n.Outlines types (fun _ _ => true) j v ms x)
    (h' : n.Outlines types (fun _ _ => true) j' v' ms' x) : ms = ms' := by
  induction h generalizing j' v' ms' with
  | start =>
    obtain ⟨rfl, -⟩ | ⟨_, _, _, _, _, -, -, -, -, -, -, hx⟩ |
      ⟨_, _, _, _, _, _, _, _, -, -, -, -, -, hx⟩ := h'.cases
    · rfl
    · cases hx
    · cases hx
  | read _ _ _ ih =>
    obtain ⟨-, hx, -⟩ | ⟨_, _, _, _, _, h₁, -, -, -, -, rfl, hx⟩ |
      ⟨_, _, _, _, _, _, _, _, -, -, -, -, -, hx⟩ := h'.cases
    · cases hx
    · cases hx
      rw [ih h₁]
    · cases hx
  | call _ _ _ ih ihin =>
    obtain ⟨-, hx, -⟩ | ⟨_, _, _, _, _, -, -, -, -, -, -, hx⟩ |
      ⟨_, _, _, _, _, _, _, _, h₁, -, -, hin₁, rfl, hx⟩ := h'.cases
    · cases hx
    · cases hx
    · cases hx
      rw [ih h₁, ihin hin₁]

end Network

end RuleNetwork
