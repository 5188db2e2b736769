import RuleNetwork.Proofs.Layout.Composed
import RuleNetwork.Proofs.Layout.Compilation

/-!
Where a network branches. Only decisions have a choice, and nothing but a transition without input
leaves them, so a state that makes a call makes no other one.
-/

set_option autoImplicit false

namespace RuleNetwork

open Network

namespace Network

/-- Decisions are left without input. -/
def Branches (n : Network) : Prop :=
  ∀ ⦃s : Int⦄ ⦃st : State⦄, n.state s = .ok st → st.kind = .decision →
    ∀ id ∈ st.transitions, ∃ t, n.transition id = .ok t ∧ t.kind = .epsilon

/-- A state makes one call at most. -/
def CallsOnce (n : Network) : Prop :=
  ∀ ⦃s id id' callee callee' follow follow' : Int⦄ ⦃t t' : Transition⦄,
    n.Calls s id t callee follow → n.Calls s id' t' callee' follow' → id = id'

theorem Branches.callsOnce {n : Network} {rules : Nat} (h : n.Branches) (hp : n.Proper rules) :
    n.CallsOnce := by
  intro s id id' callee callee' follow follow' t t' hc hc'
  obtain ⟨⟨st, hs, -, hid, ht⟩, hcall⟩ := hc
  obtain ⟨⟨st', hs', -, hid', -⟩, -⟩ := hc'
  rw [hs] at hs'
  cases hs'
  by_cases hk : st.kind = .decision
  · obtain ⟨u, hu, huk⟩ := h hs hk id hid
    rw [ht] at hu
    cases hu
    rw [Transition.kind_of_call? hcall] at huk
    cases huk
  · have hone := (hp.state hs).single hk
    obtain ⟨i, hi, rfl⟩ := List.getElem_of_mem hid
    obtain ⟨j, hj, rfl⟩ := List.getElem_of_mem hid'
    obtain rfl : i = j := by omega
    rfl

end Network

namespace Layout

variable {a : Arena} {source : Int} {t : Transition}

theorem branches_fresh (h : a.network.Branches) (rule : Nat) (kind : StateKind) :
    (fresh rule kind a).2.network.Branches := by
  intro s st hs hk id hid
  obtain hs | ⟨-, rfl⟩ := state_of_fresh hs
  · exact h hs hk id hid
  · exact absurd hid List.not_mem_nil

theorem branches_connect (h : a.network.Branches)
    (ht : t.kind = .epsilon ∨
      ∃ st, a.network.state source = .ok st ∧ st.kind ≠ .decision) :
    (connect source t a).2.network.Branches := by
  intro s st hs hk id hid
  obtain ⟨st', hs', -, hk', heq | ⟨hsource, heq⟩⟩ := state_of_connect hs
  · obtain ⟨u, hu, huk⟩ := h hs' (hk'.trans hk) id (heq ▸ hid)
    exact ⟨u, transition_connect_of_ok hu, huk⟩
  · rw [heq, List.mem_append, List.mem_singleton] at hid
    obtain hid | rfl := hid
    · obtain ⟨u, hu, huk⟩ := h hs' (hk'.trans hk) id hid
      exact ⟨u, transition_connect_of_ok hu, huk⟩
    · refine ⟨t, transition_connect source t a, ht.resolve_right ?_⟩
      rintro ⟨st₁, hs₁, hk₁⟩
      have h0 := (state_eq_ok_iff.1 hs').1
      have h0' := (state_eq_ok_iff.1 hs₁).1
      obtain rfl : s = source := by omega
      rw [hs'] at hs₁
      cases hs₁
      exact hk₁ (hk'.trans hk)

/-- A layout leaves decisions without input if those before it are left so. -/
def KeepsBranches {α : Type} (f : Layout α) : Prop :=
  ∀ a : Arena, a.network.Branches → (f a).2.network.Branches

theorem keepsBranches_composed (rule : Nat) : Composed rule fun _ f => KeepsBranches f where
  pure _ _ h := h
  bind {_ _ f _} hf hg a h := hg (f a).1 (f a).2 (hf a h)
  fresh kind _ h := branches_fresh h rule kind
  epsilon _ _ _ h := branches_connect h (.inl rfl)
  step _ a h :=
    branches_connect (branches_fresh (branches_fresh h rule .basic) rule .basic)
      (.inr ⟨_, state_fresh_of_ok (state_fresh rule .basic a), by simp⟩)

theorem keepsBranches_layoutBounds (i n : Nat) : KeepsBranches (layoutBounds i n) := by
  induction n generalizing i with
  | zero => exact fun _ h => h
  | succ n ih =>
    exact fun a h => ih (i + 1) _ (branches_fresh (branches_fresh h i .ruleStart) i .ruleStop)

theorem keepsBranches_layoutRules (i : Nat) (bodies : List (Element Nat)) :
    KeepsBranches (layoutRules i bodies) := by
  induction bodies generalizing i with
  | nil => exact fun _ h => h
  | cons e bodies ih =>
    exact fun a h => ih (i + 1) _ ((keepsBranches_composed i).layoutRule e a h)

end Layout

theorem branches_networkOf (bodies : List (Element Nat)) : (networkOf bodies).Branches := by
  have hempty : (Arena.network {}).Branches := fun s _ hs _ _ _ => by
    have := lt_of_state hs
    have : (0 : Int) ≤ s ∧ s < 0 := this
    omega
  exact Layout.keepsBranches_layoutRules 0 bodies _
    (Layout.keepsBranches_layoutBounds 0 bodies.length {} hempty)

/-- In the network of a built grammar a state makes one call at most. -/
theorem Builder.callsOnce_of_build {b b' : Builder} {g : Grammar}
    (h : build.run.run b = (.ok g, b')) : g.network.CallsOnce := by
  have hp := (proper_of_build h).network
  rw [(build_ok h).2.1] at hp ⊢
  exact (branches_networkOf _).callsOnce hp

end RuleNetwork
