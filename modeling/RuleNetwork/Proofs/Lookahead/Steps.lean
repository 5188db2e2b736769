import RuleNetwork.Grammar.Walk
import RuleNetwork.Proofs.Chart.Links
import RuleNetwork.Proofs.Graph.Search
import RuleNetwork.Proofs.Run.Silent

/-!
The steps of walks inside a rule of a proper network. They stay among the states of the rule and never
fail, so a walk finds all that its steps lead to. A walk without input goes where runs that read
nothing go, if it is told which rules can match nothing.
-/

set_option autoImplicit false

namespace RuleNetwork

open Relation

theorem Transition.next_of_ne {t : Transition} (h : t.kind ≠ .ruleCall) : t.next = t.target := by
  unfold next
  split
  · rename_i hk _
    exact absurd hk h
  · rfl

theorem Transition.next_of_call? {t : Transition} {callee follow : Int}
    (h : t.call? = some (callee, follow)) : t.next = follow := by
  obtain ⟨hk, -, hf⟩ := of_call? h
  unfold next
  rw [hk, hf]

theorem Transition.isFree_of_kind {t : Transition} (hk : t.kind ≠ .terminal) (hc : t.kind ≠ .ruleCall) :
    t.isFree = true := by
  unfold isFree
  split <;> simp_all

namespace Network

variable {n : Network} {rules : Nat} {s s' : Int} {nullable : Int → Bool}

/-- The state is in the network. -/
def Has (n : Network) (s : Int) : Prop := ∃ st, n.state s = .ok st

theorem Inside.has {r : Int} (h : n.Inside r s) : n.Has s := by
  obtain ⟨st, hs, -⟩ := h
  exact ⟨st, hs⟩

theorem Owns.has {r : Int} (h : n.Owns r s) : n.Has s := by
  obtain ⟨st, hs, -⟩ := h
  exact ⟨st, hs⟩

theorem Leaves.has {id : Int} {t : Transition} (h : n.Leaves s id t) : n.Has s := by
  obtain ⟨st, hs, -⟩ := h
  exact ⟨st, hs⟩

/-- The numbers of all states. -/
def ids (n : Network) : List Int := (List.range n.states.size).map Int.ofNat

theorem mem_ids_iff : s ∈ n.ids ↔ n.Has s := by
  unfold ids Has
  rw [List.mem_map]
  constructor
  · rintro ⟨i, hi, rfl⟩
    exact ⟨_, state_getElem (by simpa using List.mem_range.1 hi)⟩
  · rintro ⟨st, hs⟩
    obtain ⟨h0, hlt⟩ := lt_of_state hs
    exact ⟨s.toNat, List.mem_range.2 (by omega), Int.toNat_of_nonneg h0⟩

theorem length_ids_le : n.ids.length ≤ n.walkBound := by
  unfold ids walkBound
  rw [List.length_map, List.length_range]
  omega

namespace Proper

variable (hp : n.Proper rules)
include hp

/-- Where a walk goes on, in the same rule. -/
theorem inside_next {r id : Int} {t : Transition} (h : n.Leaves s id t) (ho : n.Owns r s) :
    n.Inside r t.next := by
  obtain ⟨hk, hi⟩ | ⟨callee, follow, -, hc, -, hi⟩ := hp.fits h ho
  · rw [Transition.next_of_ne hk]
    exact hi
  · rw [Transition.next_of_call? hc]
    exact hi

/-- The edges of a state are the ways out of it. -/
theorem edges_ok (hs : n.Has s) :
    ∃ l, n.edges s = .ok l ∧ ∀ e, e ∈ l ↔ e.2 = e.1.next ∧ ∃ id, n.Leaves s id e.1 := by
  obtain ⟨st, hs⟩ := hs
  obtain ⟨out, hout, hmem⟩ := hp.outgoing_ok hs
  refine exists_bind hs (exists_bind hout (exists_bind_mapM (fun t e => e = (t, t.next, st.rule))
    (fun t ht => ?_) fun steps hsteps hall => ⟨_, rfl, fun e => List.mem_filterMap.trans ?_⟩))
  · obtain ⟨id, ht⟩ := (hmem t).1 ht
    obtain ⟨st', hs', hrule⟩ := (hp.inside_next ht ⟨st, hs, rfl⟩).owns
    exact ⟨_, bind_eq_ok.2 ⟨st', hs', rfl⟩, by rw [hrule]⟩
  constructor
  · rintro ⟨x, hx, he⟩
    obtain ⟨t, ht, rfl⟩ := hsteps x hx
    simp only [if_true] at he
    cases he
    exact ⟨rfl, (hmem _).1 ht⟩
  · rintro ⟨he, ht⟩
    obtain ⟨x, hx, rfl⟩ := hall _ ((hmem _).2 ht)
    exact ⟨_, hx, by simp only [if_true, ← he]⟩

theorem silentSteps_ok (nullable : Int → Bool) (hs : n.Has s) :
    ∃ l, n.silentSteps nullable s = .ok l ∧
      ∀ b, b ∈ l ↔ ∃ id t, n.Leaves s id t ∧ isSilent nullable t = true ∧ t.next = b := by
  obtain ⟨l, hl, hmem⟩ := hp.edges_ok hs
  refine ⟨_, bind_eq_ok.2 ⟨l, hl, rfl⟩, fun b => ?_⟩
  simp only [List.mem_map, List.mem_filter, hmem]
  constructor
  · rintro ⟨e, ⟨⟨he, id, ht⟩, hsilent⟩, rfl⟩
    exact ⟨id, e.1, ht, hsilent, he.symm⟩
  · rintro ⟨id, t, ht, hsilent, rfl⟩
    exact ⟨(t, t.next), ⟨⟨rfl, id, ht⟩, hsilent⟩, rfl⟩

theorem steps_ok (hs : n.Has s) :
    ∃ l, n.steps s = .ok l ∧ ∀ b, b ∈ l ↔ ∃ id t, n.Leaves s id t ∧ t.next = b := by
  obtain ⟨l, hl, hmem⟩ := hp.edges_ok hs
  refine ⟨_, bind_eq_ok.2 ⟨l, hl, rfl⟩, fun b => ?_⟩
  simp only [List.mem_map, hmem]
  constructor
  · rintro ⟨e, ⟨he, id, ht⟩, rfl⟩
    exact ⟨id, e.1, ht, he.symm⟩
  · rintro ⟨id, t, ht, rfl⟩
    exact ⟨(t, t.next), ⟨rfl, id, ht⟩, rfl⟩

theorem has_next {id : Int} {t : Transition} (h : n.Leaves s id t) : n.Has t.next := by
  obtain ⟨r, ho⟩ := h.owned
  exact (hp.inside_next h ho).has

theorem silentSteps_has (nullable : Int → Bool) (hs : n.Has s) :
    ∃ l, n.silentSteps nullable s = .ok l ∧ ∀ b ∈ l, n.Has b := by
  obtain ⟨l, hl, hmem⟩ := hp.silentSteps_ok nullable hs
  refine ⟨l, hl, fun b hb => ?_⟩
  obtain ⟨id, t, ht, -, rfl⟩ := (hmem b).1 hb
  exact hp.has_next ht

theorem step_silentSteps_iff :
    Search.Step (n.silentSteps nullable) s s' ↔
      ∃ id t, n.Leaves s id t ∧ isSilent nullable t = true ∧ t.next = s' := by
  constructor
  · rintro ⟨l, hl, hb⟩
    obtain ⟨e, he, -⟩ := bind_eq_ok.1 hl
    obtain ⟨st, hs, -⟩ := bind_eq_ok.1 he
    obtain ⟨l', hl', hmem⟩ := hp.silentSteps_ok nullable ⟨st, hs⟩
    exact (hmem _).1 ((Search.step_iff hl').1 ⟨l, hl, hb⟩)
  · rintro ⟨id, t, ht, hsilent, rfl⟩
    obtain ⟨l, hl, hmem⟩ := hp.silentSteps_ok nullable ht.has
    exact ⟨l, hl, (hmem _).2 ⟨id, t, ht, hsilent, rfl⟩⟩

theorem universe_silentSteps (nullable : Int → Bool) :
    Search.Universe (n.silentSteps nullable) n.ids := by
  intro a _ b hb
  obtain ⟨id, t, ht, -, rfl⟩ := hp.step_silentSteps_iff.1 hb
  exact mem_ids_iff.2 (hp.has_next ht)

/-- A search for the stop state finds it just if steps without input lead there. -/
theorem reachesStop_ok (nullable : Int → Bool) (hs : n.Has s) (stop : Int) :
    ∃ b, n.reachesStop nullable s stop = .ok b ∧
      (b = true ↔ ReflTransGen (Search.Step (n.silentSteps nullable)) s stop) := by
  obtain ⟨l, hl, -⟩ := Search.exists_depthFirst (P := n.Has)
    (fun a ha => hp.silentSteps_has nullable ha) (· == stop) n.walkBound hs
  exact ⟨_, bind_eq_ok.2 ⟨l, hl, rfl⟩, Search.contains_depthFirst_iff
    (hp.universe_silentSteps nullable) (mem_ids_iff.2 hs) length_ids_le hl⟩

end Proper

/-- The rule of the number can match nothing. -/
def Null (n : Network) (rules : Nat) (r : Int) : Prop :=
  ∃ i < rules, r = Int.ofNat i ∧ n.Skips (startState i) (stopState i)

namespace Proper

variable (hp : n.Proper rules)
include hp

/-- A step without input over rules that can match nothing is one of a run that reads nothing. -/
theorem silent_of_step (hnull : ∀ r, nullable r = true → n.Null rules r)
    (h : Search.Step (n.silentSteps nullable) s s') : n.Silent s s' := by
  obtain ⟨id, t, ht, hsilent, rfl⟩ := hp.step_silentSteps_iff.1 h
  obtain ⟨r, ho⟩ := ht.owned
  obtain ⟨hk, -⟩ | ⟨callee, follow, hlt, hc, htarget, -⟩ := hp.fits ht ho
  · rw [Transition.next_of_ne hk]
    refine .free ht (Transition.isFree_of_kind (fun hterm => ?_) hk)
    unfold isSilent at hsilent
    rw [hterm] at hsilent
    cases hsilent
  · rw [Transition.next_of_call? hc]
    obtain ⟨hkind, hrule, -⟩ := Transition.of_call? hc
    unfold isSilent at hsilent
    rw [hkind, hrule] at hsilent
    obtain ⟨i, hi, heq, hskips⟩ := hnull _ hsilent
    obtain rfl := Int.ofNat.inj heq
    rw [← htarget] at hskips
    exact .call ⟨ht, hc⟩ hskips (hp.ends_stop hi)

theorem step_of_isFree {id : Int} {t : Transition} (ht : n.Leaves s id t) (hf : t.isFree = true) :
    Search.Step (n.silentSteps nullable) s t.target := by
  refine hp.step_silentSteps_iff.2 ⟨id, t, ht, ?_, Transition.next_of_ne ?_⟩
  all_goals
    unfold Transition.isFree at hf
    split at hf <;> simp_all [isSilent]

theorem step_of_calls {id callee follow : Int} {t : Transition} (hc : n.Calls s id t callee follow)
    (hnull : nullable callee = true) : Search.Step (n.silentSteps nullable) s follow := by
  refine hp.step_silentSteps_iff.2 ⟨id, t, hc.1, ?_, Transition.next_of_call? hc.2⟩
  obtain ⟨hk, hr, -⟩ := Transition.of_call? hc.2
  unfold isSilent
  rw [hk, hr]
  exact hnull

/-- Where a walk finds no further rule to match nothing, it goes wherever a run that reads nothing
does. -/
theorem reach_of_skips (hclosed : ∀ i < rules,
      ReflTransGen (Search.Step (n.silentSteps nullable)) (startState i) (stopState i) →
      nullable (Int.ofNat i) = true)
    (h : n.Skips s s') : ReflTransGen (Search.Step (n.silentSteps nullable)) s s' := by
  obtain ⟨ms, h⟩ := h
  induction hlen : ms.length using Nat.strongRecOn generalizing s s' ms with
  | ind len ih =>
    subst hlen
    obtain ⟨-, rfl⟩ | ⟨id, t, r, ht, hf, hlt, hr⟩ |
      ⟨id, t, callee, follow, q, z, r, hc, hlt, hlt', hq, hz, hr⟩ := silent_cases h
    · exact .refl
    · exact .head (hp.step_of_isFree ht hf) (ih _ hlt r hr rfl)
    · obtain ⟨owner, ho⟩ := hc.1.owned
      obtain ⟨i, hi, rfl, htarget, -⟩ := hp.of_calls hc ho
      rw [htarget] at hq
      obtain rfl := hp.eq_stop (hp.owns_of_run hq (hp.owns_start hi)) hz
      exact .head (hp.step_of_calls hc (hclosed i hi (ih _ hlt q hq rfl))) (ih _ hlt' r hr rfl)

/-- Told which rules can match nothing, a walk without input goes where runs that read nothing go. -/
theorem reach_iff_skips (hnull : ∀ r, nullable r = true ↔ n.Null rules r) :
    ReflTransGen (Search.Step (n.silentSteps nullable)) s s' ↔ n.Skips s s' := by
  have hsound : ∀ {s s'}, ReflTransGen (Search.Step (n.silentSteps nullable)) s s' → n.Skips s s' :=
    fun h =>
    skips_iff.2 (ReflTransGen.mono (fun _ _ => hp.silent_of_step fun r => (hnull r).1) _ _ h)
  exact ⟨hsound, hp.reach_of_skips fun i hi h => (hnull _).2 ⟨i, hi, rfl, hsound h⟩⟩

end Proper

end Network

end RuleNetwork
