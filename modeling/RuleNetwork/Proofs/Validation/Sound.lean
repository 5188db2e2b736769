import RuleNetwork.Proofs.Lookahead.Nullable
import RuleNetwork.Proofs.Yield
import RuleNetwork.Validation.Check

/-!
Grammars in which every reference leads somewhere: rules and states are in the places they name, and
what a rule, a state or a transition refers to is there. A check without errors finds just that. More is
not taken for granted: transitions may cross from one rule into another, and a rule may stop in several
states.
-/

set_option autoImplicit false

namespace RuleNetwork

open Network

theorem Network.state_eq_ok {n : Network} {s : Int} {st : State} :
    n.state s = .ok st ↔ Position.forward? n.states s = some st := by
  unfold Network.state
  cases Position.forward? n.states s <;> simp

theorem Network.transition_eq_ok {n : Network} {id : Int} {t : Transition} :
    n.transition id = .ok t ↔ Position.forward? n.transitions id = some t := by
  unfold Network.transition
  cases Position.forward? n.transitions id <;> simp

theorem Grammar.ruleAt_eq_ok {g : Grammar} {i : Int} {r : Rule} :
    g.ruleAt i = .ok r ↔ Position.forward? g.rules i = some r := by
  unfold Grammar.ruleAt
  cases Position.forward? g.rules i <;> simp

theorem Position.forward?_eq_some {α : Type} {xs : Array α} {i : Int} {a : α} :
    forward? xs i = some a ↔ ∃ n : Nat, i = n ∧ xs[n]? = some a := by
  unfold forward?
  constructor
  · intro h
    split at h
    · exact ⟨i.toNat, by omega, h⟩
    · cases h
  · rintro ⟨n, rfl, h⟩
    simpa using h

theorem Grammar.hasState_iff {g : Grammar} {s : Int} : g.hasState s = true ↔ g.network.Has s := by
  unfold hasState Has
  rw [Option.isSome_iff_exists]
  exact exists_congr fun st => state_eq_ok.symm

/-- What a transition refers to is there. A call enters its callee at the start and has a state to
resume in. -/
structure Transition.Resolves (t : Transition) (g : Grammar) : Prop where
  target : g.network.Has t.target
  call : t.kind = .ruleCall → ∃ callee follow r, t.call? = some (callee, follow) ∧
    g.ruleAt callee = .ok r ∧ r.start = t.target ∧ g.network.Has follow

/-- What a state refers to is there, and it bears the number of its place. -/
structure State.Sound (st : State) (g : Grammar) (s : Int) : Prop where
  id : st.id = s
  owner : ∃ r, g.ruleAt st.rule = .ok r
  transitions : ∀ id ∈ st.transitions, ∃ t, g.network.transition id = .ok t ∧ t.Resolves g

/-- A grammar in which every reference leads somewhere. -/
structure Grammar.Sound (g : Grammar) : Prop where
  index : ∀ {i : Nat} {r : Rule}, g.rules[i]? = some r → r.index = i
  start : ∀ r ∈ g.ruleList, g.network.Has r.start
  stop : ∀ r ∈ g.ruleList, g.network.Has r.stop
  entry : ∀ name ∈ g.entryRules, g.hasRule name = true
  state : ∀ {s st}, g.network.state s = .ok st → st.Sound g s

namespace Grammar

variable {g : Grammar}

/-- A proper grammar whose entry rules are declared. -/
theorem Proper.sound (hg : g.Proper) (hentry : ∀ name ∈ g.entryRules, g.hasRule name = true) :
    g.Sound where
  index h := (hg.rule h).1
  start r hr := hg.has_start hr
  stop r hr := by
    obtain ⟨i, hi, -, -, -, hstop⟩ := hg.exists_rule hr
    rw [hstop]
    exact (hg.network.owns_stop hi).has
  entry := hentry
  state {s st} hs := by
    have hst := hg.network.state hs
    obtain ⟨i, hi, hrule⟩ := hst.rule
    refine ⟨hst.id, ⟨_, by rw [hrule]; exact ruleAt_ok hi⟩, fun id hid => ?_⟩
    obtain ⟨t, ht, ⟨hk, hin⟩ | ⟨callee, follow, hlt, hcall, htarget, hin⟩⟩ := hst.fits id hid
    · exact ⟨t, ht, hin.has, fun h => absurd h hk⟩
    · refine ⟨t, ht, ?_, fun _ => ⟨_, follow, _, hcall, ruleAt_ok hlt, ?_, hin.has⟩⟩
      · rw [htarget]
        exact (hg.network.owns_start hlt).has
      · rw [htarget]
        exact (hg.rule (Array.getElem?_eq_getElem hlt)).2.1

section Findings

theorem mem_ruleFindings {i : Nat} {r : Rule} (hr : g.rules[i]? = some r) {f : Finding}
    (hf : f ∈ (if r.index = (i : Int) then [] else [.misplacedRule r.name r.index i]) ++
      [Bound.start, .stop].filterMap (g.boundFinding? r)) : f ∈ g.ruleFindings := by
  obtain ⟨hi, rfl⟩ := Array.getElem?_eq_some_iff.1 hr
  exact List.mem_flatten.2 ⟨_, List.mem_mapIdx.2 ⟨i, by simpa [ruleList] using hi, rfl⟩, hf⟩

theorem mem_stateFindings {i : Nat} {st : State} (hs : g.network.states[i]? = some st) {f : Finding}
    (hf : f ∈ (if st.id = (i : Int) then [] else [.misplacedState st.id i]) ++
      match Position.forward? g.rules st.rule with
      | none => [.missingOwner st.id st.rule]
      | some owner => g.ownedFindings st owner) : f ∈ g.stateFindings := by
  obtain ⟨hi, rfl⟩ := Array.getElem?_eq_some_iff.1 hs
  exact List.mem_flatten.2 ⟨_, List.mem_mapIdx.2 ⟨i, by simpa using hi, rfl⟩, hf⟩

theorem mem_ownedFindings {st : State} {owner : Rule} {id : Int} (hid : id ∈ st.transitions)
    {f : Finding}
    (hf : f ∈ (match Position.forward? g.network.transitions id with
      | none => [Finding.missingTransition owner.name st.id id]
      | some t => g.transitionFindings st owner t)) : f ∈ g.ownedFindings st owner :=
  List.mem_append_right _ (List.mem_flatMap.2 ⟨id, hid, hf⟩)

/-- Some findings are no errors. -/
def Clean (l : List Finding) : Prop := ∀ f ∈ l, f.isFatal = false

theorem has_of_clean {r : Rule} (h : Clean g.ruleFindings) {i : Nat} (hr : g.rules[i]? = some r)
    (b : Bound) : g.network.Has (b.stateOf r) := by
  by_contra hnot
  have hnone : Position.forward? g.network.states (b.stateOf r) = none := by
    rw [← Option.not_isSome_iff_eq_none]
    exact fun hsome => hnot (hasState_iff.1 hsome)
  have hmem : b ∈ [Bound.start, .stop] := by cases b <;> simp
  have hfound : g.boundFinding? r b = some (.missingBound r.name (b.stateOf r) b) := by
    simp only [boundFinding?, hnone]
  have := h _ (mem_ruleFindings hr (List.mem_append_right _ (List.mem_filterMap.2 ⟨b, hmem, hfound⟩)))
  cases this

theorem resolves_of_clean {st : State} {owner : Rule} {t : Transition}
    (h : Clean (g.transitionFindings st owner t)) : t.Resolves g := by
  unfold transitionFindings at h
  by_cases htarget : g.hasState t.target = true
  · refine ⟨hasState_iff.1 htarget, fun hk => ?_⟩
    rw [if_neg (by simp [htarget]), hk] at h
    simp only [callFindings] at h
    cases hr : t.rule.bind (Position.forward? g.rules) with
    | none =>
      rw [hr] at h
      cases h _ (List.mem_singleton_self _)
    | some r =>
      rw [hr] at h
      simp only at h
      obtain ⟨callee, hcallee, hr⟩ := Option.bind_eq_some_iff.1 hr
      have hstart : t.target = r.start := by
        by_contra hne
        rw [if_neg hne] at h
        cases h _ (List.mem_append_left _ (List.mem_singleton_self _))
      have hfollow : t.follow.any g.hasState = true := by
        by_contra hne
        rw [if_neg hne] at h
        cases h _ (List.mem_append_right _ (List.mem_singleton_self _))
      obtain ⟨follow, hf, hhas⟩ := (Option.any_eq_true _ _).1 hfollow
      refine ⟨callee, follow, r, ?_, ruleAt_eq_ok.2 hr, hstart.symm, hasState_iff.1 hhas⟩
      unfold Transition.call?
      rw [hk, hcallee, hf]
  · rw [if_pos (by simpa using htarget)] at h
    cases h _ (List.mem_singleton_self _)

theorem state_of_clean (h : Clean g.stateFindings) {s : Int} {st : State}
    (hs : g.network.state s = .ok st) : st.Sound g s := by
  obtain ⟨i, rfl, hi⟩ := Position.forward?_eq_some.1 (state_eq_ok.1 hs)
  have hid : st.id = i := by
    by_contra hne
    have := h (.misplacedState st.id i) (mem_stateFindings hi (by simp [hne]))
    cases this
  obtain ⟨owner, howner⟩ : ∃ owner, Position.forward? g.rules st.rule = some owner := by
    rw [← Option.isSome_iff_exists, Option.isSome_iff_ne_none]
    intro hnone
    have := h (.missingOwner st.id st.rule) (mem_stateFindings hi (by simp [hnone]))
    cases this
  have howned : Clean (g.ownedFindings st owner) := fun f hf =>
    h f (mem_stateFindings hi (by rw [howner]; exact List.mem_append_right _ hf))
  refine ⟨hid, ⟨owner, ruleAt_eq_ok.2 howner⟩, fun id hid => ?_⟩
  cases ht : Position.forward? g.network.transitions id with
  | none =>
    have := howned (.missingTransition owner.name st.id id) (mem_ownedFindings hid (by simp [ht]))
    cases this
  | some t =>
    have hclean : Clean (g.transitionFindings st owner t) := fun f hf =>
      howned f (mem_ownedFindings hid (by rw [ht]; exact hf))
    exact ⟨t, transition_eq_ok.2 ht, resolves_of_clean hclean⟩

/-- A check that finds no error finds every reference to lead somewhere. -/
theorem sound_of_clean (h : Clean g.structuralFindings) : g.Sound := by
  unfold structuralFindings at h
  simp only [Clean, List.mem_append] at h
  have hrules : Clean g.ruleFindings := fun f hf => h f (.inl (.inl (.inr hf)))
  have hstates : Clean g.stateFindings := fun f hf => h f (.inr hf)
  have hget : ∀ r ∈ g.ruleList, ∃ i : Nat, g.rules[i]? = some r := fun r hr =>
    Array.mem_iff_getElem?.1 (Array.mem_toList_iff.1 hr)
  refine ⟨fun {i r} hr => ?_, fun r hr => ?_, fun r hr => ?_, fun name hn => ?_,
    fun hs => state_of_clean hstates hs⟩
  · by_contra hne
    have := hrules (.misplacedRule r.name r.index i) (mem_ruleFindings hr (by simp [hne]))
    cases this
  · obtain ⟨i, hi⟩ := hget r hr
    exact has_of_clean hrules hi .start
  · obtain ⟨i, hi⟩ := hget r hr
    exact has_of_clean hrules hi .stop
  · by_contra hnot
    have hmem : Finding.unknownEntry name ∈ g.entryFindings :=
      List.mem_map_of_mem (List.mem_filter.2 ⟨hn, by simpa using hnot⟩)
    cases h _ (.inl (.inr hmem))

end Findings

end Grammar

end RuleNetwork
