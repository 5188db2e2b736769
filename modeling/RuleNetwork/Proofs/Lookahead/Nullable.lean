import RuleNetwork.Proofs.Lookahead.Steps

/-!
The rules found to match nothing are those that a run goes through without reading. A round keeps to
such rules and finds one more unless it has found all; so the rounds end when there is none left.
-/

set_option autoImplicit false

namespace RuleNetwork

open Network Relation

namespace Grammar.Proper

variable {g : Grammar} (hg : g.Proper)
include hg

theorem has_start {r : Rule} (hr : r ∈ g.ruleList) : g.network.Has r.start := by
  obtain ⟨i, hi, -, -, hstart, -⟩ := hg.exists_rule hr
  rw [hstart]
  exact (hg.network.owns_start hi).has

end Grammar.Proper

namespace Grammar

/-- Every rule of the set can match nothing. -/
def KnowsNull (g : Grammar) (known : OrderedSet Int) : Prop :=
  ∀ r ∈ known.toList, g.network.Null g.rules.size r

/-- Rules found to match nothing are no more than there are rules. -/
theorem KnowsNull.size_le {g : Grammar} {known : OrderedSet Int} (h : g.KnowsNull known) :
    known.size ≤ g.rules.size := by
  have hmem : ∀ r ∈ known.toList, r ∈ (List.range g.rules.size).map Int.ofNat := fun r hr => by
    obtain ⟨i, hi, rfl, -⟩ := h r hr
    exact List.mem_map_of_mem (List.mem_range.2 hi)
  simpa using known.length_le hmem

/-- No rule out of some that a walk goes through without input is missing in the set. -/
def Exhausted (g : Grammar) (l : List Rule) (known : OrderedSet Int) : Prop :=
  ∀ r ∈ l, ReflTransGen (Search.Step (g.network.silentSteps known.contains)) r.start r.stop →
    known.contains r.index = true

namespace Proper

variable {g : Grammar} (hg : g.Proper)
include hg

/-- One rule of a round: it is added just if it is found to match nothing. -/
theorem visit_ok {r : Rule} (hr : r ∈ g.ruleList) (known : OrderedSet Int) :
    ∃ known', (do
        if known.contains r.index then return known
        if ← g.network.reachesStop known.contains r.start r.stop then return known.insert r.index
        return known : Except Fault (OrderedSet Int)) = .ok known' ∧
      known.size ≤ known'.size ∧ (g.KnowsNull known → g.KnowsNull known') ∧
      (known'.size ≤ known.size → known' = known ∧ g.Exhausted [r] known) := by
  obtain ⟨i, hi, -, hindex, hstart, hstop⟩ := hg.exists_rule hr
  by_cases hk : known.contains r.index = true
  · refine ⟨known, by rw [if_pos hk]; rfl, Nat.le_refl _, id, fun _ => ⟨rfl, fun r' hr' _ => ?_⟩⟩
    rw [List.mem_singleton.1 hr']
    exact hk
  · obtain ⟨b, hb, hiff⟩ := hg.network.reachesStop_ok known.contains (hg.has_start hr) r.stop
    rw [if_neg hk]
    cases b with
    | true =>
      have hnot : r.index ∉ known.toList := fun hmem => hk ((known.contains_iff _).2 hmem)
      have hsize : (known.insert r.index).size = known.size + 1 := by
        rw [← OrderedSet.length_toList, OrderedSet.toList_insert_of_not_mem hnot, List.length_append,
          OrderedSet.length_toList]
        rfl
      refine ⟨known.insert r.index, bind_eq_ok.2 ⟨true, hb, rfl⟩, by omega, fun hnull r' hr' => ?_,
        fun hle => by omega⟩
      obtain hr' | rfl := (OrderedSet.mem_toList_insert _ _ _).1 hr'
      · exact hnull r' hr'
      · have hsteps := ReflTransGen.mono (fun _ _ => hg.network.silent_of_step fun r hr =>
          hnull r ((known.contains_iff r).1 hr)) _ _ (hiff.1 rfl)
        rw [hstart, hstop] at hsteps
        exact ⟨i, hi, hindex, skips_iff.2 hsteps⟩
    | false =>
      refine ⟨known, bind_eq_ok.2 ⟨false, hb, rfl⟩, Nat.le_refl _, id, fun _ => ⟨rfl, ?_⟩⟩
      intro r' hr' hreach
      rw [List.mem_singleton.1 hr'] at hreach
      exact absurd (hiff.2 hreach) (by simp)

theorem nullableRound_ok (known : OrderedSet Int) :
    ∃ known', g.nullableRound known = .ok known' ∧ known.size ≤ known'.size ∧
      (g.KnowsNull known → g.KnowsNull known') ∧
      (known'.size ≤ known.size → known' = known ∧ g.Exhausted g.ruleList known) := by
  unfold nullableRound
  obtain ⟨l, hlist⟩ : ∃ l, l = g.ruleList := ⟨_, rfl⟩
  have hl : ∀ r ∈ l, r ∈ g.ruleList := fun r hr => hlist ▸ hr
  rw [← hlist]
  clear hlist
  induction l generalizing known with
  | nil => exact ⟨known, rfl, Nat.le_refl _, id, fun _ => ⟨rfl, fun r hr => by cases hr⟩⟩
  | cons r l ih =>
    obtain ⟨d, hd, hsize, hnull, hlast⟩ := hg.visit_ok (hl r (List.mem_cons_self ..)) known
    obtain ⟨known', hk, hsize', hnull', hlast'⟩ := ih d fun r hr => hl r (List.mem_cons_of_mem _ hr)
    refine ⟨known', foldlM_cons_eq_ok.2 ⟨d, hd, hk⟩, Nat.le_trans hsize hsize',
      fun h => hnull' (hnull h), fun hle => ?_⟩
    obtain ⟨rfl, hr⟩ := hlast (by omega)
    obtain ⟨rfl, hl'⟩ := hlast' hle
    refine ⟨rfl, fun r' hr' => ?_⟩
    obtain rfl | hr' := List.mem_cons.1 hr'
    · exact hr r' (List.mem_singleton_self _)
    · exact hl' r' hr'

theorem nullableRounds_ok (bound : Nat) {known : OrderedSet Int} (h : g.KnowsNull known)
    (hb : g.rules.size < bound + known.size) :
    ∃ s, g.nullableRounds bound known = .ok s ∧ g.KnowsNull s ∧ g.Exhausted g.ruleList s := by
  induction bound generalizing known with
  | zero =>
    have := h.size_le
    omega
  | succ bound ih =>
    obtain ⟨known', hk, hsize, hnull, hlast⟩ := hg.nullableRound_ok known
    unfold nullableRounds
    by_cases heq : known'.size = known.size
    · obtain ⟨rfl, hexhausted⟩ := hlast (Nat.le_of_eq heq)
      exact ⟨known', bind_eq_ok.2 ⟨known', hk, by rw [if_pos heq]⟩, h, hexhausted⟩
    · obtain ⟨s, hs, hspec⟩ := ih (hnull h) (by omega)
      exact ⟨s, bind_eq_ok.2 ⟨known', hk, by rw [if_neg heq]; exact hs⟩, hspec⟩

/-- The rules that can match nothing are found without fail, and no others. -/
theorem nullable_ok : ∃ s, g.nullable = .ok s ∧
    ∀ r, s.contains r = true ↔ g.network.Null g.rules.size r := by
  have hempty : g.KnowsNull ∅ := fun r hr => by simp at hr
  obtain ⟨s, hs, hnull, hexhausted⟩ := hg.nullableRounds_ok (g.rules.size + 1) hempty (by omega)
  refine ⟨s, hs, fun r => ⟨fun hr => hnull r ((s.contains_iff r).1 hr), ?_⟩⟩
  rintro ⟨i, hi, rfl, hskips⟩
  have hclosed : ∀ i < g.rules.size, ReflTransGen (Search.Step (g.network.silentSteps s.contains))
      (startState i) (stopState i) → s.contains (Int.ofNat i) = true := fun i hi hreach => by
    obtain ⟨r, hr, hindex, hstart, hstop⟩ := hg.exists_mem_ruleList hi
    rw [← hstart, ← hstop] at hreach
    have := hexhausted r hr hreach
    rwa [hindex] at this
  exact hclosed i hi (hg.network.reach_of_skips hclosed hskips)

end Proper

end Grammar

end RuleNetwork
