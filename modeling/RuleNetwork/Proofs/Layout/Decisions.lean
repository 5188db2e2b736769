import RuleNetwork.Proofs.Chart.Choices
import RuleNetwork.Proofs.Layout.Compilation

/-!
The decision between the options of a rule. A rule whose body is a choice is entered at it, and it has
the lowest number of all decisions of the rule, since a choice numbers its decision before its options.
-/

set_option autoImplicit false

namespace RuleNetwork

open Network Layout

namespace Network

/-- A rule is entered at a state whose alternatives are the options in their order, and its end comes
after that of any option. -/
structure Decides (n : Network) (i : Nat) (options : List (Element Nat)) (s : Int) : Prop where
  enters : n.Exits (startState i) [free s]
  leads : ∃ entries z, n.Exits s (entries.map free) ∧ LaidOptions n options entries z ∧
    n.Exits z [free (stopState i)]

variable {n : Network} {rules : Nat} {s : Int} {l l' : List Transition}

theorem Exits.unique (h : n.Exits s l) (h' : n.Exits s l') : l = l' := by
  obtain ⟨-, -, -, st, hs, -, -, hl⟩ := h
  obtain ⟨-, -, -, st', hs', -, -, hl'⟩ := h'
  rw [hs] at hs'
  cases hs'
  exact Except.ok.inj (hl.symm.trans hl')

theorem length_of_laidOptions {options : List (Element Nat)} {entries : List Int} {z : Int}
    (h : LaidOptions n options entries z) : options.length = entries.length := by
  induction options generalizing entries with
  | nil =>
    cases entries with
    | nil => rfl
    | cons p r => exact h.elim
  | cons e options ih =>
    cases entries with
    | nil => exact h.elim
    | cons p r => rw [List.length_cons, List.length_cons, ih h.2]

namespace Decides

variable {i : Nat} {options : List (Element Nat)} (h : n.Decides i options s)
include h

theorem unique {s' : Int} (h' : n.Decides i options s') : s = s' := by
  have := h.enters.unique h'.enters
  simpa [free] using this

/-- A state with several options is one of a decision of its rule. -/
theorem exists_decision (hp : n.Proper rules) (hi : i < rules) (hlen : 2 ≤ options.length) :
    ∃ d ∈ n.decisions, d.state = s ∧ d.rule = i := by
  obtain ⟨entries, z, ⟨-, -, -, st, hs, -, -, hout⟩, hl, -⟩ := h.leads
  obtain ⟨id, hid⟩ := (h.enters.leaves_iff (free s)).2 (List.mem_singleton_self _)
  have hread : (free s).Reads [] 0 0 := rfl
  obtain ⟨st', hs', hrule, -⟩ := hp.inside_of_reads hid (hp.owns_start hi) hread
  rw [show (free s).target = s from rfl, hs] at hs'
  cases hs'
  have hcount := (mapM_eq_ok.1 hout).length_eq
  rw [List.length_map, ← length_of_laidOptions hl] at hcount
  have hdec : isDecision st = true := by
    unfold isDecision
    rw [Bool.and_eq_true, beq_iff_eq, decide_eq_true_eq]
    refine ⟨?_, by omega⟩
    by_contra hkind
    have := (hp.state hs).single hkind
    omega
  obtain ⟨d, hd, hstate⟩ := hp.exists_decision hs hdec
  obtain ⟨st', hs', -, hr, -⟩ := hp.mem_decisions hd
  rw [hstate, hs] at hs'
  cases hs'
  exact ⟨d, hd, hstate, hr.trans hrule⟩

end Decides

end Network

/-- Among the decision states of a rule that of its options comes first. -/
theorem decides_networkOf {bodies : List (Element Nat)} (hw : ∀ e ∈ bodies, e.Within (· < bodies.length))
    {i : Nat} {options : List (Element Nat)} (he : bodies[i]? = some (.choice options))
    (hlen : 2 ≤ options.length) :
    ∃ s, (networkOf bodies).Decides i options s ∧ ∀ {s' : Int} {st : State},
      (networkOf bodies).state s' = .ok st → st.kind = .decision → st.rule = i → s ≤ s' := by
  obtain ⟨hp, hlaid⟩ := proper_networkOf hw
  obtain ⟨s, q, hstart, hbody, hend⟩ := hlaid i _ he
  obtain ⟨a, b, r, rfl⟩ : ∃ a b r, options = a :: b :: r := by
    match options, hlen with
    | a :: b :: r, _ => exact ⟨a, b, r, rfl⟩
  obtain ⟨entries, hexits, hoptions⟩ := hbody
  refine ⟨s, ⟨hstart, entries, q, hexits, hoptions, hend⟩, fun {s' st} hst hkind hr => ?_⟩
  obtain ⟨c, hopens, hadded⟩ := opens_networkOf hw he
  have hs : s = ((Element.choice (a :: b :: r)).layout startState i c).1.entry := by
    have := hstart.unique hopens
    simpa [free] using this
  have hi : i < bodies.length := (List.getElem?_eq_some_iff.1 he).1
  obtain rfl | rfl | h := hadded hst hr
  · obtain ⟨st', hst', -, hk⟩ := hp.start i hi
    rw [hst] at hst'
    cases hst'
    rw [hk] at hkind
    cases hkind
  · obtain ⟨st', hst', -, hk⟩ := hp.stop i hi
    rw [hst] at hst'
    cases hst'
    rw [hk] at hkind
    cases hkind
  · exact hs ▸ h

namespace Builder

variable {b b' : Builder} {g : Grammar}

theorem rule_of_declaration (h : build.run.run b = (.ok g, b')) {j : Nat} {d : Declaration}
    (hd : b.rules[j]? = some d) : g.rules[j]? = some (ruleOf j d) := by
  obtain ⟨hr, -⟩ := build_ok h
  simp [hr, hd]

theorem exists_declaration (h : build.run.run b = (.ok g, b')) {j : Nat} (hj : j < g.rules.size) :
    ∃ d, b.rules[j]? = some d := by
  obtain ⟨hr, -⟩ := build_ok h
  rw [hr, List.size_toArray, List.length_mapIdx] at hj
  exact ⟨_, List.getElem?_eq_getElem hj⟩

/-- The rule of a declared choice among several options is decided at its first decision state. -/
theorem decides_of_build (h : build.run.run b = (.ok g, b')) {j : Nat} {d : Declaration}
    (hd : b.rules[j]? = some d) {options : List (Element String)}
    (hbody : d.body = some (.choice options)) (hlen : 2 ≤ options.length) :
    ∃ s, g.network.Decides j (renameAll b.number options) s ∧ ∀ {s' : Int} {st : State},
      g.network.state s' = .ok st → st.kind = .decision → st.rule = j → s ≤ s' := by
  obtain ⟨-, hnet, -, -, hwithin⟩ := build_ok h
  rw [hnet]
  refine decides_networkOf hwithin (i := j) ?_ ?_
  · simp [bodies, hd, bodyOf, hbody, Element.rename]
  · rwa [renameAll_eq_map, List.length_map]

end Builder

end RuleNetwork
