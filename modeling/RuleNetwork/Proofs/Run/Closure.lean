import RuleNetwork.Proofs.Chart.Links
import RuleNetwork.Proofs.Run.Reach

/-!
Tests for lists of visits, and for lists of states, that a run cannot leave. A visit that is on no such
list is not reached, so a list that passes the test refutes that a run comes to any other visit; and a
token that is read in none of the states is never read.
-/

set_option autoImplicit false

namespace RuleNetwork

/-- What follows a visit along an arc is on the list too. -/
def Arc.closes (types : List String) (l : List Visit) (a : Arc) (v : Visit) : Bool :=
  if v.state ≠ a.source then true
  else
    match a.transition.kind with
    | .terminal => !(types[v.position]?).any a.transition.tokens.contains ||
      l.contains ⟨a.transition.target, v.origin, v.position + 1⟩
    | .epsilon | .predicate => l.contains ⟨a.transition.target, v.origin, v.position⟩
    | .ruleCall =>
      match a.transition.call? with
      | none => true
      | some (callee, follow) => l.contains ⟨a.transition.target, v.position, v.position⟩ &&
        l.all fun z => z.state ≠ 2 * callee + 1 || z.origin ≠ v.position ||
          l.contains ⟨follow, v.origin, z.position⟩

/-- Whatever the input, the arc leads from the states on the list to others on it. -/
def Arc.stays (l : List Int) (a : Arc) : Bool :=
  if a.source ∉ l then true
  else
    match a.transition.kind with
    | .terminal => a.transition.tokens.isEmpty || l.contains a.transition.target
    | .epsilon | .predicate => l.contains a.transition.target
    | .ruleCall =>
      match a.transition.call? with
      | none => true
      | some (_, follow) => l.contains a.transition.target && l.contains follow

namespace Network

variable {n : Network} {rules : Nat} {types : List String} {l : List Visit}

def closes (n : Network) (types : List String) (l : List Visit) : Bool :=
  n.arcs.all fun a => l.all (a.closes types l)

/-- A list that passes the test is closed. -/
theorem closed_of_closes (hp : n.Proper rules) {i : Nat} (hstart : ⟨startState i, 0, 0⟩ ∈ l)
    (h : n.closes types l = true) : n.Closed types (startState i) (· ∈ l) := by
  have hat : ∀ {s id : Int} {t : Transition} {o k : Nat}, (⟨s, o, k⟩ : Visit) ∈ l →
      n.Leaves s id t → (⟨s, id, t⟩ : Arc).closes types l ⟨s, o, k⟩ = true := fun hv ht =>
    List.all_eq_true.1 (List.all_eq_true.1 h _ (hp.mem_arcs.2 ht)) _ hv
  refine ⟨hstart, fun hv ht hr => ?_, fun hv hc => ?_, fun hv hc hz he ho => ?_⟩
  · have hclosed := hat hv ht
    unfold Transition.Reads at hr
    unfold Arc.closes at hclosed
    split at hr
    · rename_i hk
      obtain ⟨⟨x, hx, hmem⟩, rfl⟩ := hr
      simpa [hk, hx, hmem] using hclosed
    · exact hr.elim
    all_goals
      rename_i hk
      subst hr
      simpa [hk] using hclosed
  · have hclosed := hat hv hc.1
    simp only [Arc.closes, Transition.kind_of_call? hc.2, hc.2, ne_eq, not_true_eq_false, if_false,
      Bool.and_eq_true, List.contains_iff_mem] at hclosed
    exact hclosed.1
  · have hclosed := hat hv hc.1
    simp only [Arc.closes, Transition.kind_of_call? hc.2, hc.2, ne_eq, not_true_eq_false, if_false,
      Bool.and_eq_true] at hclosed
    obtain ⟨owner, hown⟩ := hc.1.owned
    obtain ⟨j, -, rfl, -⟩ := hp.of_calls hc hown
    obtain rfl := hp.eq_stop ho he
    have hresume := List.all_eq_true.1 hclosed.2 _ hz
    simpa [stopState] using hresume

/-- A run does not come to a visit that is missing from a closed list. -/
theorem not_reaches_of_closes (hp : n.Proper rules) {i : Nat} (hi : i < rules)
    (hstart : ⟨startState i, 0, 0⟩ ∈ l) (h : n.closes types l = true) {v : Visit} (hv : v ∉ l) :
    ¬ n.Reaches types (startState i) v :=
  fun hr => hv ((closed_of_closes hp hstart h).of_reaches hp hi hr)

section States

variable {l : List Int}

/-- The states of a list that no arc leaves are closed under runs on any input. -/
theorem closed_of_stays (hp : n.Proper rules) {i : Nat} (hstart : startState i ∈ l)
    (h : n.arcs.all (Arc.stays l) = true) (types : List String) :
    n.Closed types (startState i) (·.state ∈ l) := by
  have hat : ∀ {s id : Int} {t : Transition}, s ∈ l → n.Leaves s id t →
      (⟨s, id, t⟩ : Arc).stays l = true := fun _ ht => List.all_eq_true.1 h _ (hp.mem_arcs.2 ht)
  refine ⟨hstart, fun hs ht hr => ?_, fun hs hc => ?_, fun hs hc _ _ _ => ?_⟩
  · have hstays := hat hs ht
    obtain hf | hk := hr.isFree_or_terminal
    · have hkind := hf
      unfold Transition.isFree at hkind
      unfold Arc.stays at hstays
      split at hkind <;> simp_all
    · obtain ⟨⟨x, -, hx⟩, -⟩ := (Transition.reads_of_terminal hk).1 hr
      simpa [Arc.stays, hs, hk, List.ne_nil_of_mem hx] using hstays
  all_goals
    have hstays := hat hs hc.1
    simp only [Arc.stays, hs, not_true_eq_false, if_false, Transition.kind_of_call? hc.2, hc.2,
      Bool.and_eq_true, List.contains_iff_mem] at hstays
  · exact hstays.1
  · exact hstays.2

/-- Where a run reads a token it comes to a terminal that has it. -/
theorem exists_reading {c d : Config} {ms : List Move} (h : n.run types c ms = some d) {k : Nat}
    (hc : c.position ≤ k) (hd : k < d.position) :
    ∃ p e id t x, n.run types c p = some e ∧ n.Leaves e.state id t ∧ types[k]? = some x ∧
      x ∈ t.tokens := by
  induction ms generalizing c with
  | nil =>
    cases h
    omega
  | cons m ms ih =>
    obtain ⟨e, he, hr⟩ := run_cons_iff.1 h
    obtain hlt | hle := Nat.lt_or_ge k e.position
    · -- this step has read the token
      obtain ⟨id, t, k', rfl, ht, hk', rfl⟩ | ⟨id, t, callee, follow, -, -, rfl⟩ | ⟨-, -, f, r, -, rfl⟩ :=
        step_cases he
      · obtain hf | hk := hk'.isFree_or_terminal
        · obtain rfl := (Transition.reads_of_isFree hf).1 hk'
          exact absurd hlt (Nat.not_lt.2 hc)
        · obtain ⟨⟨x, hx, hmem⟩, rfl⟩ := (Transition.reads_of_terminal hk).1 hk'
          obtain rfl : k = c.position := by simp only at hlt; omega
          exact ⟨[], c, id, t, x, rfl, ht, hx, hmem⟩
      all_goals exact absurd hlt (Nat.not_lt.2 hc)
    · obtain ⟨p, e', id, t, x, hp', ht, hx, hmem⟩ := ih hr hle
      exact ⟨m :: p, e', id, t, x, run_cons_iff.2 ⟨e, he, hp'⟩, ht, hx, hmem⟩

/-- A token that no terminal at the states of a closed list has is not read. -/
theorem not_read_of_stays (hp : n.Proper rules) {i : Nat} (hi : i < rules) (hstart : startState i ∈ l)
    (h : n.arcs.all (Arc.stays l) = true) {x : String}
    (hx : (n.arcs.all fun a => !l.contains a.source || !a.transition.tokens.contains x) = true)
    {d : Config} {ms : List Move} (hrun : n.run types (.enter (startState i) 0) ms = some d) {k : Nat}
    (hk : k < d.position) : types[k]? ≠ some x := by
  intro htype
  obtain ⟨p, e, id, t, y, hp', ht, hy, hmem⟩ := exists_reading hrun (Nat.zero_le k) hk
  rw [htype] at hy
  cases hy
  have hin := (closed_of_stays hp hstart h types).of_reaches hp hi
    (v := ⟨e.state, e.origin, e.position⟩) ⟨p, e.callers, hp'⟩
  have hnot := List.all_eq_true.1 hx ⟨e.state, id, t⟩ (hp.mem_arcs.2 ht)
  simp only at hin
  simp [hin, hmem] at hnot

end States

end Network

end RuleNetwork
