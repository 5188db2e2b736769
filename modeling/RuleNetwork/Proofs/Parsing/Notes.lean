import RuleNetwork.Proofs.Chart.Groups
import RuleNetwork.Proofs.Parsing.Stages

/-!
What is noted of the useful visits: for every invocation the positions where it ends, and the visits
that call it with the state in which they resume.
-/

set_option autoImplicit false

namespace RuleNetwork

open Network

namespace Ties

variable {t : Ties} {v : Visit} {a : Invocation}

theorem endsOf_noteOpen (t : Ties) (b : Invocation) (v : Visit) :
    (t.noteOpen b v).endsOf a = t.endsOf a := by
  unfold noteOpen
  split <;> rfl

theorem callersOf_noteOpen (t : Ties) (b : Invocation) (v : Visit) :
    (t.noteOpen b v).callersOf a = t.callersOf a := by
  unfold noteOpen
  split <;> rfl

theorem mem_endsOf_noteEnd {b : Invocation} {k : Nat} :
    k ∈ (t.noteEnd b v).endsOf a ↔ k ∈ t.endsOf a ∨ (b = a ∧ k = v.position) := by
  unfold noteEnd endsOf
  rw [Std.HashMap.getD_insert]
  by_cases hb : b = a
  · subst hb
    simp
  · simp [hb]

theorem mem_callersOf_noteCall {e : Transition} {x : Visit × Int} :
    x ∈ (noteCall v t e).callersOf a ↔ x ∈ t.callersOf a ∨
      (x.1 = v ∧ v.position = a.origin ∧ e.call? = some (a.rule, x.2)) := by
  unfold noteCall
  split
  · rename_i callee follow hc
    unfold callersOf
    simp only [Std.HashMap.getD_insert]
    by_cases ha : (⟨callee, v.position⟩ : Invocation) = a
    · subst ha
      obtain ⟨w, f⟩ := x
      simp [hc, eq_comm]
    · obtain ⟨r, o⟩ := a
      have hne : ¬ (v.position = o ∧ callee = r) := fun h => ha (by rw [h.1, h.2])
      simp only [beq_iff_eq, ha, if_false, hc, Option.some.injEq, Prod.mk.injEq]
      constructor
      · exact .inl
      · rintro (h | ⟨-, ho, hr, -⟩)
        · exact h
        · exact absurd ⟨ho, hr⟩ hne
  · rename_i hc
    simp [hc]

theorem endsOf_noteCall (e : Transition) : (noteCall v t e).endsOf a = t.endsOf a := by
  unfold noteCall
  split <;> rfl

theorem endsOf_noteCalls (edges : List Transition) :
    (edges.foldl (noteCall v) t).endsOf a = t.endsOf a := by
  induction edges generalizing t with
  | nil => rfl
  | cons e edges ih => rw [List.foldl_cons, ih, endsOf_noteCall]

theorem mem_callersOf_noteCalls {edges : List Transition} {x : Visit × Int} :
    x ∈ (edges.foldl (noteCall v) t).callersOf a ↔ x ∈ t.callersOf a ∨
      (x.1 = v ∧ v.position = a.origin ∧ ∃ e ∈ edges, e.call? = some (a.rule, x.2)) := by
  induction edges generalizing t with
  | nil => simp
  | cons e edges ih =>
    rw [List.foldl_cons, ih, mem_callersOf_noteCall]
    constructor
    · rintro ((h | ⟨hv, ho, he⟩) | ⟨hv, ho, e', he', hc⟩)
      · exact .inl h
      · exact .inr ⟨hv, ho, e, List.mem_cons_self .., he⟩
      · exact .inr ⟨hv, ho, e', List.mem_cons_of_mem _ he', hc⟩
    · rintro (h | ⟨hv, ho, e', he', hc⟩)
      · exact .inl (.inl h)
      · obtain rfl | he' := List.mem_cons.1 he'
        · exact .inl (.inr ⟨hv, ho, hc⟩)
        · exact .inr ⟨hv, ho, e', he', hc⟩

/-- A visit at which the invocation ends. -/
def EndsAt (n : Network) (a : Invocation) (k : Nat) (v : Visit) : Prop :=
  n.Owns a.rule v.state ∧ n.Ends v.state ∧ v.origin = a.origin ∧ v.position = k

/-- A visit that calls the invocation. -/
def CallsAt (n : Network) (a : Invocation) (v : Visit) (follow : Int) : Prop :=
  v.position = a.origin ∧ ∃ id t, n.Calls v.state id t a.rule follow

variable {c : Chart} {i : Nat} {types : List String}

theorem note_ok (h : c.Recognizes i types) (ht : t.chart = c) (hv : c.contains v = true) :
    ∃ t', t.note v = .ok t' ∧
      (∀ a k, k ∈ t'.endsOf a ↔ k ∈ t.endsOf a ∨ EndsAt c.network a k v) ∧
      ∀ a x, x ∈ t'.callersOf a ↔ x ∈ t.callersOf a ∨ (x.1 = v ∧ CallsAt c.network a v x.2) := by
  have hp := h.index.grammar.network
  obtain ⟨j, hj, ⟨st, hs, hrule⟩, -⟩ := h.invocation_ok hv
  obtain ⟨out, hout, hmem⟩ := hp.outgoing_ok hs
  unfold note
  rw [ht]
  by_cases hk : st.kind = .ruleStop
  · have hends : c.network.Ends v.state := ⟨st, hs, hk⟩
    refine ⟨_, bind_eq_ok.2 ⟨st, hs, by rw [if_pos (by simpa using hk)]; rfl⟩, fun a k => ?_,
      fun a x => ?_⟩
    · rw [mem_endsOf_noteEnd, endsOf_noteOpen]
      refine or_congr_right ⟨?_, ?_⟩
      · rintro ⟨rfl, rfl⟩
        exact ⟨⟨st, hs, rfl⟩, hends, rfl, rfl⟩
      · rintro ⟨⟨st', hs', hr⟩, -, ho, hk⟩
        rw [hs] at hs'
        cases hs'
        exact ⟨by rw [hr, ho], hk.symm⟩
    · refine (iff_of_eq (congrArg (x ∈ ·) (t.callersOf_noteOpen _ v))).trans (or_iff_left ?_).symm
      rintro ⟨-, -, id, e, hc⟩
      exact not_leaves_of_ends hends hc.1
  · refine ⟨out.foldl (noteCall v) (t.noteOpen ⟨st.rule, v.origin⟩ v), bind_eq_ok.2 ⟨st, hs, ?_⟩,
      fun a k => ?_, fun a x => ?_⟩
    · rw [if_neg (by simpa using hk)]
      exact bind_eq_ok.2 ⟨out, hout, rfl⟩
    · rw [endsOf_noteCalls, endsOf_noteOpen]
      refine (or_iff_left ?_).symm
      rintro ⟨-, ⟨st', hs', hk'⟩, -⟩
      rw [hs] at hs'
      cases hs'
      exact hk hk'
    · rw [mem_callersOf_noteCalls, callersOf_noteOpen]
      refine or_congr_right (and_congr_right fun _ => and_congr_right fun _ => ?_)
      constructor
      · rintro ⟨e, he, hc⟩
        obtain ⟨id, hl⟩ := (hmem e).1 he
        exact ⟨id, e, hl, hc⟩
      · rintro ⟨id, e, hl, hc⟩
        exact ⟨e, (hmem e).2 ⟨id, hl⟩, hc⟩

/-- Noting never fails. -/
theorem notes_ok (h : c.Recognizes i types) (ht : t.chart = c) {l : List Visit}
    (hl : ∀ v ∈ l, c.contains v = true) :
    ∃ t', l.foldlM note t = .ok t' ∧
      (∀ a k, k ∈ t'.endsOf a ↔ k ∈ t.endsOf a ∨ ∃ v ∈ l, EndsAt c.network a k v) ∧
      ∀ a x, x ∈ t'.callersOf a ↔ x ∈ t.callersOf a ∨ (x.1 ∈ l ∧ CallsAt c.network a x.1 x.2) := by
  induction l generalizing t with
  | nil => exact ⟨t, rfl, by simp, by simp⟩
  | cons v l ih =>
    obtain ⟨t₁, h₁, hends₁, hcallers₁⟩ := note_ok h ht (hl v (List.mem_cons_self ..))
    obtain ⟨t₂, h₂, hends₂, hcallers₂⟩ := ih ((alike_note h₁).chart.trans ht)
      fun w hw => hl w (List.mem_cons_of_mem _ hw)
    refine ⟨t₂, foldlM_cons_eq_ok.2 ⟨t₁, h₁, h₂⟩, fun a k => ?_, fun a x => ?_⟩
    · rw [hends₂, hends₁, List.exists_mem_cons_iff, or_assoc]
    · rw [hcallers₂, hcallers₁, List.mem_cons, or_assoc, or_and_right]
      refine or_congr_right (or_congr_left ?_)
      constructor
      · rintro ⟨rfl, hx⟩
        exact ⟨rfl, hx⟩
      · rintro ⟨rfl, hx⟩
        exact ⟨rfl, hx⟩

end Ties

end RuleNetwork
