import RuleNetwork.Proofs.Attempt
import RuleNetwork.Proofs.Layout.Language
import RuleNetwork.Proofs.Run.Transport

/-!
What a piece of network reads. A run from the entry of a piece to the end of its rule passes the exit,
and what it reads on the way belongs to the language of the body; every word of that language is read
so.
-/

set_option autoImplicit false

open scoped Computability

namespace RuleNetwork

namespace Network

variable {n : Network} {types : List String}

theorem Exits.leaves_iff {s : Int} {l : List Transition} (h : n.Exits s l) (t : Transition) :
    (∃ id, n.Leaves s id t) ↔ t ∈ l := by
  obtain ⟨rule, kind, hk, st, hs, hr, rfl, hl⟩ := h
  rw [mem_of_mapM hl]
  constructor
  · rintro ⟨id, st', hs', hk', hid, ht⟩
    rw [hs] at hs'
    cases hs'
    exact ⟨id, hid, ht⟩
  · rintro ⟨id, hid, ht⟩
    exact ⟨id, st, hs, hk, hid, ht⟩

theorem Exits.not_ends {s : Int} {l : List Transition} (h : n.Exits s l) : ¬ n.Ends s := by
  obtain ⟨rule, kind, hk, st, hs, hr, rfl, hl⟩ := h
  rintro ⟨st', hs', hk'⟩
  rw [hs] at hs'
  cases hs'
  exact hk hk'

/-- The network reads a row of tokens from one state to another of the same invocation. -/
def Spans (n : Network) (a : Int) (w : List String) (b : Int) : Prop :=
  ∃ ms, n.run w ⟨a, 0, 0, []⟩ ms = some ⟨b, 0, w.length, []⟩

theorem Spans.refl (n : Network) (a : Int) : n.Spans a [] a := ⟨[], rfl⟩

theorem Spans.trans {a b c : Int} {u v : List String} (h : n.Spans a u b) (h' : n.Spans b v c) :
    n.Spans a (u ++ v) c := by
  obtain ⟨ms, h⟩ := h
  obtain ⟨ms', h'⟩ := h'
  have h₁ : n.run (u ++ v) ⟨a, 0, 0, []⟩ ms = some ⟨b, 0, 0 + (u.length - 0), []⟩ :=
    run_local_transport h 0 fun i hi => by
      rw [Nat.zero_add] at *
      exact List.getElem?_append_left hi
  have h₂ : n.run (u ++ v) ⟨b, 0, u.length, []⟩ ms' =
      some ⟨c, 0, u.length + (v.length - 0), []⟩ :=
    run_local_transport h' 0 fun i _ => by
      rw [Nat.zero_add, List.getElem?_append_right (by omega), Nat.add_sub_cancel_left]
  refine ⟨ms ++ ms', ?_⟩
  rw [Nat.zero_add, Nat.sub_zero] at h₁
  rw [List.length_append]
  exact run_trans h₁ h₂

theorem spans_free {a id : Int} {t : Transition} (h : n.Leaves a id t) (hf : t.isFree = true) :
    n.Spans a [] t.target :=
  ⟨[.along id], run_cons_iff.2 ⟨_, step_read h ((Transition.reads_of_isFree hf).2 rfl), rfl⟩⟩

theorem spans_token {a id : Int} {t : Transition} {x : String} (h : n.Leaves a id t)
    (hk : t.kind = .terminal) (hx : x ∈ t.tokens) : n.Spans a [x] t.target := by
  have hr : t.Reads [x] 0 1 := (Transition.reads_of_terminal hk).2 ⟨⟨x, rfl, hx⟩, rfl⟩
  exact ⟨[.along id], run_cons_iff.2 ⟨_, step_read h hr, rfl⟩⟩

theorem spans_call {a id callee follow z : Int} {t : Transition} {w : List String}
    (h : n.Calls a id t callee follow) (hw : n.Spans t.target w z) (hz : n.Ends z) :
    n.Spans a w follow := by
  obtain ⟨ms, hms⟩ := hw
  have h₁ := run_under hms [⟨follow, 0⟩]
  exact ⟨.along id :: (ms ++ [.back]), run_cons_iff.2 ⟨_, step_call h, run_snoc h₁ (step_back hz)⟩⟩

theorem Exits.spans_free {a b : Int} {l : List Transition} (h : n.Exits a l)
    (hb : Layout.free b ∈ l) : n.Spans a [] b := by
  obtain ⟨id, hid⟩ := (h.leaves_iff _).2 hb
  exact Network.spans_free hid rfl

end Network

open Network

section Written

variable {n : Network} {callee : Nat → Language String} {rules : Nat}

/-- The network reads every word of the body wherever the body is laid out. -/
def Element.Written (n : Network) (callee : Nat → Language String) (e : Element Nat) : Prop :=
  ∀ {a b : Int} {w : List String}, e.Laid n a b → w ∈ e.language callee → n.Spans a w b

theorem spans_of_rest {items : List (Element Nat)} (hitems : ∀ e ∈ items, e.Written n callee)
    {a b : Int} {w : List String} (hl : LaidRest n items a b) (hw : w ∈ productLanguage callee items) :
    n.Spans a w b := by
  induction items generalizing a w with
  | nil =>
    obtain rfl := (Language.mem_one w).1 hw
    obtain rfl := hl
    exact .refl n a
  | cons e r ih =>
    rw [List.forall_mem_cons] at hitems
    obtain ⟨p, q, hp, hpq, hq⟩ := hl
    obtain ⟨u, hu, v, hv, rfl⟩ := Language.mem_mul.1 hw
    exact (hp.spans_free (List.mem_singleton_self _)).trans
      ((hitems.1 hpq hu).trans (ih hitems.2 hq hv))

theorem exists_spans_of_options {options : List (Element Nat)}
    (hoptions : ∀ e ∈ options, e.Written n callee) {entries : List Int} {b : Int} {w : List String}
    (hl : LaidOptions n options entries b) (hw : w ∈ unionLanguage callee options) :
    ∃ p ∈ entries, n.Spans p w b := by
  induction options generalizing entries with
  | nil => exact absurd hw (Language.notMem_zero w)
  | cons e r ih =>
    rw [List.forall_mem_cons] at hoptions
    cases entries with
    | nil => exact hl.elim
    | cons p s =>
      obtain ⟨⟨q, hpq, hq⟩, hrs⟩ := hl
      obtain hw | hw := (Language.mem_add _ _ w).1 hw
      · refine ⟨p, List.mem_cons_self .., ?_⟩
        have h := (hoptions.1 hpq hw).trans (hq.spans_free (List.mem_singleton_self _))
        rwa [List.append_nil] at h
      · obtain ⟨p', hp', h⟩ := ih hoptions.2 hrs hw
        exact ⟨p', List.mem_cons_of_mem _ hp', h⟩

/-- A loop reads its body any number of times before it is left. -/
theorem spans_of_loop {a b p q : Int} {L : Language String}
    (hx : n.Exits a [Layout.free p, Layout.free b]) (hbody : ∀ w ∈ L, n.Spans p w q)
    (hq : n.Exits q [Layout.free a]) {w : List String} (hw : w ∈ L∗) : n.Spans a w b := by
  obtain ⟨l, rfl, hl⟩ := Language.mem_kstar.1 hw
  clear hw
  induction l with
  | nil => exact hx.spans_free (by simp)
  | cons u l ih =>
    rw [List.forall_mem_cons] at hl
    exact (hx.spans_free (by simp)).trans ((hbody u hl.1).trans
      ((hq.spans_free (List.mem_singleton_self _)).trans (ih hl.2)))

theorem written_choice {options : List (Element Nat)} (hoptions : ∀ e ∈ options, e.Written n callee) :
    (Element.choice options).Written n callee := by
  intro a b w hl hw
  match options, hoptions, hl, hw with
  | [e], hoptions, hl, hw =>
    obtain hw | hw := (Language.mem_add _ _ w).1 hw
    · exact hoptions e (List.mem_singleton_self e) hl hw
    · exact absurd hw (Language.notMem_zero w)
  | [], hoptions, ⟨entries, hx, hl⟩, hw | _ :: _ :: _, hoptions, ⟨entries, hx, hl⟩, hw =>
    obtain ⟨p, hp, h⟩ := exists_spans_of_options hoptions hl hw
    exact (hx.spans_free (List.mem_map_of_mem hp)).trans h

/-- Every word of its language is read by a piece, if that is so of the rules. -/
theorem spans_of_laid (hends : ∀ i < rules, n.Ends (stopState i))
    (hcallee : ∀ i < rules, ∀ w ∈ callee i, n.Spans (startState i) w (stopState i))
    (e : Element Nat) (he : e.Within (· < rules)) : e.Written n callee := by
  induction e using Element.induction with
  | token names =>
    rintro a b _ hl ⟨x, hx, rfl⟩
    obtain ⟨id, hid⟩ := (Exits.leaves_iff hl _).2 (List.mem_singleton_self _)
    exact spans_token hid rfl hx
  | call r =>
    intro a b w hl hw
    obtain ⟨id, hid⟩ := (Exits.leaves_iff hl _).2 (List.mem_singleton_self _)
    exact spans_call ⟨hid, rfl⟩ (hcallee r he w hw) (hends r he)
  | guard text =>
    intro a b w hl hw
    obtain rfl := (Language.mem_one w).1 hw
    obtain ⟨id, hid⟩ := (Exits.leaves_iff hl _).2 (List.mem_singleton_self _)
    exact spans_free hid rfl
  | empty =>
    intro a b w hl hw
    obtain rfl := (Language.mem_one w).1 hw
    obtain rfl := hl
    exact .refl n a
  | unknown => exact he.elim
  | sequence items ih =>
    have hitems : ∀ e ∈ items, e.Written n callee := fun e hmem => ih e hmem (allWithin_iff.1 he e hmem)
    intro a b w hl hw
    cases items with
    | nil => exact spans_of_rest hitems hl hw
    | cons e r =>
      rw [List.forall_mem_cons] at hitems
      obtain ⟨m, hm, hr⟩ := hl
      obtain ⟨u, hu, v, hv, rfl⟩ := Language.mem_mul.1 hw
      exact (hitems.1 hm hu).trans (spans_of_rest hitems.2 hr hv)
  | choice options ih => exact written_choice fun e hmem => ih e hmem (allWithin_iff.1 he e hmem)
  | star body ih =>
    rintro a b w ⟨p, q, hx, hpq, hq⟩ hw
    exact spans_of_loop hx (fun _ => ih he hpq) hq hw
  | plus body ih =>
    rintro a b w ⟨q, d, hpq, hq, hx⟩ hw
    obtain ⟨u, hu, v, hv, rfl⟩ := Language.mem_mul.1 hw
    exact (ih he hpq hu).trans ((hq.spans_free (List.mem_singleton_self _)).trans
      (spans_of_loop hx (fun _ => ih he hpq) hq hv))
  | option body ih =>
    rintro a b w ⟨p, q, hx, hpq, hq⟩ hw
    obtain hw | hw := (Language.mem_add _ _ w).1 hw
    · obtain rfl := (Language.mem_one w).1 hw
      exact hx.spans_free (by simp)
    · have h := (hx.spans_free (by simp)).trans ((ih he hpq hw).trans
        (hq.spans_free (List.mem_singleton_self _)))
      rwa [List.append_nil] at h

end Written

section Read

variable {n : Network} {types : List String} {callee : Nat → Language String} {rules : Nat}

/-- A run of at most `l` moves from one state to another of the same invocation. -/
def Network.Leads (n : Network) (types : List String) (l : Nat) (a z : Int) (k k' : Nat) : Prop :=
  ∃ o ms, ms.length ≤ l ∧ n.run types ⟨a, o, k, []⟩ ms = some ⟨z, o, k', []⟩

/-- A row of tokens that stands in the input between two positions. -/
def Stands (types : List String) (k : Nat) (w : List String) (k' : Nat) : Prop :=
  w <+: types.drop k ∧ k' = k + w.length

theorem Stands.nil (types : List String) (k : Nat) : Stands types k [] k :=
  ⟨List.nil_prefix, rfl⟩

theorem Stands.append {k j k' : Nat} {u v : List String} (h : Stands types k u j)
    (h' : Stands types j v k') : Stands types k (u ++ v) k' := by
  obtain ⟨⟨r, hr⟩, rfl⟩ := h
  obtain ⟨hv, rfl⟩ := h'
  refine ⟨?_, by rw [List.length_append, Nat.add_assoc]⟩
  rw [← List.drop_drop, ← hr, List.drop_left] at hv
  rw [← hr]
  exact (List.prefix_append_right_inj u).2 hv

theorem stands_one {k : Nat} {x : String} (h : types[k]? = some x) : Stands types k [x] (k + 1) := by
  obtain ⟨hk, rfl⟩ := List.getElem?_eq_some_iff.1 h
  refine ⟨?_, rfl⟩
  rw [List.drop_eq_getElem_cons hk]
  exact ⟨_, rfl⟩

namespace Network

theorem Leads.mono {l l' : Nat} {a z : Int} {k k' : Nat} (h : n.Leads types l a z k k')
    (hl : l ≤ l') : n.Leads types l' a z k k' := by
  obtain ⟨o, ms, hms, hr⟩ := h
  exact ⟨o, ms, by omega, hr⟩

/-- Nothing follows the end of a rule. -/
theorem Leads.of_ends {l : Nat} {a z : Int} {k k' : Nat} (h : n.Leads types l a z k k')
    (ha : n.Ends a) : k' = k := by
  obtain ⟨o, ms, -, hr⟩ := h
  cases ms with
  | nil => cases hr; rfl
  | cons m ms =>
    obtain ⟨e, he, -⟩ := run_cons_iff.1 hr
    obtain ⟨id, t, j, -, ht, -⟩ | ⟨id, t, r, f, -, ht, -⟩ | ⟨-, -, f, r, hf, -⟩ := step_cases he
    · exact absurd ht (not_leaves_of_ends ha)
    · exact absurd ht.1 (not_leaves_of_ends ha)
    · cases hf

/-- What a run to the end of a rule does first at a state with exits. -/
theorem Leads.exit {l : Nat} {a z : Int} {k k' : Nat} {exits : List Transition}
    (h : n.Leads types l a z k k') (hz : n.Ends z) (hx : n.Exits a exits) :
    ∃ t ∈ exits, ∃ l' < l,
      (∃ j, t.Reads types k j ∧ n.Leads types l' t.target z j k') ∨
      ∃ r follow s j, t.call? = some (r, follow) ∧ n.Ends s ∧
        n.Leads types l' t.target s k j ∧ n.Leads types l' follow z j k' := by
  obtain ⟨o, ms, hms, hr⟩ := h
  cases ms with
  | nil => cases hr; exact absurd hz hx.not_ends
  | cons m ms =>
    rw [List.length_cons] at hms
    obtain ⟨e, he, hr⟩ := run_cons_iff.1 hr
    obtain ⟨id, t, j, rfl, ht, hj, rfl⟩ | ⟨id, t, r, f, rfl, ⟨ht, hc⟩, rfl⟩ | ⟨-, -, f, r, hf, -⟩ :=
      step_cases he
    · exact ⟨t, (hx.leaves_iff t).1 ⟨id, ht⟩, ms.length, by omega,
        .inl ⟨j, hj, o, ms, Nat.le_refl _, hr⟩⟩
    · obtain ⟨ms₁, s, o', j, ms₂, rfl, h₁, hs, h₂⟩ := exists_return (a := []) hr (by simp)
      cases origin_of_run h₁
      rw [List.length_append, List.length_cons] at hms
      exact ⟨t, (hx.leaves_iff t).1 ⟨id, ht⟩, ms₁.length + ms₂.length, by omega,
        .inr ⟨r, f, s, j, hc, hs, ⟨k, ms₁, by omega, h₁⟩, ⟨o, ms₂, by omega, h₂⟩⟩⟩
    · cases hf

/-- A run leaves a state without calls and tokens by one of the free ways. -/
theorem Leads.free {l : Nat} {a z : Int} {k k' : Nat} (h : n.Leads types l a z k k')
    (hz : n.Ends z) (targets : List Int) (hx : n.Exits a (targets.map Layout.free)) :
    ∃ p ∈ targets, ∃ l' < l, n.Leads types l' p z k k' := by
  obtain ⟨t, ht, l', hl, h⟩ := h.exit hz hx
  obtain ⟨p, hp, rfl⟩ := List.mem_map.1 ht
  obtain ⟨j, hj, h⟩ | ⟨r, f, s, j, hc, -⟩ := h
  · obtain rfl : k = j := hj.symm
    exact ⟨p, hp, l', hl, h⟩
  · cases hc

theorem Leads.next {l : Nat} {a p z : Int} {k k' : Nat} (h : n.Leads types l a z k k')
    (hz : n.Ends z) (hx : n.Exits a [Layout.free p]) : ∃ l' < l, n.Leads types l' p z k k' := by
  obtain ⟨p', hp', l', hl, h⟩ := h.free hz [p] hx
  rw [List.mem_singleton.1 hp'] at h
  exact ⟨l', hl, h⟩

/-- A run of at most so many moves from the first state to the end of a rule passes the second one, and
what it reads on the way there is in the language. -/
def Crosses (n : Network) (types : List String) (l : Nat) (L : Language String) (a b : Int) : Prop :=
  ∀ (z : Int) (k k' : Nat), n.Ends z → n.Leads types l a z k k' →
    ∃ w ∈ L, ∃ j, Stands types k w j ∧ n.Leads types l b z j k'

namespace Crosses

variable {l : Nat} {L M : Language String} {a b c p q : Int}

theorem refl (a : Int) : n.Crosses types l 1 a a :=
  fun _ k _ _ h => ⟨[], rfl, k, .nil types k, h⟩

theorem trans (h : n.Crosses types l L a b) (h' : n.Crosses types l M b c) :
    n.Crosses types l (L * M) a c := by
  intro z k k' hz hr
  obtain ⟨u, hu, j, hj, hr⟩ := h _ _ _ hz hr
  obtain ⟨v, hv, j', hj', hr⟩ := h' _ _ _ hz hr
  exact ⟨u ++ v, Language.append_mem_mul hu hv, j', hj.append hj', hr⟩

/-- A single free way leads there without input. -/
theorem of_exits (hx : n.Exits a [Layout.free b]) : n.Crosses types l 1 a b := by
  intro z k k' hz hr
  obtain ⟨l', hl, hr⟩ := hr.next hz hx
  exact ⟨[], rfl, k, .nil types k, hr.mono (Nat.le_of_lt hl)⟩

theorem mono (h : n.Crosses types l L a b) (hLM : L ≤ M) : n.Crosses types l M a b := by
  intro z k k' hz hr
  obtain ⟨w, hw, hj⟩ := h _ _ _ hz hr
  exact ⟨w, hLM hw, hj⟩

/-- A choice between free ways, of which the run takes one. -/
theorem of_ways {targets : List Int} (hx : n.Exits a (targets.map Layout.free))
    (h : ∀ p ∈ targets, n.Crosses types l L p b) : n.Crosses types l L a b := by
  intro z k k' hz hr
  obtain ⟨p, hp, l', hl, hr⟩ := hr.free hz targets hx
  exact h p hp _ _ _ hz (hr.mono (Nat.le_of_lt hl))

/-- A run comes out of a loop, as each round leaves fewer moves. -/
theorem loop (hx : n.Exits a [Layout.free p, Layout.free b])
    (hbody : ∀ l' ≤ l, n.Crosses types l' L p q) (hq : n.Exits q [Layout.free a]) :
    n.Crosses types l L∗ a b := by
  induction l using Nat.strongRecOn with
  | ind l ih =>
    intro z k k' hz hr
    obtain ⟨p', hp', l₁, hl₁, hr⟩ := hr.free hz [p, b] hx
    obtain rfl | rfl : p = p' ∨ b = p' := by simpa [eq_comm] using hp'
    · obtain ⟨u, hu, j, hj, hr⟩ := hbody l₁ (Nat.le_of_lt hl₁) _ _ _ hz hr
      obtain ⟨l₂, hl₂, hr⟩ := hr.next hz hq
      have hlt := hl₂.trans hl₁
      obtain ⟨v, hv, j', hj', hr⟩ := ih l₂ hlt (fun l' hl' => hbody l' (hl'.trans (Nat.le_of_lt hlt)))
        _ _ _ hz hr
      refine ⟨u ++ v, ?_, j', hj.append hj', hr.mono (Nat.le_of_lt hlt)⟩
      exact (mul_kstar_le_kstar : _ ≤ L∗) (Language.append_mem_mul hu hv)
    · exact ⟨[], Language.nil_mem_kstar _, k, .nil types k, hr.mono (Nat.le_of_lt hl₁)⟩

end Crosses

end Network

/-- A run passes the body wherever it is laid out, and reads a word of it on the way. -/
def Element.Passed (n : Network) (types : List String) (callee : Nat → Language String) (l : Nat)
    (e : Element Nat) : Prop :=
  ∀ {a b : Int}, e.Laid n a b → n.Crosses types l (e.language callee) a b

theorem crosses_rest {l : Nat} {items : List (Element Nat)}
    (hitems : ∀ e ∈ items, e.Passed n types callee l) {a b : Int} (hl : LaidRest n items a b) :
    n.Crosses types l (productLanguage callee items) a b := by
  induction items generalizing a with
  | nil =>
    obtain rfl := hl
    exact .refl a
  | cons e r ih =>
    rw [List.forall_mem_cons] at hitems
    obtain ⟨p, q, hp, hpq, hq⟩ := hl
    have h := (Crosses.of_exits hp).trans ((hitems.1 hpq).trans (ih hitems.2 hq))
    rwa [one_mul] at h

theorem crosses_options {l : Nat} {options : List (Element Nat)}
    (hoptions : ∀ e ∈ options, e.Passed n types callee l) {entries : List Int} {b : Int}
    (hl : LaidOptions n options entries b) :
    ∀ p ∈ entries, n.Crosses types l (unionLanguage callee options) p b := by
  induction options generalizing entries with
  | nil =>
    cases entries with
    | nil => exact fun p hp => absurd hp List.not_mem_nil
    | cons p s => exact hl.elim
  | cons e r ih =>
    rw [List.forall_mem_cons] at hoptions
    cases entries with
    | nil => exact hl.elim
    | cons p s =>
      obtain ⟨⟨q, hpq, hq⟩, hrs⟩ := hl
      rw [List.forall_mem_cons]
      refine ⟨?_, fun p' hp' => (ih hoptions.2 hrs p' hp').mono fun _ => .inr⟩
      have h := (hoptions.1 hpq).trans (Crosses.of_exits hq)
      rw [mul_one] at h
      exact h.mono fun _ => .inl

theorem passed_choice {l : Nat} {options : List (Element Nat)}
    (hoptions : ∀ e ∈ options, e.Passed n types callee l) :
    (Element.choice options).Passed n types callee l := by
  intro a b hl
  match options, hoptions, hl with
  | [e], hoptions, hl =>
    exact Crosses.mono (hoptions e (List.mem_singleton_self e) hl) fun _ => .inl
  | [], hoptions, ⟨entries, hx, hl⟩ | _ :: _ :: _, hoptions, ⟨entries, hx, hl⟩ =>
    exact .of_ways hx (crosses_options hoptions hl)

/-- A run from the entry of a piece to the end of its rule passes the exit of the piece, and what it
reads on the way there is in the language of the body. -/
theorem passed_of_callee {l : Nat}
    (hcallee : ∀ l' < l, ∀ i < rules, ∀ z k k', n.Ends z → n.Leads types l' (startState i) z k k' →
      ∃ w ∈ callee i, Stands types k w k')
    (e : Element Nat) (he : e.Within (· < rules)) : e.Passed n types callee l := by
  induction e using Element.induction generalizing l with
  | token names =>
    intro a b hl z k k' hz h
    obtain ⟨t, ht, l', hll, h⟩ := h.exit hz hl
    obtain rfl := List.mem_singleton.1 ht
    obtain ⟨j, ⟨⟨x, hx, hn⟩, rfl⟩, h⟩ | ⟨r, f, s, j, hc, -⟩ := h
    · exact ⟨[x], ⟨x, hn, rfl⟩, k + 1, stands_one hx, h.mono (Nat.le_of_lt hll)⟩
    · cases hc
  | call r =>
    intro a b hl z k k' hz h
    obtain ⟨t, ht, l', hll, h⟩ := h.exit hz hl
    obtain rfl := List.mem_singleton.1 ht
    obtain ⟨j, hj, -⟩ | ⟨r', f, s, j, hc, hs, hin, h⟩ := h
    · exact hj.elim
    · cases hc
      obtain ⟨w, hw, hstands⟩ := hcallee l' hll r he s k j hs hin
      exact ⟨w, hw, j, hstands, h.mono (Nat.le_of_lt hll)⟩
  | guard text =>
    intro a b hl z k k' hz h
    obtain ⟨t, ht, l', hll, h⟩ := h.exit hz hl
    obtain rfl := List.mem_singleton.1 ht
    obtain ⟨j, hj, h⟩ | ⟨r, f, s, j, hc, -⟩ := h
    · obtain rfl : k = j := hj.symm
      exact ⟨[], rfl, k, .nil types k, h.mono (Nat.le_of_lt hll)⟩
    · cases hc
  | empty =>
    rintro a b rfl
    exact .refl a
  | unknown => exact he.elim
  | sequence items ih =>
    have hitems : ∀ e ∈ items, e.Passed n types callee l :=
      fun e hmem => ih e hmem hcallee (allWithin_iff.1 he e hmem)
    intro a b hl
    cases items with
    | nil => exact crosses_rest hitems hl
    | cons e r =>
      rw [List.forall_mem_cons] at hitems
      obtain ⟨m, hm, hr⟩ := hl
      exact (hitems.1 hm).trans (crosses_rest hitems.2 hr)
  | choice options ih =>
    exact passed_choice fun e hmem => ih e hmem hcallee (allWithin_iff.1 he e hmem)
  | star body ih =>
    rintro a b ⟨p, q, hx, hpq, hq⟩
    exact .loop hx (fun l' hl' => ih (fun _ hlt => hcallee _ (hlt.trans_le hl')) he hpq) hq
  | plus body ih =>
    rintro a b ⟨q, d, hpq, hq, hx⟩
    have hbody : ∀ l' ≤ l, n.Crosses types l' (body.language callee) a q :=
      fun l' hl' => ih (fun _ hlt => hcallee _ (hlt.trans_le hl')) he hpq
    have h := (Crosses.of_exits hq).trans (.loop hx hbody hq)
    rw [one_mul] at h
    exact (hbody l (Nat.le_refl l)).trans h
  | option body ih =>
    rintro a b ⟨p, q, hx, hpq, hq⟩
    have h := (ih hcallee he hpq).trans (Crosses.of_exits hq)
    rw [mul_one] at h
    have hways : n.Exits a ([p, b].map Layout.free) := hx
    exact .of_ways hways fun p' hp' => by
      obtain rfl | rfl : p' = p ∨ p' = b := by simpa using hp'
      · exact h.mono fun _ => .inr
      · exact (Crosses.refl p').mono fun _ => .inl

end Read

end RuleNetwork
