import RuleNetwork.Proofs.Layout.Laid

/-!
What holds of every layout. A layout is put together from fresh states, single steps and connections
without input, so what these have, and what is kept as one follows the other, the layout of any body
has.

The rules that the states of an arena belong to. What lays out a body of a rule leaves the states that
there are to their rules, and numbers its own states from there on.
-/

set_option autoImplicit false

namespace RuleNetwork

namespace Layout

/-- A property of the parts of a layout in one rule that is kept as they are put together. -/
structure Composed (rule : Nat) (P : (α : Type) → Layout α → Prop) : Prop where
  pure : ∀ {α : Type} (x : α), P α (pure x)
  bind : ∀ {α β : Type} {f : Layout α} {g : α → Layout β}, P α f → (∀ x, P β (g x)) → P β (f >>= g)
  fresh : ∀ kind, P Int (fresh rule kind)
  epsilon : ∀ source target, P Unit (epsilon source target)
  step : ∀ t, P Piece (step rule t)

namespace Composed

variable {rule : Nat} {P : (α : Type) → Layout α → Prop} (h : Composed rule P) {startOf : Nat → Int}
include h

theorem point : P Piece (point rule) := h.bind (h.fresh .basic) fun _ => h.pure _

theorem rest {items : List (Element Nat)} (hitems : ∀ e ∈ items, P Piece (e.layout startOf rule))
    (exit : Int) : P Int (layoutRest startOf rule exit items) := by
  induction items generalizing exit with
  | nil => exact h.pure _
  | cons e r ih =>
    exact h.bind (hitems e (List.mem_cons_self ..)) fun p => h.bind (h.epsilon _ _) fun _ =>
      ih (fun e he => hitems e (List.mem_cons_of_mem _ he)) p.exit

theorem options {options : List (Element Nat)}
    (hoptions : ∀ e ∈ options, P Piece (e.layout startOf rule)) (decision finish : Int) :
    P Unit (layoutOptions startOf rule decision finish options) := by
  induction options with
  | nil => exact h.pure _
  | cons e r ih =>
    exact h.bind (hoptions e (List.mem_cons_self ..)) fun p => h.bind (h.epsilon _ _) fun _ =>
      h.bind (h.epsilon _ _) fun _ => ih fun e he => hoptions e (List.mem_cons_of_mem _ he)

/-- The connections of an option or a loop. -/
theorem join (s s' s'' t t' t'' : Int) (p : Piece) : P Piece (do
    Layout.epsilon s t
    Layout.epsilon s' t'
    Layout.epsilon s'' t''
    return p) :=
  h.bind (h.epsilon _ _) fun _ => h.bind (h.epsilon _ _) fun _ => h.bind (h.epsilon _ _) fun _ =>
    h.pure _

theorem layout (e : Element Nat) : P Piece (e.layout startOf rule) := by
  induction e using Element.induction with
  | token names => exact h.step _
  | call callee => exact h.step _
  | guard text => exact h.step _
  | empty => exact h.point
  | unknown => exact h.point
  | sequence items ih =>
    cases items with
    | nil => exact h.point
    | cons e r =>
      exact h.bind (ih e (List.mem_cons_self ..)) fun p =>
        h.bind (h.rest (fun e he => ih e (List.mem_cons_of_mem _ he)) p.exit) fun _ => h.pure _
  | choice options ih =>
    have hmany : P Piece (do
        let decision ← Layout.fresh rule .decision
        let finish ← Layout.fresh rule .basic
        layoutOptions startOf rule decision finish options
        return ⟨decision, finish⟩) :=
      h.bind (h.fresh .decision) fun _ => h.bind (h.fresh .basic) fun _ =>
        h.bind (h.options ih _ _) fun _ => h.pure _
    match options, ih, hmany with
    | [], _, hmany => exact hmany
    | [e], ih, _ => exact ih e (List.mem_cons_self ..)
    | _ :: _ :: _, _, hmany => exact hmany
  | star body ih =>
    exact h.bind (h.fresh .decision) fun _ => h.bind (h.fresh .basic) fun _ => h.bind ih fun _ =>
      h.join _ _ _ _ _ _ _
  | plus body ih =>
    exact h.bind ih fun _ => h.bind (h.fresh .decision) fun _ => h.bind (h.fresh .basic) fun _ =>
      h.join _ _ _ _ _ _ _
  | option body ih =>
    exact h.bind (h.fresh .decision) fun _ => h.bind (h.fresh .basic) fun _ => h.bind ih fun _ =>
      h.join _ _ _ _ _ _ _

theorem layoutRule (e : Element Nat) : P Unit (layoutRule rule e) :=
  h.bind (h.layout e) fun _ => h.bind (h.epsilon _ _) fun _ => h.epsilon _ _

end Composed

end Layout

open Network

namespace Layout

/-- All states of the second arena are those of the first, or new ones that belong to such a rule. -/
structure Adds (owner : Int → Prop) (a a' : Arena) : Prop where
  size : a.states.size ≤ a'.states.size
  state : ∀ {s st}, a'.network.state s = .ok st →
    (∃ st', a.network.state s = .ok st' ∧ st'.rule = st.rule) ∨
      (a.states.size : Int) ≤ s ∧ owner st.rule

variable {owner : Int → Prop} {rule : Nat} {a a' a'' : Arena}

theorem Adds.refl (a : Arena) : Adds owner a a := ⟨Nat.le_refl _, fun h => .inl ⟨_, h, rfl⟩⟩

theorem Adds.trans (h : Adds owner a a') (h' : Adds owner a' a'') : Adds owner a a'' := by
  refine ⟨Nat.le_trans h.size h'.size, fun {s st} hs => ?_⟩
  obtain ⟨st', hs', hr⟩ | ⟨hle, ho⟩ := h'.state hs
  · obtain ⟨st'', hs'', hr'⟩ | ⟨hle, ho⟩ := h.state hs'
    · exact .inl ⟨st'', hs'', hr'.trans hr⟩
    · exact .inr ⟨hle, hr ▸ ho⟩
  · have := h.size
    exact .inr ⟨by omega, ho⟩

theorem Adds.mono {owner' : Int → Prop} (h : Adds owner a a') (ho : ∀ r, owner r → owner' r) :
    Adds owner' a a' :=
  ⟨h.size, fun hs => (h.state hs).imp_right fun ⟨hle, hr⟩ => ⟨hle, ho _ hr⟩⟩

theorem adds_fresh (rule : Nat) (kind : StateKind) (a : Arena) :
    Adds (· = Int.ofNat rule) a (fresh rule kind a).2 := by
  refine ⟨by rw [size_fresh]; omega, fun hs => ?_⟩
  obtain hs | ⟨rfl, rfl⟩ := state_of_fresh hs
  · exact .inl ⟨_, hs, rfl⟩
  · exact .inr ⟨Int.le_refl _, rfl⟩

theorem adds_connect (source : Int) (t : Transition) (a : Arena) :
    Adds owner a (connect source t a).2 := by
  refine ⟨Nat.le_of_eq (size_connect source t a).symm, fun {s st} hs => .inl ?_⟩
  obtain ⟨st', hs', hr, -⟩ := state_of_connect hs
  exact ⟨st', hs', hr⟩

/-- A layout of parts of one rule adds states of that rule only. -/
def AddsTo {α : Type} (rule : Nat) (f : Layout α) : Prop :=
  ∀ a, Adds (· = Int.ofNat rule) a (f a).2

theorem addsTo_composed (rule : Nat) : Composed rule fun _ f => AddsTo rule f where
  pure _ a := .refl a
  bind {_ _ f _} hf hg a := (hf a).trans (hg (f a).1 (f a).2)
  fresh := adds_fresh rule
  epsilon _ _ := adds_connect _ _
  step _ a := ((adds_fresh rule .basic a).trans (adds_fresh rule .basic _)).trans (adds_connect _ _ _)

/-- Laying out the rules from one on adds states of those rules only. -/
theorem adds_layoutRules (i : Nat) (bodies : List (Element Nat)) (a : Arena) :
    Adds (fun r => ∃ k : Nat, i ≤ k ∧ r = k) a (layoutRules i bodies a).2 := by
  induction bodies generalizing i a with
  | nil => exact .refl a
  | cons e bodies ih =>
    refine (((addsTo_composed i).layoutRule e a).mono fun r hr => ⟨i, Nat.le_refl i, hr⟩).trans ?_
    exact (ih (i + 1) _).mono fun r ⟨k, hk, hr⟩ => ⟨k, by omega, hr⟩

end Layout

end RuleNetwork
