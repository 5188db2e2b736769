import RuleNetwork.Proofs.Layout.Rules

/-!
The terminals of a laid-out network. A layout writes one terminal for each token set of a body, in the
rule of that body, and no others.
-/

set_option autoImplicit false

namespace RuleNetwork

open Network

mutual

/-- The token sets in a body, from left to right. -/
def Element.tokenSets {ρ : Type} : Element ρ → List (List String)
  | .token names => [names]
  | .call _ | .guard _ | .empty | .unknown => []
  | .sequence items => allTokenSets items
  | .choice options => allTokenSets options
  | .star body | .plus body | .option body => body.tokenSets

def allTokenSets {ρ : Type} : List (Element ρ) → List (List String)
  | [] => []
  | e :: r => e.tokenSets ++ allTokenSets r

end

/-- A state of the rule is left by a terminal over the names. -/
def Network.Shows (n : Network) (rule : Int) (names : List String) : Prop :=
  ∃ s st id t, n.state s = .ok st ∧ st.rule = rule ∧ id ∈ st.transitions ∧
    n.transition id = .ok t ∧ t.kind = .terminal ∧ t.tokens = names

namespace Layout

/-- Every transition that a state lists is there. -/
def Complete (a : Arena) : Prop :=
  ∀ s st, a.network.state s = .ok st → ∀ id ∈ st.transitions, ∃ t, a.network.transition id = .ok t

variable {a : Arena} {rule : Nat}

theorem complete_fresh (h : Complete a) (kind : StateKind) : Complete (fresh rule kind a).2 := by
  intro s st hs id hid
  obtain hs | ⟨-, rfl⟩ := state_of_fresh hs
  · exact h s st hs id hid
  · exact absurd hid List.not_mem_nil

theorem shows_fresh (kind : StateKind) {r : Int} {names : List String} :
    (fresh rule kind a).2.network.Shows r names ↔ a.network.Shows r names := by
  constructor
  · rintro ⟨s, st, id, t, hs, hr, hid, ht⟩
    obtain hs | ⟨-, rfl⟩ := state_of_fresh hs
    · exact ⟨s, st, id, t, hs, hr, hid, ht⟩
    · exact absurd hid List.not_mem_nil
  · rintro ⟨s, st, id, t, hs, hr, hid, ht⟩
    exact ⟨s, st, id, t, state_fresh_of_ok hs, hr, hid, ht⟩

variable {source : Int} {t : Transition}

theorem complete_connect (h : Complete a) : Complete (connect source t a).2 := by
  intro s st hs id hid
  obtain ⟨st', hs', -, -, heq⟩ := state_of_connect hs
  have hold : ∀ id ∈ st'.transitions, ∃ u, (connect source t a).2.network.transition id = .ok u :=
    fun id hid => (h s st' hs' id hid).imp fun _ hu => transition_connect_of_ok hu
  obtain heq | ⟨-, heq⟩ := heq
  · exact hold id (heq ▸ hid)
  · rw [heq, List.mem_append, List.mem_singleton] at hid
    obtain hid | rfl := hid
    · exact hold id hid
    · exact ⟨t, transition_connect source t a⟩

/-- What was shown before a connection is shown after it. -/
theorem shows_connect_of {r : Int} {names : List String} (h : a.network.Shows r names) :
    (connect source t a).2.network.Shows r names := by
  obtain ⟨s, st, id, u, hs, hr, hid, hu, hrest⟩ := h
  obtain ⟨h0, hget⟩ := state_eq_ok_iff.1 hs
  have hget : a.states[s.toNat]? = some st := hget
  by_cases heq : source.toNat = s.toNat
  · refine ⟨s, { st with transitions := st.transitions ++ [(a.transitions.size : Int)] }, id, u, ?_,
      hr, List.mem_append_left _ hid, transition_connect_of_ok hu, hrest⟩
    refine state_eq_ok_iff.2 ⟨h0, ?_⟩
    simp [Arena.network, connect, Array.getElem?_modify, heq, hget]
  · refine ⟨s, st, id, u, state_eq_ok_iff.2 ⟨h0, ?_⟩, hr, hid, transition_connect_of_ok hu, hrest⟩
    simp [Arena.network, connect, Array.getElem?_modify, heq, hget]

/-- After a connection the same is shown, and the new terminal if the connection is one. -/
theorem shows_connect (h : Complete a) {r : Int} {names : List String}
    (hn : (connect source t a).2.network.Shows r names) :
    a.network.Shows r names ∨ t.kind = .terminal ∧ t.tokens = names ∧
      ∃ s st, a.network.state s = .ok st ∧ source.toNat = s.toNat ∧ st.rule = r := by
  obtain ⟨s, st, id, u, hs, hr, hid, hu, hk, hnames⟩ := hn
  obtain ⟨st', hs', hr', -, heq⟩ := state_of_connect hs
  have hold : id ∈ st'.transitions → a.network.Shows r names := fun hid => by
    obtain ⟨u', hu'⟩ := h s st' hs' id hid
    rw [transition_connect_of_ok hu'] at hu
    cases hu
    exact ⟨s, st', id, _, hs', hr'.trans hr, hid, hu', hk, hnames⟩
  obtain heq | ⟨hsource, heq⟩ := heq
  · exact .inl (hold (heq ▸ hid))
  · rw [heq, List.mem_append, List.mem_singleton] at hid
    obtain hid | rfl := hid
    · exact .inl (hold hid)
    · rw [transition_connect] at hu
      cases hu
      exact .inr ⟨hk, hnames, s, st', hs', hsource, hr'.trans hr⟩

/-- A layout adds terminals over the token sets listed to a rule, and no others. -/
structure Writes {α : Type} (rule : Nat) (sets : List (List String)) (f : Layout α) : Prop where
  complete : ∀ {a}, Complete a → Complete (f a).2
  shows_iff : ∀ {a}, Complete a → ∀ {r names}, (f a).2.network.Shows r names ↔
    a.network.Shows r names ∨ r = Int.ofNat rule ∧ names ∈ sets

section Writes

variable {α β : Type} {sets sets' : List (List String)}

theorem writes_pure (x : α) : Writes rule [] (pure x) := ⟨fun h => h, fun _ => by simp; rfl⟩

theorem writes_bind {f : Layout α} {g : α → Layout β} (hf : Writes rule sets f)
    (hg : ∀ x, Writes rule sets' (g x)) : Writes rule (sets ++ sets') (f >>= g) where
  complete h := (hg _).complete (hf.complete h)
  shows_iff {a} h {r names} := by
    refine ((hg (f a).1).shows_iff (hf.complete h)).trans ?_
    rw [hf.shows_iff h, List.mem_append, and_or_left, or_assoc]

/-- A step that writes nothing before what writes something. -/
theorem writes_after {f : Layout α} {g : α → Layout β} (hf : Writes rule [] f)
    (hg : ∀ x, Writes rule sets (g x)) : Writes rule sets (f >>= g) :=
  writes_bind hf hg

theorem writes_fresh (kind : StateKind) : Writes rule [] (fresh rule kind) where
  complete h := complete_fresh h kind
  shows_iff _ := by simp [shows_fresh]

theorem writes_connect (source : Int) {t : Transition} (ht : t.kind ≠ .terminal) :
    Writes rule [] (connect source t) where
  complete h := complete_connect h
  shows_iff {a} h {r names} := by
    simp only [List.not_mem_nil, and_false, or_false]
    refine ⟨fun hn => ?_, shows_connect_of⟩
    obtain hn | ⟨hk, -⟩ := shows_connect h hn
    · exact hn
    · exact absurd hk ht

theorem writes_epsilon (source target : Int) : Writes rule [] (epsilon source target) :=
  writes_connect source (by simp)

theorem writes_step {t : Int → Transition} (ht : ∀ b, (t b).kind ≠ .terminal) :
    Writes rule [] (step rule t) :=
  writes_after (writes_fresh .basic) fun a => writes_after (writes_fresh .basic) fun b =>
    writes_after (writes_connect a (ht b)) fun _ => writes_pure _

theorem writes_point : Writes rule [] (point rule) :=
  writes_after (writes_fresh .basic) fun _ => writes_pure _

/-- A terminal is written from a fresh state of its rule. -/
theorem writes_terminal (names : List String) : Writes rule [names]
    (step rule fun b => { kind := .terminal, target := b, tokens := names }) where
  complete h := complete_connect (complete_fresh (complete_fresh h .basic) .basic)
  shows_iff {a} h {r names'} := by
    have h₂ : Complete (fresh rule .basic (fresh rule .basic a).2).2 :=
      complete_fresh (complete_fresh h .basic) .basic
    have hsource := @state_fresh_of_ok (fresh rule .basic a).2 rule .basic _ _ (state_fresh rule .basic a)
    have hsame : ∀ {r names'}, (fresh rule .basic (fresh rule .basic a).2).2.network.Shows r names' ↔
        a.network.Shows r names' := by simp [shows_fresh]
    rw [List.mem_singleton, ← hsame]
    constructor
    · intro hn
      obtain hn | ⟨-, hnames, s, st, hs, heq, hr⟩ := shows_connect h₂ hn
      · exact .inl hn
      · have hle := (lt_of_state hs).1
        rw [Int.ofNat_eq_natCast] at heq
        obtain rfl : s = (a.states.size : Int) := by omega
        rw [hsource] at hs
        cases hs
        exact .inr ⟨hr.symm, hnames.symm⟩
    · rintro (hn | ⟨rfl, rfl⟩)
      · exact shows_connect_of hn
      · exact ⟨_, _, _, _, state_connect hsource, rfl,
          List.mem_append_right _ (List.mem_singleton_self _), transition_connect _ _ _, rfl, rfl⟩

variable {startOf : Nat → Int}

theorem writes_layoutRest {items : List (Element Nat)}
    (h : ∀ e ∈ items, Writes rule e.tokenSets (e.layout startOf rule)) (exit : Int) :
    Writes rule (allTokenSets items) (layoutRest startOf rule exit items) := by
  induction items generalizing exit with
  | nil => exact writes_pure _
  | cons e r ih =>
    exact writes_bind (h e (List.mem_cons_self ..)) fun p => writes_after (writes_epsilon _ _) fun _ =>
      ih (fun e he => h e (List.mem_cons_of_mem _ he)) p.exit

theorem writes_layoutOptions {options : List (Element Nat)}
    (h : ∀ e ∈ options, Writes rule e.tokenSets (e.layout startOf rule)) (decision finish : Int) :
    Writes rule (allTokenSets options) (layoutOptions startOf rule decision finish options) := by
  induction options with
  | nil => exact writes_pure _
  | cons e r ih =>
    exact writes_bind (h e (List.mem_cons_self ..)) fun p => writes_after (writes_epsilon _ _) fun _ =>
      writes_after (writes_epsilon _ _) fun _ => ih fun e he => h e (List.mem_cons_of_mem _ he)

/-- What writes something before a step that writes nothing. -/
theorem writes_before {f : Layout α} {g : α → Layout β} (hf : Writes rule sets f)
    (hg : ∀ x, Writes rule [] (g x)) : Writes rule sets (f >>= g) := by
  have h := writes_bind hf hg
  rwa [List.append_nil] at h

/-- Three free connections after a piece. -/
theorem writes_joined (s s' s'' z z' z'' : Int) (p : Piece) : Writes rule [] (do
    epsilon s z
    epsilon s' z'
    epsilon s'' z''
    return p : Layout Piece) :=
  writes_after (writes_epsilon _ _) fun _ => writes_after (writes_epsilon _ _) fun _ =>
    writes_after (writes_epsilon _ _) fun _ => writes_pure _

theorem writes_layout (e : Element Nat) : Writes rule e.tokenSets (e.layout startOf rule) := by
  induction e using Element.induction with
  | token names => exact writes_terminal names
  | call callee => exact writes_step fun _ => by simp
  | guard text => exact writes_step fun _ => by simp
  | empty => exact writes_point
  | unknown => exact writes_point
  | sequence items ih =>
    cases items with
    | nil => exact writes_point
    | cons e r =>
      exact writes_bind (ih e (List.mem_cons_self ..)) fun p => writes_before
        (writes_layoutRest (fun e he => ih e (List.mem_cons_of_mem _ he)) p.exit) fun _ => writes_pure _
  | choice options ih =>
    have hmany : Writes rule (allTokenSets options) (do
        let decision ← fresh rule .decision
        let finish ← fresh rule .basic
        layoutOptions startOf rule decision finish options
        return (⟨decision, finish⟩ : Piece)) :=
      writes_after (writes_fresh .decision) fun _ => writes_after (writes_fresh .basic) fun _ =>
        writes_before (writes_layoutOptions ih _ _) fun _ => writes_pure _
    match options, ih, hmany with
    | [], _, hmany => exact hmany
    | [e], ih, _ =>
      have h := ih e (List.mem_cons_self ..)
      rwa [← List.append_nil e.tokenSets] at h
    | _ :: _ :: _, _, hmany => exact hmany
  | star body ih =>
    exact writes_after (writes_fresh .decision) fun _ => writes_after (writes_fresh .basic) fun _ =>
      writes_before ih fun _ => writes_joined _ _ _ _ _ _ _
  | plus body ih =>
    exact writes_before ih fun _ => writes_after (writes_fresh .decision) fun _ =>
      writes_after (writes_fresh .basic) fun _ => writes_joined _ _ _ _ _ _ _
  | option body ih =>
    exact writes_after (writes_fresh .decision) fun _ => writes_after (writes_fresh .basic) fun _ =>
      writes_before ih fun _ => writes_joined _ _ _ _ _ _ _

theorem writes_layoutRule (i : Nat) (e : Element Nat) : Writes i e.tokenSets (layoutRule i e) :=
  writes_before (writes_layout e) fun _ => writes_after (writes_epsilon _ _) fun _ =>
    writes_epsilon _ _

end Writes

theorem complete_layoutBounds (i n : Nat) (h : Complete a) : Complete (layoutBounds i n a).2 := by
  induction n generalizing i a with
  | zero => exact h
  | succ n ih => exact ih (i + 1) (complete_fresh (complete_fresh h .ruleStart) .ruleStop)

theorem shows_layoutBounds (i n : Nat) {r : Int} {names : List String} :
    (layoutBounds i n a).2.network.Shows r names ↔ a.network.Shows r names := by
  induction n generalizing i a with
  | zero => rfl
  | succ n ih => exact (ih (i + 1)).trans ((shows_fresh .ruleStop).trans (shows_fresh .ruleStart))

/-- Laying out bodies from a rule on writes the token sets of each to its own rule. -/
theorem shows_layoutRules (i : Nat) (bodies : List (Element Nat)) (h : Complete a) {r : Int}
    {names : List String} : (layoutRules i bodies a).2.network.Shows r names ↔
      a.network.Shows r names ∨
        ∃ (j : Nat) (e : Element Nat), bodies[j]? = some e ∧ r = ((i + j : Nat) : Int) ∧
          names ∈ e.tokenSets := by
  induction bodies generalizing i a with
  | nil =>
    refine ⟨.inl, ?_⟩
    rintro (h | ⟨j, e, he, -⟩)
    · exact h
    · simp at he
  | cons e bodies ih =>
    have hrule := writes_layoutRule i e
    have hrest := ih (i + 1) (hrule.complete h)
    refine hrest.trans ?_
    rw [hrule.shows_iff h, or_assoc]
    refine or_congr_right ⟨?_, ?_⟩
    · rintro (⟨rfl, hmem⟩ | ⟨j, e', he', rfl, hmem⟩)
      · exact ⟨0, e, rfl, rfl, hmem⟩
      · exact ⟨j + 1, e', he', by rw [Nat.add_assoc, Nat.add_comm 1], hmem⟩
    · rintro ⟨j, e', he', rfl, hmem⟩
      cases j with
      | zero =>
        cases he'
        exact .inl ⟨rfl, hmem⟩
      | succ j => exact .inr ⟨j, e', he', by rw [Nat.add_assoc, Nat.add_comm 1], hmem⟩

end Layout

open Layout in
/-- The terminals of a rule are the token sets of its body. -/
theorem shows_networkOf {bodies : List (Element Nat)} {r : Int} {names : List String} :
    (networkOf bodies).Shows r names ↔
      ∃ (i : Nat) (e : Element Nat), bodies[i]? = some e ∧ r = (i : Int) ∧ names ∈ e.tokenSets := by
  have hempty : Complete {} := fun s st hs => by
    have : (0 : Int) ≤ s ∧ s < 0 := lt_of_state hs
    omega
  have hnone : ∀ {r names}, ¬ ({} : Arena).network.Shows r names := by
    rintro r names ⟨s, st, -, -, hs, -⟩
    have : (0 : Int) ≤ s ∧ s < 0 := lt_of_state hs
    omega
  have hrules := @shows_layoutRules _ 0 bodies (complete_layoutBounds 0 bodies.length hempty) r names
  rw [shows_layoutBounds, or_iff_right hnone] at hrules
  simp only [Nat.zero_add] at hrules
  exact hrules

end RuleNetwork
