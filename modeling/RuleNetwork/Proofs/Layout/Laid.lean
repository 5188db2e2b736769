import RuleNetwork.Proofs.Layout.Arena

/-!
The shape of a piece of network: which states and transitions lay out a rule body from an entry to an
exit. The exit of a piece is left open, so that what follows can be joined to it, and a layout gives
a piece of that shape in whatever network keeps the states that the layout has finished.
-/

set_option autoImplicit false

namespace RuleNetwork

/-- Claims about all bodies by the claim about their parts. -/
@[elab_as_elim]
theorem Element.induction {ρ : Type} {P : Element ρ → Prop} (token : ∀ names, P (.token names))
    (call : ∀ r, P (.call r)) (guard : ∀ text, P (.guard text)) (empty : P .empty)
    (sequence : ∀ items, (∀ e ∈ items, P e) → P (.sequence items))
    (choice : ∀ options, (∀ e ∈ options, P e) → P (.choice options))
    (star : ∀ body, P body → P (.star body)) (plus : ∀ body, P body → P (.plus body))
    (option : ∀ body, P body → P (.option body)) (unknown : P .unknown) (e : Element ρ) : P e :=
  @Element.rec ρ P (fun l => ∀ e ∈ l, P e) token call guard empty sequence choice star plus option
    unknown (fun _ he => absurd he List.not_mem_nil)
    (fun _ _ h hr e he => (List.mem_cons.1 he).elim (fun hx => hx ▸ h) (hr e)) e

mutual

/-- A body that can be laid out, all of whose calls are of known rules. -/
def Element.Within {ρ : Type} (known : ρ → Prop) : Element ρ → Prop
  | .call callee => known callee
  | .sequence items => AllWithin known items
  | .choice options => AllWithin known options
  | .star body | .plus body | .option body => body.Within known
  | .token _ | .guard _ | .empty => True
  | .unknown => False

def AllWithin {ρ : Type} (known : ρ → Prop) : List (Element ρ) → Prop
  | [] => True
  | e :: r => e.Within known ∧ AllWithin known r

end

theorem allWithin_iff {ρ : Type} {known : ρ → Prop} {l : List (Element ρ)} :
    AllWithin known l ↔ ∀ e ∈ l, e.Within known := by
  induction l with
  | nil => simp [AllWithin]
  | cons e r ih => simp [AllWithin, ih]

/-- The ways out of a state before the end of its rule. -/
def Network.Exits (n : Network) (s : Int) (l : List Transition) : Prop :=
  ∃ rule kind, kind ≠ .ruleStop ∧ n.At s rule kind l

namespace Layout

/-- A transition without input. -/
def free (target : Int) : Transition := { kind := .epsilon, target }

def entering (callee : Nat) (follow : Int) : Transition where
  kind := .ruleCall
  target := startState callee
  rule := some (Int.ofNat callee)
  follow := some follow

end Layout

open Layout

mutual

/-- The network lays out the body between the two states. -/
def Element.Laid (n : Network) : Element Nat → Int → Int → Prop
  | .token names, a, b => n.Exits a [{ kind := .terminal, target := b, tokens := names }]
  | .call callee, a, b => n.Exits a [entering callee b]
  | .guard text, a, b => n.Exits a [{ kind := .predicate, target := b, predicate := some text }]
  | .empty, a, b | .unknown, a, b | .sequence [], a, b => a = b
  | .sequence (e :: r), a, b => ∃ m, e.Laid n a m ∧ LaidRest n r m b
  | .choice [e], a, b => e.Laid n a b
  | .choice options, a, b =>
    ∃ entries, n.Exits a (entries.map free) ∧ LaidOptions n options entries b
  | .option body, a, b =>
    ∃ p q, n.Exits a [free p, free b] ∧ body.Laid n p q ∧ n.Exits q [free b]
  | .star body, a, b =>
    ∃ p q, n.Exits a [free p, free b] ∧ body.Laid n p q ∧ n.Exits q [free a]
  | .plus body, a, b =>
    ∃ q d, body.Laid n a q ∧ n.Exits q [free d] ∧ n.Exits d [free a, free b]

/-- The elements follow one another from an exit on. -/
def LaidRest (n : Network) : List (Element Nat) → Int → Int → Prop
  | [], a, b => a = b
  | e :: r, a, b => ∃ p q, n.Exits a [free p] ∧ e.Laid n p q ∧ LaidRest n r q b

/-- The elements lead from their entries to one end. -/
def LaidOptions (n : Network) : List (Element Nat) → List Int → Int → Prop
  | [], [], _ => True
  | e :: r, p :: s, b => (∃ q, e.Laid n p q ∧ n.Exits q [free b]) ∧ LaidOptions n r s b
  | _, _, _ => False

end

mutual

/-- The network lays out the body in states of the rule. Only where a choice or a loop branches the
state is a decision. -/
def Element.LaidIn (n : Network) (rule : Nat) : Element Nat → Int → Int → Prop
  | .token names, a, b => n.At a rule .basic [{ kind := .terminal, target := b, tokens := names }]
  | .call callee, a, b => n.At a rule .basic [entering callee b]
  | .guard text, a, b =>
    n.At a rule .basic [{ kind := .predicate, target := b, predicate := some text }]
  | .empty, a, b | .unknown, a, b | .sequence [], a, b => a = b
  | .sequence (e :: r), a, b => ∃ m, e.LaidIn n rule a m ∧ LaidRestIn n rule r m b
  | .choice [e], a, b => e.LaidIn n rule a b
  | .choice options, a, b =>
    ∃ entries, n.At a rule .decision (entries.map free) ∧ LaidOptionsIn n rule options entries b
  | .option body, a, b => ∃ p q, n.At a rule .decision [free p, free b] ∧ body.LaidIn n rule p q ∧
    n.At q rule .basic [free b]
  | .star body, a, b => ∃ p q, n.At a rule .decision [free p, free b] ∧ body.LaidIn n rule p q ∧
    n.At q rule .basic [free a]
  | .plus body, a, b => ∃ q d, body.LaidIn n rule a q ∧ n.At q rule .basic [free d] ∧
    n.At d rule .decision [free a, free b]

def LaidRestIn (n : Network) (rule : Nat) : List (Element Nat) → Int → Int → Prop
  | [], a, b => a = b
  | e :: r, a, b =>
    ∃ p q, n.At a rule .basic [free p] ∧ e.LaidIn n rule p q ∧ LaidRestIn n rule r q b

def LaidOptionsIn (n : Network) (rule : Nat) : List (Element Nat) → List Int → Int → Prop
  | [], [], _ => True
  | e :: r, p :: s, b =>
    (∃ q, e.LaidIn n rule p q ∧ n.At q rule .basic [free b]) ∧ LaidOptionsIn n rule r s b
  | _, _, _ => False

end

namespace Network

variable {n : Network}

theorem At.bounds {s rule : Int} {kind : StateKind} {l : List Transition} (h : n.At s rule kind l) :
    0 ≤ s ∧ s < n.states.size := by
  obtain ⟨st, hs, -⟩ := h
  exact lt_of_state hs

theorem At.exits {s rule : Int} {kind : StateKind} {l : List Transition} (h : n.At s rule kind l)
    (hk : kind ≠ .ruleStop) : n.Exits s l := ⟨rule, kind, hk, h⟩

end Network

section LaidIn

variable {n : Network} {rule : Nat}

theorem laidRest_of_laidRestIn {items : List (Element Nat)}
    (ih : ∀ e ∈ items, ∀ a b, e.LaidIn n rule a b → e.Laid n a b) {a b : Int}
    (h : LaidRestIn n rule items a b) : LaidRest n items a b := by
  induction items generalizing a with
  | nil => exact h
  | cons e r ihr =>
    obtain ⟨p, q, ha, he, hr⟩ := h
    exact ⟨p, q, ha.exits (by decide), ih e (List.mem_cons_self ..) p q he,
      ihr (fun e he => ih e (List.mem_cons_of_mem _ he)) hr⟩

theorem laidOptions_of_laidOptionsIn {options : List (Element Nat)}
    (ih : ∀ e ∈ options, ∀ a b, e.LaidIn n rule a b → e.Laid n a b) {entries : List Int} {b : Int}
    (h : LaidOptionsIn n rule options entries b) : LaidOptions n options entries b := by
  induction options generalizing entries with
  | nil =>
    cases entries with
    | nil => trivial
    | cons p s => exact h.elim
  | cons e r ihr =>
    cases entries with
    | nil => exact h.elim
    | cons p s =>
      obtain ⟨⟨q, he, hq⟩, hr⟩ := h
      exact ⟨⟨q, ih e (List.mem_cons_self ..) p q he, hq.exits (by decide)⟩,
        ihr (fun e he => ih e (List.mem_cons_of_mem _ he)) hr⟩

theorem Element.laid_of_laidIn (e : Element Nat) {a b : Int} (h : e.LaidIn n rule a b) :
    e.Laid n a b := by
  induction e using Element.induction generalizing a b with
  | token names => exact Network.At.exits h (by decide)
  | call callee => exact Network.At.exits h (by decide)
  | guard text => exact Network.At.exits h (by decide)
  | empty => exact h
  | unknown => exact h
  | sequence items ih =>
    cases items with
    | nil => exact h
    | cons e r =>
      obtain ⟨m, he, hr⟩ := h
      exact ⟨m, ih e (List.mem_cons_self ..) he,
        laidRest_of_laidRestIn (fun e he _ _ h => ih e (List.mem_cons_of_mem _ he) h) hr⟩
  | choice options ih =>
    have ih' : ∀ e ∈ options, ∀ a b, e.LaidIn n rule a b → e.Laid n a b := fun e he _ _ => ih e he
    match options, ih', h with
    | [], ih', ⟨entries, ha, hl⟩ =>
      exact ⟨entries, ha.exits (by decide), laidOptions_of_laidOptionsIn ih' hl⟩
    | [e], ih', h => exact ih' e (List.mem_cons_self ..) a b h
    | _ :: _ :: _, ih', ⟨entries, ha, hl⟩ =>
      exact ⟨entries, ha.exits (by decide), laidOptions_of_laidOptionsIn ih' hl⟩
  | star body ih =>
    obtain ⟨p, q, ha, hb, hq⟩ := h
    exact ⟨p, q, ha.exits (by decide), ih hb, hq.exits (by decide)⟩
  | plus body ih =>
    obtain ⟨q, d, hb, hq, hd⟩ := h
    exact ⟨q, d, ih hb, hq.exits (by decide), hd.exits (by decide)⟩
  | option body ih =>
    obtain ⟨p, q, ha, hb, hq⟩ := h
    exact ⟨p, q, ha.exits (by decide), ih hb, hq.exits (by decide)⟩

end LaidIn

namespace Layout

open Network

@[simp] theorem size_fresh (rule : Nat) (kind : StateKind) (a : Arena) :
    (fresh rule kind a).2.states.size = a.states.size + 1 := by simp [fresh_eq]

@[simp] theorem size_connect (source : Int) (t : Transition) (a : Arena) :
    (connect source t a).2.states.size = a.states.size := by simp [connect]

/-- The network has the finished states of an arena from a number on. -/
def Finishes (n : Network) (a : Arena) (first : Nat) (exit : Int) : Prop :=
  ∀ s r k l, (first : Int) ≤ s → s ≠ exit → a.network.At s r k l → n.At s r k l

/-- What a layout makes of an arena: earlier states stay as they are, the new piece belongs to the
rule, nothing leaves its exit yet, and it has the shape of its body wherever it is finished. -/
structure Lays (rules rule : Nat) (e : Element Nat) (a : Arena) (p : Piece) (a' : Arena) : Prop where
  proper : a'.network.Proper rules
  grows : a.network.Extends a'.network
  size : a.states.size ≤ a'.states.size
  keeps : ∀ {s r k l}, a.network.At s r k l → a'.network.At s r k l
  entry_new : (a.states.size : Int) ≤ p.entry
  entry : a'.network.Inside rule p.entry
  exit_new : (a.states.size : Int) ≤ p.exit
  exit : a'.network.At p.exit rule .basic []
  laid : ∀ n, Finishes n a' a.states.size p.exit → e.LaidIn n rule p.entry p.exit

variable {rules rule : Nat} {a : Arena} {e : Element Nat}

theorem free_fits {n : Network} {s : Int} {r : Int} (h : n.Inside r s) : (free s).Fits n rules r :=
  .inl ⟨by simp [free], h⟩

/-- What a further way out of a state makes of an arena. -/
structure Joins (rules : Nat) (a : Arena) (s rule : Int) (kind : StateKind) (l : List Transition)
    (t : Transition) (a' : Arena) : Prop where
  proper : a'.network.Proper rules
  grows : a.network.Extends a'.network
  size : a'.states.size = a.states.size
  joined : a'.network.At s rule kind (l ++ [t])
  keeps : ∀ {s' r k l}, s' ≠ s → a.network.At s' r k l → a'.network.At s' r k l

theorem joins_connect {s r : Int} {kind : StateKind} {l : List Transition} {t : Transition}
    (ha : a.network.Proper rules) (hs : a.network.At s r kind l) (hk : kind ≠ .ruleStop)
    (hone : kind = .decision ∨ l = []) (ht : t.Fits a.network rules r) :
    Joins rules a s r kind l t (connect s t a).2 where
  proper := proper_connect ha hs hk hone ht
  grows := extends_connect_of_at hs
  size := size_connect s t a
  joined := at_connect hs
  keeps hne h := at_connect_of_ne hs.bounds.1 hne h

/-- What two fresh states make of an arena. The second one is where a piece will end. -/
structure Opens (rules rule : Nat) (kind : StateKind) (a : Arena) (d f : Int) (a' : Arena) :
    Prop where
  proper : a'.network.Proper rules
  grows : a.network.Extends a'.network
  size : a'.states.size = a.states.size + 2
  keeps : ∀ {s r k l}, a.network.At s r k l → a'.network.At s r k l
  first_eq : d = a.states.size
  last_eq : f = a.states.size + 1
  first : a'.network.At d rule kind []
  last : a'.network.At f rule .basic []

theorem opens_fresh (kind : StateKind) (ha : a.network.Proper rules) (hr : rule < rules)
    (hs : kind ≠ .ruleStart) (he : kind ≠ .ruleStop) :
    Opens rules rule kind a a.states.size (fresh rule kind a).2.states.size
      (fresh rule .basic (fresh rule kind a).2).2 where
  proper := proper_fresh (proper_fresh ha hr hs he) hr (by decide) (by decide)
  grows := (extends_fresh rule kind a).trans (extends_fresh rule .basic _)
  size := by rw [size_fresh, size_fresh]
  keeps h := at_fresh_of_at (at_fresh_of_at h)
  first_eq := rfl
  last_eq := by rw [size_fresh, Int.natCast_add, Int.natCast_one]
  first := at_fresh_of_at (at_fresh rule kind a)
  last := at_fresh rule .basic _

theorem Opens.ne {kind : StateKind} {d f : Int} {a' : Arena} (h : Opens rules rule kind a d f a') :
    f ≠ d := by
  have h₁ := h.first_eq
  have h₂ := h.last_eq
  omega

/-- The two states are none of those that were there. -/
theorem Opens.at_ne {kind k : StateKind} {d f s r : Int} {l : List Transition} {a' : Arena}
    (h : Opens rules rule kind a d f a') (hs : a.network.At s r k l) : s ≠ d ∧ s ≠ f := by
  have h₁ := h.first_eq
  have h₂ := h.last_eq
  have hlt : s < a.states.size := hs.bounds.2
  omega

theorem lays_point (ha : a.network.Proper rules) (hr : rule < rules) (he : ∀ n s, e.LaidIn n rule s s) :
    Lays rules rule e a (point rule a).1 (point rule a).2 where
  proper := proper_fresh ha hr (by decide) (by decide)
  grows := extends_fresh rule .basic a
  size := by
    show _ ≤ (fresh rule .basic a).2.states.size
    simp
  keeps h := at_fresh_of_at h
  entry_new := Int.le_refl _
  entry := (at_fresh rule .basic a).inside (by decide)
  exit_new := Int.le_refl _
  exit := at_fresh rule .basic a
  laid n _ := he n _

theorem lays_step {t : Int → Transition} (ha : a.network.Proper rules) (hr : rule < rules)
    (ht : ∀ n s, n.Inside rule s → (t s).Fits n rules rule)
    (he : ∀ n s s', n.At s rule .basic [t s'] → e.LaidIn n rule s s') :
    Lays rules rule e a (step rule t a).1 (step rule t a).2 := by
  have ho := opens_fresh .basic ha hr (by decide) (by decide)
  have hj := joins_connect ho.proper ho.first (by decide) (.inr rfl)
    (ht _ _ (ho.last.inside (by decide)))
  have hsize := ho.size
  have hlast := ho.last_eq
  have hstep : step rule t a = (⟨a.states.size, (fresh rule .basic a).2.states.size⟩,
      (connect a.states.size (t (fresh rule .basic a).2.states.size)
        (fresh rule .basic (fresh rule .basic a).2).2).2) := rfl
  rw [hstep]
  exact {
    proper := hj.proper
    grows := ho.grows.trans hj.grows
    size := by rw [hj.size]; omega
    keeps := fun h => hj.keeps (ho.at_ne h).1 (ho.keeps h)
    entry_new := Int.le_refl _
    entry := hj.joined.inside (by decide)
    exit_new := by simp only; omega
    exit := hj.keeps ho.ne ho.last
    laid := fun n hn => he n _ _ (hn _ _ _ _ (Int.le_refl _) (Ne.symm ho.ne) hj.joined) }

end Layout

end RuleNetwork
