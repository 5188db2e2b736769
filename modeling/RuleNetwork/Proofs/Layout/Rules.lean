import RuleNetwork.Proofs.Layout.Composed
import RuleNetwork.Proofs.Layout.Pieces

/-!
The network of some rule bodies is proper and lays out every body between the bounds of its rule.
-/

set_option autoImplicit false

namespace RuleNetwork

open Network

/-- A body laid out between the start and the stop state of a rule. -/
def Element.LaidAs (n : Network) (i : Nat) (e : Element Nat) : Prop :=
  ∃ p q, n.Exits (startState i) [Layout.free p] ∧ e.Laid n p q ∧
    n.Exits q [Layout.free (stopState i)]

/-- The same in states of the rule. -/
def Element.LaidAsIn (n : Network) (i : Nat) (e : Element Nat) : Prop :=
  ∃ p q, n.At (startState i) i .ruleStart [Layout.free p] ∧ e.LaidIn n i p q ∧
    n.At q i .basic [Layout.free (stopState i)]

theorem Element.LaidAsIn.laidAs {n : Network} {i : Nat} {e : Element Nat} (h : e.LaidAsIn n i) :
    e.LaidAs n i := by
  obtain ⟨p, q, hstart, he, hq⟩ := h
  exact ⟨p, q, hstart.exits (by decide), e.laid_of_laidIn he, hq.exits (by decide)⟩

namespace Layout

def startBound (i : Nat) : State := { id := startState i, rule := i, kind := .ruleStart }

def stopBound (i : Nat) : State := { id := stopState i, rule := i, kind := .ruleStop }

/-- The bounds of some first rules and nothing else. -/
structure Bounds (a : Arena) (rules : Nat) : Prop where
  size : a.states.size = 2 * rules
  bare : a.transitions = #[]
  start : ∀ i < rules, a.network.state (startState i) = .ok (startBound i)
  stop : ∀ i < rules, a.network.state (stopState i) = .ok (stopBound i)
  only : ∀ {s st}, a.network.state s = .ok st →
    ∃ i < rules, st = startBound i ∧ s = startState i ∨ st = stopBound i ∧ s = stopState i

theorem bounds_snoc {a : Arena} {i : Nat} (h : Bounds a i) :
    Bounds (fresh i .ruleStop (fresh i .ruleStart a).2).2 (i + 1) := by
  have hs : (fresh i .ruleStart a).2.states.size = 2 * i + 1 := by rw [size_fresh, h.size]
  have hstart := state_fresh i .ruleStart a
  have hstop := state_fresh i .ruleStop (fresh i .ruleStart a).2
  have e₁ : ((a.states.size : Nat) : Int) = startState i := by
    simp only [h.size, startState, Int.ofNat_eq_natCast]
    omega
  have e₂ : (((fresh i .ruleStart a).2.states.size : Nat) : Int) = stopState i := by
    simp only [hs, stopState, Int.ofNat_eq_natCast]
    omega
  rw [e₁] at hstart
  rw [e₂] at hstop
  refine ⟨by rw [size_fresh, hs]; omega, h.bare, fun j hj => ?_, fun j hj => ?_,
    fun {s st} hst => ?_⟩
  · obtain hlt | rfl := Nat.lt_succ_iff_lt_or_eq.1 hj
    · exact state_fresh_of_ok (state_fresh_of_ok (h.start j hlt))
    · exact state_fresh_of_ok hstart
  · obtain hlt | rfl := Nat.lt_succ_iff_lt_or_eq.1 hj
    · exact state_fresh_of_ok (state_fresh_of_ok (h.stop j hlt))
    · exact hstop
  · obtain hst | ⟨rfl, rfl⟩ := state_of_fresh hst
    · obtain hst | ⟨rfl, rfl⟩ := state_of_fresh hst
      · obtain ⟨j, hj, hst⟩ := h.only hst
        exact ⟨j, by omega, hst⟩
      · exact ⟨i, by omega, .inl ⟨by rw [e₁]; rfl, e₁⟩⟩
    · exact ⟨i, by omega, .inr ⟨by rw [e₂]; rfl, e₂⟩⟩

theorem bounds_layoutBounds {a : Arena} {i : Nat} (n : Nat) (h : Bounds a i) :
    Bounds (layoutBounds i n a).2 (i + n) := by
  induction n generalizing a i with
  | zero => exact h
  | succ n ih =>
    have := ih (bounds_snoc h)
    rw [show i + 1 + n = i + (n + 1) by omega] at this
    exact this

theorem proper_of_bounds {a : Arena} {rules : Nat} (h : Bounds a rules) :
    a.network.Proper rules where
  start i hi := ⟨_, h.start i hi, rfl, rfl⟩
  stop i hi := ⟨_, h.stop i hi, rfl, rfl⟩
  state {s st} hs := by
    obtain ⟨i, hi, ⟨rfl, rfl⟩ | ⟨rfl, rfl⟩⟩ := h.only hs
    · exact ⟨rfl, ⟨i, hi, rfl⟩, fun _ => rfl, (fun e => by cases e), fun _ => Nat.zero_le _,
        List.nodup_nil, fun id hid => absurd hid List.not_mem_nil⟩
    · exact ⟨rfl, ⟨i, hi, rfl⟩, (fun e => by cases e), fun _ => ⟨rfl, rfl⟩, fun _ => Nat.zero_le _,
        List.nodup_nil, fun id hid => absurd hid List.not_mem_nil⟩
  listed ht := by
    have := lt_of_transition ht
    simp only [Arena.network, h.bare, List.size_toArray, List.length_nil] at this
    omega

theorem startState_lt {i j : Nat} (h : i < j) : startState i < 2 * (j : Int) := by
  simp only [startState, Int.ofNat_eq_natCast]
  omega

theorem startState_inj {i j : Nat} (h : startState i = startState j) : i = j := by
  simp only [startState, Int.ofNat_eq_natCast] at h
  omega

/-- What laying out the body of one rule makes of an arena. -/
structure LaysRule (rules i : Nat) (e : Element Nat) (a a' : Arena) : Prop where
  proper : a'.network.Proper rules
  size : a.states.size ≤ a'.states.size
  keeps : ∀ {s r k l}, s ≠ startState i → a.network.At s r k l → a'.network.At s r k l
  laid : ∀ n : Network, (∀ s r k l, ((a.states.size : Int) ≤ s ∨ s = startState i) →
    a'.network.At s r k l → n.At s r k l) → e.LaidAsIn n i
  /-- The rule is entered where the layout of its body begins. -/
  opens : a'.network.At (startState i) i .ruleStart [free (e.layout startState i a).1.entry]

theorem lays_rule {e : Element Nat} {rules i : Nat} {a : Arena} (he : e.Within (· < rules))
    (hi : i < rules) (ha : a.network.Proper rules) (hsize : 2 * rules ≤ a.states.size)
    (hs : a.network.At (startState i) i .ruleStart []) :
    LaysRule rules i e a (layoutRule i e a).2 := by
  have h := lays_layout e hi he a ha
  have hrule : (layoutRule i e a).2 = (connect (e.layout startState i a).1.exit (free (stopState i))
    (connect (startState i) (free (e.layout startState i a).1.entry)
      (e.layout startState i a).2).2).2 := rfl
  rw [hrule]
  have hsp := h.ne_exit hs
  generalize hp : (e.layout startState i a).1 = p at *
  generalize (e.layout startState i a).2 = b at *
  -- the body is entered from the start state, and its exit leads to the stop state
  have h₁ := joins_connect h.proper (h.keeps hs) (by decide) (.inr rfl) (free_fits h.entry)
  have hstop : (connect (startState i) (free p.entry) b).2.network.Inside i (stopState i) := by
    obtain ⟨st, hst, hr, hk⟩ := h₁.proper.stop i hi
    exact ⟨st, hst, hr, by rw [hk]; decide⟩
  have h₂ := joins_connect h₁.proper (h₁.keeps (Ne.symm hsp) h.exit) (by decide) (.inr rfl)
    (free_fits hstop)
  have hopens := h₂.keeps hsp h₁.joined
  have keeps : ∀ {s r k l}, s ≠ startState i → s ≠ p.exit → b.network.At s r k l →
      (connect p.exit (free (stopState i))
        (connect (startState i) (free p.entry) b).2).2.network.At s r k l :=
    fun hne hne' hat => h₂.keeps hne' (h₁.keeps hne hat)
  refine ⟨h₂.proper, ?_, fun hne hat => keeps hne (h.ne_exit hat) (h.keeps hat),
    fun n hn => ?_, hp ▸ hopens⟩
  · rw [h₂.size, h₁.size]
    exact h.size
  · refine ⟨p.entry, p.exit, hn _ _ _ _ (.inr rfl) hopens, h.laid n fun s r k l hle hne hat => ?_,
      hn _ _ _ _ (.inl h.exit_new) h₂.joined⟩
    refine hn _ _ _ _ (.inl hle) (keeps ?_ hne hat)
    have := startState_lt hi
    omega

/-- What laying out the bodies from one rule on makes of an arena. -/
structure LaysRules (rules i : Nat) (bodies : List (Element Nat)) (a a' : Arena) : Prop where
  proper : a'.network.Proper rules
  size : a.states.size ≤ a'.states.size
  keeps : ∀ {s r k l}, (∀ j, i ≤ j → j < rules → s ≠ startState j) → a.network.At s r k l →
    a'.network.At s r k l
  laid : ∀ (j : Nat) (e : Element Nat), bodies[j]? = some e → ∀ n : Network, (∀ s r k l,
    ((a.states.size : Int) ≤ s ∨ ∃ j, i ≤ j ∧ s = startState j) → a'.network.At s r k l →
      n.At s r k l) → e.LaidAsIn n (i + j)
  /-- Every rule is entered where the layout of its body begins. -/
  opens : ∀ (j : Nat) (e : Element Nat), bodies[j]? = some e → ∃ b : Arena,
    Adds (fun r => ∃ k : Nat, i ≤ k ∧ k < i + j ∧ r = k) a b ∧
      Adds (fun r => ∃ k : Nat, i + j ≤ k ∧ r = k) b a' ∧
      a'.network.At (startState (i + j)) (i + j : Nat) .ruleStart
        [free (e.layout startState (i + j) b).1.entry]

theorem lays_rules {bodies : List (Element Nat)} {rules i : Nat} {a : Arena}
    (hw : ∀ e ∈ bodies, e.Within (· < rules)) (hlen : i + bodies.length = rules)
    (ha : a.network.Proper rules) (hsize : 2 * rules ≤ a.states.size)
    (hstart : ∀ j, i ≤ j → j < rules → a.network.At (startState j) j .ruleStart []) :
    LaysRules rules i bodies a (layoutRules i bodies a).2 := by
  induction bodies generalizing i a with
  | nil =>
    exact ⟨ha, Nat.le_refl _, fun _ h => h, (fun j e hj => by simp at hj),
      fun j e hj => by simp at hj⟩
  | cons e bodies ih =>
    simp only [List.length_cons] at hlen
    have hi : i < rules := by omega
    rw [List.forall_mem_cons] at hw
    have h₁ := lays_rule hw.1 hi ha hsize (hstart i (Nat.le_refl i) hi)
    have hadds := (addsTo_composed i).layoutRule e a
    have hadds' := adds_layoutRules i (e :: bodies) a
    have hlay : (layoutRules i (e :: bodies) a).2 =
        (layoutRules (i + 1) bodies (layoutRule i e a).2).2 := rfl
    rw [hlay] at hadds' ⊢
    generalize (layoutRule i e a).2 = b at *
    have hsize₁ := h₁.size
    have h₂ := ih (i := i + 1) hw.2 (by omega) h₁.proper (by omega) fun j hj hjr =>
      h₁.keeps (fun h => by have := startState_inj h; omega) (hstart j (by omega) hjr)
    have hsize₂ := h₂.size
    -- what the first rule has laid out, its start state included, the others leave alone
    have hkept : ∀ {s r k l}, ((a.states.size : Int) ≤ s ∨ s = startState i) → b.network.At s r k l →
        (layoutRules (i + 1) bodies b).2.network.At s r k l := fun {s r k l} hs hat => by
      refine h₂.keeps (fun j hj hjr h => ?_) hat
      obtain hle | rfl := hs
      · have := startState_lt hjr
        omega
      · have := startState_inj h
        omega
    refine ⟨h₂.proper, by omega, fun {s r k l} hne hat => ?_, fun j e' hj n hn => ?_,
      fun j e' hj => ?_⟩
    · exact h₂.keeps (fun j hj hjr => hne j (by omega) hjr)
        (h₁.keeps (hne i (Nat.le_refl i) hi) hat)
    · cases j with
      | zero =>
        simp only [List.getElem?_cons_zero, Option.some.injEq] at hj
        subst hj
        exact h₁.laid n fun s r k l hs hat =>
          hn _ _ _ _ (hs.imp_right fun h => ⟨i, Nat.le_refl i, h⟩) (hkept hs hat)
      | succ j =>
        simp only [List.getElem?_cons_succ] at hj
        rw [show i + (j + 1) = i + 1 + j by omega]
        refine h₂.laid j e' hj n fun s r k l hs hat => hn _ _ _ _ ?_ hat
        obtain hle | ⟨j', hj', rfl⟩ := hs
        · exact .inl (by omega)
        · exact .inr ⟨j', by omega, rfl⟩
    · cases j with
      | zero =>
        simp only [List.getElem?_cons_zero, Option.some.injEq] at hj
        subst hj
        exact ⟨a, .refl a, hadds', hkept (.inr rfl) h₁.opens⟩
      | succ j =>
        simp only [List.getElem?_cons_succ] at hj
        obtain ⟨c, hbefore, hafter, hat⟩ := h₂.opens j e' hj
        rw [show i + (j + 1) = i + 1 + j by omega]
        refine ⟨c, Adds.trans (hadds.mono fun r hr => ⟨i, ?_, ?_, hr⟩)
          (hbefore.mono fun r ⟨k, hk, hlt, hr⟩ => ⟨k, ?_, hlt, hr⟩), hafter, hat⟩
        all_goals omega

end Layout

section Networks

variable {bodies : List (Element Nat)} (hw : ∀ e ∈ bodies, e.Within (· < bodies.length))
include hw

/-- The network of bodies whose calls are of their own rules is laid out rule by rule. -/
theorem lays_networkOf : ∃ a a' : Arena, Layout.Bounds a bodies.length ∧
    Layout.LaysRules bodies.length 0 bodies a a' ∧ networkOf bodies = a'.network := by
  have h₀ : Layout.Bounds {} 0 := by
    refine ⟨rfl, rfl, fun i hi => absurd hi (Nat.not_lt_zero i), fun i hi => absurd hi (Nat.not_lt_zero i),
      fun {s st} hs => ?_⟩
    have h := lt_of_state hs
    have : (0 : Int) ≤ s ∧ s < 0 := h
    omega
  have h₁ := Layout.bounds_layoutBounds bodies.length h₀
  rw [Nat.zero_add] at h₁
  exact ⟨_, _, h₁, Layout.lays_rules (i := 0) hw (Nat.zero_add _) (Layout.proper_of_bounds h₁)
    (Nat.le_of_eq h₁.size.symm) fun j _ hj => ⟨_, h₁.start j hj, rfl, rfl, rfl⟩, rfl⟩

theorem laidAsIn_networkOf {i : Nat} {e : Element Nat} (he : bodies[i]? = some e) :
    e.LaidAsIn (networkOf bodies) i := by
  obtain ⟨a, a', -, h, hnet⟩ := lays_networkOf hw
  rw [hnet]
  have := h.laid i e he _ fun _ _ _ _ _ h => h
  rwa [Nat.zero_add] at this

theorem proper_networkOf : (networkOf bodies).Proper bodies.length ∧
    ∀ (i : Nat) (e : Element Nat), bodies[i]? = some e → e.LaidAs (networkOf bodies) i := by
  refine ⟨?_, fun i e he => (laidAsIn_networkOf hw he).laidAs⟩
  obtain ⟨a, a', -, h, hnet⟩ := lays_networkOf hw
  rw [hnet]
  exact h.proper

/-- A rule is entered at the entry of its body. Apart from its bounds, all states of the rule have been
added since the layout of the body began. -/
theorem opens_networkOf {i : Nat} {e : Element Nat} (he : bodies[i]? = some e) :
    ∃ b : Arena, (networkOf bodies).Exits (startState i)
        [Layout.free (e.layout startState i b).1.entry] ∧
      ∀ {s : Int} {st : State}, (networkOf bodies).state s = .ok st → st.rule = i →
        s = startState i ∨ s = stopState i ∨ (b.states.size : Int) ≤ s := by
  obtain ⟨a, a', ha, h, hnet⟩ := lays_networkOf hw
  obtain ⟨b, hbefore, hafter, hat⟩ := h.opens i e he
  rw [hnet]
  rw [Nat.zero_add] at hafter hat
  refine ⟨b, hat.exits (by decide), fun {s st} hs hr => ?_⟩
  obtain ⟨st₁, hs₁, hr₁⟩ | ⟨hle, -⟩ := hafter.state hs
  · obtain ⟨st₂, hs₂, hr₂⟩ | ⟨-, k, -, hlt, hk⟩ := hbefore.state hs₁
    · obtain ⟨j, -, ⟨rfl, rfl⟩ | ⟨rfl, rfl⟩⟩ := ha.only hs₂
      · exact .inl (congrArg startState (Int.ofNat.inj (hr₂.trans (hr₁.trans hr))))
      · exact .inr (.inl (congrArg stopState (Int.ofNat.inj (hr₂.trans (hr₁.trans hr)))))
    · omega
  · exact .inr (.inr hle)

end Networks

end RuleNetwork
