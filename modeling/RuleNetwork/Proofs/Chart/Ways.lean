import RuleNetwork.Proofs.Chart.Saturation

/-!
Counts and walks. A useful visit has a count, a count goes along a trail, and where two trails to a
visit part its count is two. A count of two in turn stands for two walks.
-/

set_option autoImplicit false

namespace RuleNetwork

open Network Relation

namespace Chart

variable {c : Chart} {i K : Nat} {types : List String} {g : Option Groups} {m : Counts}
  {u : OrderedSet Visit}

/-- The counts of the visits on derivations, raised until all are settled. -/
structure Counted (c : Chart) (i K : Nat) (types : List String) (u : OrderedSet Visit)
    (g : Option Groups) (m : Counts) : Prop where
  recognizes : c.Recognizes i types
  useful : ∀ v, v ∈ u.toList ↔ c.network.Visits types i K v
  raised : ReflTransGen (c.Raises g u.toList) ∅ m
  settled : ∀ v ∈ u.toList, c.Settled g m v

namespace Recognizes

variable (h : c.Recognizes i types)
include h

theorem contains_of_visits {v : Visit} (hv : c.network.Visits types i K v) : c.contains v = true := by
  obtain ⟨l, ⟨p, hp⟩, -⟩ := hv
  exact (h.contains v).2 ⟨p, l, hp⟩

end Recognizes

namespace Counted

variable (h : c.Counted i K types u g m)
include h

theorem proper : c.network.Proper c.index.grammar.rules.size := h.recognizes.index.grammar.network

theorem mem {v : Visit} (hv : c.network.Visits types i K v) : v ∈ u.toList := (h.useful v).2 hv

/-- What precedes a visit on a derivation is on a derivation too. -/
theorem tallied : c.Tallied i types u g m where
  recognizes := h.recognizes
  contains v hv := h.recognizes.contains_of_visits ((h.useful v).1 hv)
  closed v hv _ hw := h.mem (h.recognizes.along_of_precedes h.recognizes.rule
    (e := ⟨stopState i, 0, K⟩) ((h.useful v).1 hv) hw)
  raised := h.raised
  settled := h.settled

/-- A count of two stands for two walks. -/
theorem exists_walks {v : Visit} (hv : 2 ≤ m.of v) :
    ∃ j < c.index.grammar.rules.size, ∃ a b, a ≠ b ∧ c.network.Walks types j v a ∧
      c.network.Walks types j v b := by
  have ht := h.tallied
  obtain ⟨j, hj, ho, -⟩ :=
    h.recognizes.invocation_ok (ht.contains v (ht.mem_of_one_le (Nat.le_of_succ_le hv)))
  have hle := h.recognizes.le_encard (fun _ _ => true) ht.contains
    (fun _ => rfl) (fun h => absurd h Bool.noConfusion) h.raised hj ho
  obtain ⟨x, y, ⟨a, ha⟩, ⟨b, hb⟩, hne⟩ := Set.one_lt_encard_iff.1
    (lt_of_lt_of_le (by exact_mod_cast hv) hle)
  exact ⟨j, hj, a, b, fun hab => hne (ha.unique h.proper hj (hab ▸ hb)), ha.walks h.proper hj,
    hb.walks h.proper hj⟩

/-- A useful visit to which some walk leads has a count. -/
theorem one_le {j : Nat} (hj : j < c.index.grammar.rules.size) {l : List Frame} {v : Visit}
    {w : List Move} (he : c.network.Encloses types i K l j v) (hw : c.network.Walks types j v w) :
    1 ≤ m.of v := by
  obtain ⟨x, hx⟩ := hw.exists_outlines h.proper (fun _ _ => true) hj
  exact h.tallied.one_le hj (h.mem (he.visits hw)) hx

/-- A hop carries over the count of the visit that it leaves. -/
theorem le_weight {j : Nat} (hj : j < c.index.grammar.rules.size) {l : List Frame} {a v : Visit}
    {id : Int} {w : List Move} (he : c.network.Encloses types i K l j v)
    (hw : c.network.Walks types j a w) (hop : c.network.Hop types a id v) :
    ∃ t, ⟨⟨a.state, id, t⟩, a.position⟩ ∈ c.approaches v ∧
      max 1 (m.of a) ≤ weight g m ⟨j, v.origin⟩ v ⟨⟨a.state, id, t⟩, a.position⟩ := by
  have hp := h.proper
  have hone := h.one_le hj (he.hop hop) hw
  rw [Nat.max_eq_right hone]
  cases hop with
  | @read t k ht hr =>
    exact ⟨t, h.recognizes.mem_approaches_of_reads ht hr, (weight_of_reads hr).ge⟩
  | @call t callee follow z k r hc hr hz =>
    obtain ⟨j', hj', rfl, ht, -⟩ := hp.of_calls hc (hp.owns_of_walks hj hw)
    have hwalk : c.network.Walks types j' ⟨z, a.position, k⟩ r := by
      rw [Walks, ← ht]
      exact hr
    have hinner := h.one_le hj' (he.inner hw hc ht hz) hwalk
    obtain rfl := hp.eq_stop (hp.owns_of_walks hj' hwalk) hz
    refine ⟨t, h.recognizes.mem_approaches_of_calls hc (run_position hw).1 (run_position hr).1, ?_⟩
    rw [weight_of_calls hc]
    exact Nat.le_mul_of_pos_right _ (one_le_innerCount hinner)

/-- A count goes along a trail. -/
theorem le_of_trail {j : Nat} (hj : j < c.index.grammar.rules.size) {l : List Frame} {a v : Visit}
    {x : List Pace} {w : List Move} (he : c.network.Encloses types i K l j v)
    (hw : c.network.Walks types j a w) (ht : c.network.Trail types a x v) :
    min (m.of a) 2 ≤ m.of v := by
  induction ht with
  | nil => omega
  | @cons x v v' id ht hop ih =>
    obtain ⟨w', hw'⟩ := hw.trail ht
    obtain ⟨w'', hw''⟩ := hw'.hop hop
    obtain ⟨t, ha, hle⟩ := h.le_weight hj he hw' hop
    have hweight := h.tallied.weight_le (h.mem (he.visits hw'')) (h.proper.owns_of_walks hj hw'') ha
    have := ih (he.hop hop)
    omega

/-- Two trails to a visit make its count two. -/
theorem two_le_of_trails {j : Nat} (hj : j < c.index.grammar.rules.size) {l : List Frame} {v : Visit}
    {x x' : List Pace} (he : c.network.Encloses types i K l j v)
    (ht : c.network.Trail types ⟨startState j, v.origin, v.origin⟩ x v)
    (ht' : c.network.Trail types ⟨startState j, v.origin, v.origin⟩ x' v) (hne : x ≠ x') :
    2 ≤ m.of v := by
  obtain ⟨o, ho⟩ : ∃ o, o = v.origin := ⟨_, rfl⟩
  rw [← ho] at ht ht'
  have hstart : c.network.Walks types j ⟨startState j, o, o⟩ [] := rfl
  have hfirst : ∀ {x}, c.network.Encloses types i K l j ⟨startState j, o, o⟩ → x ≠ [] →
      c.network.Trail types ⟨startState j, o, o⟩ x ⟨startState j, o, o⟩ →
      2 ≤ m.of ⟨startState j, o, o⟩ := fun he hx ht => by
    cases ht with
    | nil => exact absurd rfl hx
    | cons ht hop =>
      obtain ⟨w, hw⟩ := hstart.trail ht
      obtain ⟨t, ha, hle⟩ := h.le_weight hj he hw hop
      exact h.tallied.two_le_of_start (h.mem (he.visits hstart)) (h.proper.owns_start hj)
        ⟨rfl, rfl⟩ ha ((Nat.le_max_left _ _).trans hle)
  induction x generalizing v x' with
  | nil =>
    cases ht
    exact hfirst he (Ne.symm hne) ht'
  | cons p x ih =>
    cases x' with
    | nil =>
      cases ht'
      exact hfirst he hne ht
    | cons p' x' =>
      obtain ⟨w, hw⟩ := hstart.trail ht
      have hv := h.mem (he.visits hw)
      have hown := h.proper.owns_of_walks hj hw
      cases ht with
      | @cons _ a _ id ht hop =>
        cases ht' with
        | @cons _ a' _ id' ht' hop' =>
          obtain ⟨q, hq⟩ := hstart.trail ht
          obtain ⟨q', hq'⟩ := hstart.trail ht'
          obtain ⟨t, ha, hle⟩ := h.le_weight hj he hq hop
          obtain ⟨t', ha', hle'⟩ := h.le_weight hj he hq' hop'
          by_cases hsame : a = a' ∧ id = id'
          · obtain ⟨rfl, rfl⟩ := hsame
            have hne' : x ≠ x' := fun hx => hne (by rw [hx])
            have htwo := ih (he.hop hop) hne' ht' ht (ho.trans hop.origin)
            have := h.tallied.weight_le hv hown ha
            omega
          · refine h.tallied.two_le_of_ne hv hown ha ha' (fun heq => hsame ?_)
              ((Nat.le_max_left _ _).trans hle) ((Nat.le_max_left _ _).trans hle')
            simp only [Approach.mk.injEq, Arc.mk.injEq] at heq
            obtain ⟨⟨hs, hid, -⟩, hpos⟩ := heq
            obtain ⟨s, o₁, k⟩ := a
            obtain ⟨s', o₂, k'⟩ := a'
            have h₁ := ht.origin
            have h₂ := ht'.origin
            simp only at hs hpos h₁ h₂
            rw [hs, hpos, h₁, h₂]
            exact ⟨rfl, hid⟩

/-- Two hops from a visit that both lead to an end make its count two. -/
theorem two_le_of_hops {j : Nat} (hj : j < c.index.grammar.rules.size) {l : List Frame}
    {u w w' v : Visit} {id id' : Int} {x x' : List Pace} {q : List Move}
    (he : c.network.Encloses types i K l j v) (hq : c.network.Walks types j u q)
    (hop : c.network.Hop types u id w) (hop' : c.network.Hop types u id' w')
    (ht : c.network.Trail types w x v) (ht' : c.network.Trail types w' x' v)
    (hne : id ≠ id' ∨ w ≠ w') : 2 ≤ m.of v := by
  obtain ⟨y, hy⟩ := exists_trail hq
  have horigin : v.origin = u.origin := ht.origin.trans hop.origin
  have hto := (Trail.cons hy hop).append ht
  have hto' := (Trail.cons hy hop').append ht'
  rw [← horigin] at hto hto'
  refine h.two_le_of_trails hj he hto hto' (append_ne_append fun heq => ?_)
  obtain ⟨-, hid, hw⟩ := Pace.mk.inj heq
  exact hne.elim (fun hne => hne hid) fun hne => hne hw

end Counted

end Chart

end RuleNetwork
