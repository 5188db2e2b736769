import RuleNetwork.Proofs.Parsing.Alternatives

/-!
Two derivations tie where they part. From there on they are followed out of the calls that are open,
as long as those are made within the group: whenever both come to the same end of an invocation, that
end is come to in two ways. The call that leads out of the group, or the goal, is then the context.
-/

set_option autoImplicit false

namespace RuleNetwork

open Network Relation

namespace Ties

variable {t : Ties} {i K : Nat} {types : List String}

namespace Accepts

variable (h : t.Accepts i K types)
include h

theorem useful_of_encloses {l : List Frame} {j : Nat} {v : Visit} {w : List Move}
    (he : t.chart.network.Encloses types i K l j v) (hw : t.chart.network.Walks types j v w) :
    v ∈ t.useful.toList := (h.counted.useful v).2 (he.visits hw)

theorem onward_of_trail {l : List Frame} {j : Nat} {u v : Visit} {w : List Move} {x : List Pace}
    (he : t.chart.network.Encloses types i K l j v) (hw : t.chart.network.Walks types j u w)
    (ht : t.chart.network.Trail types u x v) : ReflTransGen (t.Onward types) u v := by
  induction ht with
  | nil => exact .refl
  | cons ht hop ih =>
    obtain ⟨w', hw'⟩ := hw.trail ht
    obtain ⟨w'', hw''⟩ := hw'.hop hop
    exact (ih (he.hop hop)).tail (.hop (h.useful_of_encloses he hw'') hop)

theorem together_trans {a b c : Invocation} (hab : t.groups.together a b = true)
    (hbc : t.groups.together b c = true) : t.groups.together a c = true := by
  obtain ⟨h₁, h₂⟩ := (h.together a b).1 hab
  obtain ⟨h₃, h₄⟩ := (h.together b c).1 hbc
  exact (h.together a c).2 ⟨h₁.trans h₃, h₄.trans h₂⟩

theorem together_symm {a b : Invocation} (hab : t.groups.together a b = true) :
    t.groups.together b a = true := (h.together b a).2 ((h.together a b).1 hab).symm

theorem member_of_together {a b c : Invocation} (hc : a ∈ t.groups.membersOf c)
    (hab : t.groups.together b a = true) : b ∈ t.groups.membersOf c := by
  obtain rfl | hac := (h.members c a).1 hc
  · exact (h.members a b).2 (.inr (h.together_symm hab))
  · exact (h.members c b).2 (.inr (h.together_trans hac (h.together_symm hab)))

end Accepts

end Ties

namespace Chart.Counted

variable {c : Chart} {i K : Nat} {types : List String} {g : Groups} {m : Counts} {u : OrderedSet Visit}

/-- Within a group the count of a call's end goes over to where the call resumes. -/
theorem two_le_of_inner (h : c.Counted i K types u (some g) m) {j j' : Nat}
    (hj : j < c.index.grammar.rules.size) (hj' : j' < c.index.grammar.rules.size) {l : List Frame}
    {v : Visit} {id follow : Int} {t : Transition} {k : Nat} {q r : List Move}
    (hc : c.network.Calls v.state id t j' follow) (ht : t.target = startState j')
    (hq : c.network.Walks types j v q)
    (hr : c.network.Walks types j' ⟨stopState j', v.position, k⟩ r)
    (he : c.network.Encloses types i K l j ⟨follow, v.origin, k⟩)
    (hg : g.together ⟨j, v.origin⟩ ⟨j', v.position⟩ = true)
    (htwo : 2 ≤ m.of ⟨stopState j', v.position, k⟩) : 2 ≤ m.of ⟨follow, v.origin, k⟩ := by
  have hp := h.proper
  have hz := hp.ends_stop hj'
  have hrun : c.network.run types (.enter t.target v.position) r =
      some ⟨stopState j', v.position, k, []⟩ := by
    rw [ht]
    exact hr
  have hop : c.network.Hop types v id ⟨follow, v.origin, k⟩ := .call hc hrun hz
  have hone := h.one_le hj (he.hop hop) hq
  obtain ⟨w, hw⟩ := hq.hop hop
  have ha := h.recognizes.mem_approaches_of_calls hc (run_position hq).1 (run_position hrun).1
  have hle := h.tallied.weight_le (h.mem (he.visits hw)) (hp.owns_of_walks hj hw) ha
  rw [weight_of_call (v := ⟨follow, v.origin, k⟩) hc.2] at hle
  unfold innerCount at hle
  simp only [hg, if_true, Approach.origin, Int.toNat_natCast] at hle
  have hmul : 1 * 2 ≤ m.of ⟨v.state, v.origin, v.position⟩ *
      m.of ⟨stopState j', v.position, k⟩ := Nat.mul_le_mul hone htwo
  omega

end Chart.Counted

namespace Ties.Accepts

variable {t : Ties} {i K : Nat} {types : List String} (h : t.Accepts i K types)
include h

/-- At the end of the outermost invocation the goal is the context. -/
theorem context_of_goal {b : Invocation} {j o m m' : Nat} (hj : j < t.chart.index.grammar.rules.size)
    (he : t.chart.network.Encloses types i K [] j ⟨stopState j, o, m⟩)
    (he' : t.chart.network.Encloses types i K [] j ⟨stopState j, o, m'⟩)
    (hm : m ≠ m' ∨ 2 ≤ t.counts.of ⟨stopState j, o, m⟩) (hb : ⟨j, o⟩ ∈ t.groups.membersOf b) :
    ∃ x, t.IsContext i K b x ∧ t.Ambiguous b.origin x ∧
      (∃ e ∈ x, t.Comes types ⟨stopState j, o, m⟩ e) ∧
      ∃ e ∈ x, t.Comes types ⟨stopState j, o, m'⟩ e := by
  have hp := h.counted.proper
  have hi := h.counted.recognizes.rule
  have hz := hp.ends_stop hj
  obtain ⟨⟨p, hentry⟩, q, hq⟩ := he
  obtain ⟨-, q', hq'⟩ := he'
  have hown := hp.owns_of_run hentry (hp.owns_start hi)
  obtain rfl : j = i := Int.ofNat.inj ((hp.owns_start hj).unique hown)
  obtain rfl : o = 0 := origin_of_run hentry
  have hend : ∀ {m : Nat} {q : List Move}, t.chart.network.run types
      ⟨stopState j, 0, m, []⟩ q = some ⟨stopState j, 0, K, []⟩ → m = K := by
    intro m q hq
    cases q with
    | nil => simpa using hq
    | cons => exact absurd hq (not_run_of_ends hz)
  obtain rfl := hend hq
  obtain rfl := (hend hq').symm
  have htwo := hm.resolve_left fun hne => hne rfl
  have hcomes : t.Comes types ⟨stopState j, 0, m⟩ ⟨Int.ofNat j, some m⟩ :=
    ⟨_, _, .refl, hp.owns_stop hj, hz, rfl⟩
  refine ⟨_, .goal hb, .inr ⟨j, m, List.mem_singleton_self _, ?_⟩, ⟨_, List.mem_singleton_self _, hcomes⟩,
    _, List.mem_singleton_self _, hcomes⟩
  rw [← h.origin_of_member hb]
  exact htwo

/-- A call from outside of the group is the context of what it accepts. -/
theorem context_of_call {b a : Invocation} {j o m m' : Nat} {caller : Visit} {follow : Int}
    (hj : j < t.chart.index.grammar.rules.size) (hc : (caller, follow) ∈ t.callersOf ⟨j, o⟩)
    (ha : a.Owns t.chart.network caller) (hout : t.groups.together a ⟨j, o⟩ = false)
    (hv : ⟨stopState j, o, m⟩ ∈ t.useful.toList) (hv' : ⟨stopState j, o, m'⟩ ∈ t.useful.toList)
    (hf : ⟨follow, caller.origin, m⟩ ∈ t.useful.toList)
    (hf' : ⟨follow, caller.origin, m'⟩ ∈ t.useful.toList)
    (hm : m ≠ m' ∨ 2 ≤ t.counts.of ⟨stopState j, o, m⟩) (hb : ⟨j, o⟩ ∈ t.groups.membersOf b) :
    ∃ x, t.IsContext i K b x ∧ t.Ambiguous b.origin x ∧
      (∃ e ∈ x, t.Comes types ⟨stopState j, o, m⟩ e) ∧
      ∃ e ∈ x, t.Comes types ⟨stopState j, o, m'⟩ e := by
  have hp := h.counted.proper
  have hends : ∀ {m}, ⟨stopState j, o, m⟩ ∈ t.useful.toList → m ∈ t.endsOf ⟨j, o⟩ := fun hv =>
    (h.ends _ _).2 ⟨_, hv, hp.owns_stop hj, hp.ends_stop hj, rfl, rfl⟩
  have hcomes : ∀ m, t.Comes types ⟨stopState j, o, m⟩ ⟨Int.ofNat j, some m⟩ := fun m =>
    ⟨_, _, .refl, hp.owns_stop hj, hp.ends_stop hj, rfl⟩
  have hmem : (⟨Int.ofNat j, some m⟩ : RuleEnd) ∈ t.accepted ⟨j, o⟩ caller follow :=
    mem_accepted.2 ⟨m, hends hv, hf, rfl⟩
  have hmem' : (⟨Int.ofNat j, some m'⟩ : RuleEnd) ∈ t.accepted ⟨j, o⟩ caller follow :=
    mem_accepted.2 ⟨m', hends hv', hf', rfl⟩
  refine ⟨_, .call hb hc ha hout (List.ne_nil_of_mem hmem), ?_, ⟨_, hmem, hcomes m⟩, _, hmem', hcomes m'⟩
  obtain hne | htwo := hm
  · refine .inl ((two_le_length_iff (nodup_accepted _ _ _) hmem).2 ⟨_, hmem', fun heq => hne ?_⟩)
    simpa using heq.symm
  · refine .inr ⟨j, m, hmem, ?_⟩
    rw [← h.origin_of_member hb]
    exact htwo

/-- The end of an invocation leads on in the caller, if the call is made within the group. -/
theorem onward_of_caller {a : Invocation} {l : List Frame} {j j' o m : Nat} {caller v : Visit}
    {follow : Int} {w : List Move} {x : List Pace} (hj : j < t.chart.index.grammar.rules.size)
    (hc : (caller, follow) ∈ t.callersOf ⟨j, o⟩) (ha : a.Owns t.chart.network caller)
    (hg : t.groups.together a ⟨j, o⟩ = true) (he : t.chart.network.Encloses types i K l j' v)
    (hw : t.chart.network.Walks types j' ⟨follow, o, m⟩ w)
    (hx : t.chart.network.Trail types ⟨follow, o, m⟩ x v) :
    ReflTransGen (t.Onward types) ⟨stopState j, o, m⟩ v := by
  have hp := h.counted.proper
  have hback : t.Onward types ⟨stopState j, o, m⟩ ⟨follow, o, m⟩ :=
    .back (u := ⟨stopState j, o, m⟩) (hp.ends_stop hj) ⟨hp.owns_stop hj, rfl⟩ hc ha hg
      (h.useful_of_encloses (he.trail hx) hw)
  exact .head hback (h.onward_of_trail he hw hx)

/-- Two ways on through an invocation lead to one ambiguous context of its group. -/
theorem exists_context {b : Invocation} {l : List Frame} {j o m m' : Nat}
    (hj : j < t.chart.index.grammar.rules.size)
    (he : t.chart.network.Encloses types i K l j ⟨stopState j, o, m⟩)
    (he' : t.chart.network.Encloses types i K l j ⟨stopState j, o, m'⟩)
    (hw : ∃ w, t.chart.network.Walks types j ⟨stopState j, o, m⟩ w)
    (hw' : ∃ w, t.chart.network.Walks types j ⟨stopState j, o, m'⟩ w)
    (hm : m ≠ m' ∨ 2 ≤ t.counts.of ⟨stopState j, o, m⟩) (hb : ⟨j, o⟩ ∈ t.groups.membersOf b) :
    ∃ x, t.IsContext i K b x ∧ t.Ambiguous b.origin x ∧
      (∃ e ∈ x, t.Comes types ⟨stopState j, o, m⟩ e) ∧
      ∃ e ∈ x, t.Comes types ⟨stopState j, o, m'⟩ e := by
  have hp := h.counted.proper
  have hi := h.counted.recognizes.rule
  obtain ⟨w, hw⟩ := hw
  obtain ⟨w', hw'⟩ := hw'
  induction l generalizing j o m m' w w' with
  | nil => exact h.context_of_goal hj he he' hm hb
  | cons f l ih =>
    have hz := hp.ends_stop hj
    obtain ⟨p, hentry⟩ := he.1
    obtain ⟨j₁, hj₁, s, id, tr, q, a, hown, hc, ht, hq, ha⟩ := hp.exists_caller hi hj hentry
    have hresume := he.outer hz ha
    have hresume' := he'.outer hz ha
    have hrun : ∀ {m w}, t.chart.network.Walks types j ⟨stopState j, o, m⟩ w →
        t.chart.network.run types (.enter tr.target o) w = some ⟨stopState j, o, m, []⟩ := by
      intro m w hw
      rw [ht]
      exact hw
    have hop : ∀ {m w}, t.chart.network.Walks types j ⟨stopState j, o, m⟩ w →
        t.chart.network.Hop types ⟨s, f.origin, o⟩ id ⟨f.resume, f.origin, m⟩ := fun hw =>
      .call (u := ⟨s, f.origin, o⟩) hc (hrun hw) hz
    have hqm := hq.call hc (hrun hw) hz
    have hqm' := hq.call hc (hrun hw') hz
    have hcaller : (⟨s, f.origin, o⟩, f.resume) ∈ t.callersOf ⟨j, o⟩ :=
      (h.callers _ _).2 ⟨h.useful_of_encloses (hresume.hop (hop hw)) hq, rfl, id, tr, hc⟩
    have howns : (⟨j₁, f.origin⟩ : Invocation).Owns t.chart.network ⟨s, f.origin, o⟩ := ⟨hown, rfl⟩
    cases hg : t.groups.together ⟨j₁, f.origin⟩ ⟨j, o⟩ with
    | false =>
      exact h.context_of_call hj hcaller howns hg (h.useful_of_encloses he hw)
        (h.useful_of_encloses he' hw') (h.useful_of_encloses hresume hqm)
        (h.useful_of_encloses hresume' hqm') hm hb
    | true =>
      obtain rfl : o = f.origin := Chart.origin_of_emptyCalls ((h.together _ _).1 hg).1
      obtain ⟨k, x, hx, hstop⟩ := hp.exists_stop hi hj₁ hresume hqm
      obtain ⟨k', x', hx', hstop'⟩ := hp.exists_stop hi hj₁ hresume' hqm'
      -- two ends below, or one in two ways, make one in two ways above
      have hthere : m ≠ m' ∨ 2 ≤ t.counts.of ⟨f.resume, f.origin, m⟩ := hm.imp_right fun htwo =>
        h.counted.two_le_of_inner (v := ⟨s, f.origin, f.origin⟩) hj₁ hj hc ht hq hw hresume hg htwo
      have hk : k ≠ k' ∨ 2 ≤ t.counts.of ⟨stopState j₁, f.origin, k⟩ := by
        refine (eq_or_ne k k').symm.imp_right fun heq => ?_
        subst heq
        obtain hne | htwo := hthere
        · exact h.counted.two_le_of_hops hj₁ hstop hq (hop hw) (hop hw') hx hx'
            (.inr fun heq => hne (Visit.mk.inj heq).2.2)
        · have hle : min (t.counts.of ⟨f.resume, f.origin, m⟩) 2 ≤
              t.counts.of ⟨stopState j₁, f.origin, k⟩ := h.counted.le_of_trail hj₁ hstop hqm hx
          omega
      obtain ⟨y, hy⟩ := hqm.trail hx
      obtain ⟨y', hy'⟩ := hqm'.trail hx'
      obtain ⟨c, hctx, hamb, ⟨e, hec, he⟩, e', hec', he'⟩ :=
        ih hj₁ hstop hstop' hk (h.member_of_together hb hg) y hy y' hy'
      have hback := h.onward_of_caller hj hcaller howns hg hstop hqm hx
      have hback' := h.onward_of_caller hj hcaller howns hg hstop' hqm' hx'
      exact ⟨c, hctx, hamb, ⟨e, hec, he.of_reach hback⟩, e', hec', he'.of_reach hback'⟩

/-- Where two derivations part, the ways that they take meet. -/
theorem exists_meets {a b : List Move} (hne : a ≠ b)
    (ha : t.chart.network.run types (.enter (startState i) 0) a = some ⟨stopState i, 0, K, []⟩)
    (hb : t.chart.network.run types (.enter (startState i) 0) b = some ⟨stopState i, 0, K, []⟩) :
    ∃ v ∈ t.useful.toList, ∃ id id', id ≠ id' ∧ t.Meets i K types v id id' := by
  have hp := h.counted.proper
  have hi := h.counted.recognizes.rule
  have hz := hp.ends_stop hi
  obtain ⟨p, ⟨s, o, k, l⟩, id, id', r, r', rfl, rfl, hid, hrun⟩ := exists_parting ha hz hb hz hne
  have hrest : ∀ {m}, t.chart.network.run types (.enter (startState i) 0) (p ++ m) =
      some ⟨stopState i, 0, K, []⟩ →
      t.chart.network.run types ⟨s, o, k, l⟩ m = some ⟨stopState i, 0, K, []⟩ := by
    intro m hm
    obtain ⟨e, he, hm⟩ := run_append_iff.1 hm
    rw [hrun] at he
    cases he
    exact hm
  obtain ⟨j, hj, p₀, q, -, hq, hown, hentry⟩ := hp.exists_walk hi (v := ⟨s, o, k⟩) hrun
  -- either way there is a hop, then a trail to the end of the invocation
  have hway : ∀ {id r}, t.chart.network.run types (.enter (startState i) 0) (p ++ .along id :: r) =
      some ⟨stopState i, 0, K, []⟩ → ∃ w x m, t.chart.network.Hop types ⟨s, o, k⟩ id w ∧
        t.chart.network.Trail types w x ⟨stopState j, o, m⟩ ∧
        t.chart.network.Encloses types i K l j ⟨stopState j, o, m⟩ := by
    intro id r hm
    obtain ⟨w, r', hop, hw⟩ := exists_hop (v := ⟨s, o, k⟩) (hrest hm) (Nat.zero_le _)
    obtain ⟨q', hq'⟩ := hq.hop hop
    have horigin : w.origin = o := hop.origin
    obtain ⟨m, x, hx, he⟩ := hp.exists_stop hi hj ⟨⟨p₀, by rw [horigin]; exact hentry⟩, r', hw⟩ hq'
    rw [horigin] at hx he
    exact ⟨w, x, m, hop, hx, he⟩
  obtain ⟨w, x, m, hop, hx, he⟩ := hway ha
  obtain ⟨w', x', m', hop', hx', he'⟩ := hway hb
  obtain ⟨qw, hqw⟩ := hq.hop hop
  obtain ⟨qw', hqw'⟩ := hq.hop hop'
  have hm : m ≠ m' ∨ 2 ≤ t.counts.of ⟨stopState j, o, m⟩ := by
    refine (eq_or_ne m m').symm.imp_right fun heq => ?_
    subst heq
    exact h.counted.two_le_of_hops hj he hq hop hop' hx hx' (.inl hid)
  obtain ⟨c, hctx, hamb, ⟨e, hec, hcomes⟩, e', hec', hcomes'⟩ := h.exists_context (b := ⟨j, o⟩) hj he he'
    (hqw.trail hx) (hqw'.trail hx') hm ((h.members _ _).2 (.inl rfl))
  refine ⟨⟨s, o, k⟩, h.useful_of_encloses ((he.trail hx).hop hop) hq, id, id', hid, ⟨j, o⟩, c,
    ⟨hown, rfl⟩, hctx, hamb, ⟨e, hec, w, h.useful_of_encloses (he.trail hx) hqw, hop, ?_⟩, e', hec', w',
    h.useful_of_encloses (he'.trail hx') hqw', hop', ?_⟩
  · exact hcomes.of_reach (h.onward_of_trail he hqw hx)
  · exact hcomes'.of_reach (h.onward_of_trail he' hqw' hx')

end Ties.Accepts

end RuleNetwork
