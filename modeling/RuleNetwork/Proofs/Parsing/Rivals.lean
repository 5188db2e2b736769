import RuleNetwork.Proofs.Parsing.Alternatives
import RuleNetwork.Proofs.Run.Trail

/-!
An ambiguous context stands for two derivations. If its call ends in two places and both ends belong
to one derivation, the call is made twice from one visit: one within the other, which only a group
does, or one after the other, and then the two can change places.
-/

set_option autoImplicit false

namespace RuleNetwork

open Network Relation

namespace Ties.Accepts

variable {t : Ties} {i K : Nat} {types : List String} (h : t.Accepts i K types)
include h

theorem useful_of_run {p q : List Move} {s : Int} {o k : Nat} {l : List Frame}
    (hp : t.chart.network.run types (.enter (startState i) 0) p = some ⟨s, o, k, l⟩)
    (hq : t.chart.network.run types ⟨s, o, k, l⟩ q = some ⟨stopState i, 0, K, []⟩) :
    ⟨s, o, k⟩ ∈ t.useful.toList :=
  (h.counted.useful _).2 ⟨l, ⟨p, hp⟩, q, hq⟩

/-- What a run enters without reading is called before any input. -/
theorem emptyCalls_of_run {j o : Nat} (hj : j < t.chart.index.grammar.rules.size) {s : Int} {o' : Nat}
    {l base : List Frame} {p y q : List Move}
    (hp : t.chart.network.run types (.enter (startState i) 0) p =
      some ((Config.enter (startState j) o).under base))
    (hy : t.chart.network.run types (.enter (startState j) o) y = some ⟨s, o', o, l⟩)
    (hq : t.chart.network.run types ⟨s, o', o, l ++ base⟩ q = some ⟨stopState i, 0, K, []⟩) :
    ∃ r : Nat, t.chart.network.Owns r s ∧ o' = o ∧
      ReflTransGen (t.chart.EmptyCall (· ∈ t.useful.toList)) ⟨j, o⟩ ⟨r, o⟩ := by
  have hproper := h.counted.proper
  induction l generalizing s o' y q with
  | nil =>
    obtain rfl := origin_of_run hy
    exact ⟨j, hproper.owns_of_run hy (hproper.owns_start hj), rfl, .refl⟩
  | cons f l ih =>
    obtain ⟨y₁, s₁, k, id, tr, callee, y₂, rfl, h₁, hc, h₂⟩ :=
      exists_call (a := []) hy (Nat.zero_le _) rfl
    obtain rfl := origin_of_run h₂
    have hle : o ≤ o' := (run_position h₁).1
    have hle' : o' ≤ o := (run_position h₂).1
    obtain rfl : o = o' := Nat.le_antisymm hle hle'
    obtain ⟨resume, origin⟩ := f
    have hrest := run_trans (run_into hc h₂ (l ++ base)) hq
    obtain ⟨r, hr, rfl, hchain⟩ := ih h₁ hrest
    obtain ⟨j', hj', rfl, ht, -⟩ := hproper.of_calls hc hr
    have hsite := run_trans hp (run_under h₁ base)
    have hentered := run_snoc hsite (step_call hc)
    have hinner := run_trans (run_under h₂ (⟨resume, origin⟩ :: (l ++ base))) hq
    have hown := hproper.owns_of_run h₂ (ht ▸ hproper.owns_start hj')
    exact ⟨j', hown, rfl, hchain.tail ⟨rfl, s₁, id, tr, resume, hr, hc, h.useful_of_run hsite hrest,
      h.useful_of_run hentered hinner⟩⟩

/-- Some derivation makes a call that a context accepts an end of. -/
theorem exists_through {u : Visit} {id callee follow : Int} {tr : Transition} {m : Nat}
    {r : List Move} {z : Int} (hc : t.chart.network.Calls u.state id tr callee follow)
    (hu : u ∈ t.useful.toList) (hf : ⟨follow, u.origin, m⟩ ∈ t.useful.toList)
    (hr : t.chart.network.run types (.enter tr.target u.position) r = some ⟨z, u.position, m, []⟩)
    (hz : t.chart.network.Ends z) :
    ∃ p v l, t.chart.network.Through types i K u id follow tr m p r v l := by
  have hp := h.counted.proper
  obtain ⟨owner, hown⟩ := hc.1.owned
  obtain ⟨-, -, -, -, hin⟩ := hp.of_calls hc hown
  obtain ⟨j, -, -, l, w, ⟨⟨p, hentry⟩, v, hv⟩, hw⟩ := hp.exists_encloses_walks
    h.counted.recognizes.rule (h.visits hf) (h.visits hu) hin.owns hown
  exact ⟨p ++ w, v, l, run_trans hentry (run_under hw l), ⟨z, hr, hz⟩, hv⟩

/-- A caller that comes up again within its own call is of one group with its callee. -/
theorem together_of_nested {a b : Invocation} {u : Visit} {id follow : Int} {tr : Transition}
    {m : Nat} {p r v y q : List Move} {l l' : List Frame} (ha : a.Owns t.chart.network u)
    (hc : t.chart.network.Calls u.state id tr b.rule follow) (hb : b.origin = u.position)
    (hthrough : t.chart.network.Through types i K u id follow tr m p r v l)
    (hr : r = y ++ q) (hy : t.chart.network.run types (.enter (startState i) 0) (p ++ .along id :: y) =
      some (u.config l')) : t.groups.together a b = true := by
  have hp := h.counted.proper
  obtain ⟨j, hj, hrule, ht, -⟩ := hp.of_calls hc ha.1
  obtain ⟨hbefore, ⟨z, hrun, hz⟩, hafter⟩ := hthrough
  obtain ⟨rule, origin⟩ := b
  obtain rfl : rule = Int.ofNat j := hrule
  obtain rfl : origin = u.position := hb
  obtain rfl := hr
  obtain ⟨⟨s, o, k, l₁⟩, hy₁, hq₁⟩ := run_append_iff.1 hrun
  have hentry := run_snoc hbefore (step_call hc)
  have hthere := run_trans hentry (run_under hy₁ (⟨follow, u.origin⟩ :: l))
  rw [List.append_assoc, List.singleton_append, hy] at hthere
  obtain ⟨rfl, rfl, rfl, -⟩ : u.state = s ∧ u.origin = o ∧ u.position = k ∧
      l' = l₁ ++ ⟨follow, u.origin⟩ :: l := by
    simpa [Visit.config] using hthere
  have hrest := run_trans (run_under hq₁ (⟨follow, u.origin⟩ :: l))
    (run_cons_iff.2 ⟨_, step_back hz, hafter⟩)
  have hinner := run_trans (run_under hrun (⟨follow, u.origin⟩ :: l))
    (run_cons_iff.2 ⟨_, step_back hz, hafter⟩)
  have hsite := h.useful_of_run hbefore (run_trans (run_over hc hrun hz u.origin l) hafter)
  have htarget := h.useful_of_run hentry hinner
  rw [ht] at hentry hy₁
  obtain ⟨r, hown, horigin, hchain⟩ := h.emptyCalls_of_run hj hentry hy₁ hrest
  obtain rfl : a = ⟨r, u.position⟩ := ha.unique ⟨hown, horigin.symm⟩
  rw [horigin] at hsite
  have hcall : t.chart.EmptyCall (· ∈ t.useful.toList) ⟨r, u.position⟩ ⟨j, u.position⟩ :=
    ⟨rfl, u.state, id, tr, follow, hown, hc, hsite, htarget⟩
  refine (h.together _ _).2 ⟨.single hcall, ?_⟩
  obtain heq | hchain := reflTransGen_iff_eq_or_transGen.1 hchain
  · rw [heq]
    rw [heq] at hcall
    exact .single hcall
  · exact hchain

/-- Two ends that a call from outside of the group accepts belong to two derivations. -/
theorem exists_rival {a b : Invocation} {u : Visit} {id follow : Int} {tr : Transition}
    {m m' : Nat} {p r v p' r' v' : List Move} {l l' : List Frame} (ha : a.Owns t.chart.network u)
    (hc : t.chart.network.Calls u.state id tr b.rule follow) (hb : b.origin = u.position)
    (hout : t.groups.together a b = false) (hne : m ≠ m')
    (hthrough : t.chart.network.Through types i K u id follow tr m p r v l)
    (hthrough' : t.chart.network.Through types i K u id follow tr m' p' r' v' l')
    (hle : p.length ≤ p'.length) :
    ∃ d d', d ≠ d' ∧
      t.chart.network.run types (.enter (startState i) 0) d = some ⟨stopState i, 0, K, []⟩ ∧
      t.chart.network.run types (.enter (startState i) 0) d' = some ⟨stopState i, 0, K, []⟩ := by
  have hrr : ∀ {x x'}, r ++ .back :: x = r' ++ .back :: x' → False := by
    intro x x' heq
    obtain ⟨z, hrun, hz⟩ := hthrough.inside
    obtain ⟨z', hrun', hz'⟩ := hthrough'.inside
    obtain rfl := eq_of_append_back hrun hz hrun' hz' heq
    exact hne (hthrough.position_eq hthrough')
  have hd := hthrough.derives hc
  have hd' := hthrough'.derives hc
  by_cases hsame : p ++ .along id :: (r ++ .back :: v) = p' ++ .along id :: (r' ++ .back :: v')
  swap
  · exact ⟨_, _, hsame, hd, hd'⟩
  obtain ⟨y, rfl, hy⟩ : ∃ y, p' = p ++ y ∧
      .along id :: (r ++ .back :: v) = y ++ .along id :: (r' ++ .back :: v') := by
    obtain ⟨y, rfl, hy⟩ | ⟨y, rfl, hy⟩ := List.append_eq_append_iff.1 hsame
    · exact ⟨y, rfl, hy⟩
    · rw [List.length_append] at hle
      obtain rfl := List.length_eq_zero_iff.1 (show y.length = 0 by omega)
      exact ⟨[], by simp, by simpa using hy.symm⟩
  cases y with
  | nil =>
    rw [List.nil_append, List.cons.injEq] at hy
    exact (hrr hy.2).elim
  | cons x y =>
    rw [List.cons_append, List.cons.injEq] at hy
    obtain ⟨rfl, hy⟩ := hy
    obtain ⟨q, rfl, hq⟩ | ⟨q, rfl, hq⟩ := List.append_eq_append_iff.1 hy
    · -- one after the other
      cases q with
      | nil => simp at hq
      | cons x q =>
        rw [List.cons_append, List.cons.injEq] at hq
        obtain ⟨rfl, rfl⟩ := hq
        refine ⟨_, _, fun heq => ?_, hd, hthrough.derives_swapped hthrough' hc⟩
        exact hrr (List.cons.inj (List.append_cancel_left heq)).2
    · -- one within the other
      have hnested := h.together_of_nested ha hc hb hthrough rfl hthrough'.before
      rw [hout] at hnested
      cases hnested

/-- An end of a call that is come to in two ways belongs to two derivations. -/
theorem exists_twin {u : Visit} {id follow : Int} {tr : Transition} {j m : Nat}
    (hc : t.chart.network.Calls u.state id tr (Int.ofNat j) follow) (hu : u ∈ t.useful.toList)
    (hf : ⟨follow, u.origin, m⟩ ∈ t.useful.toList)
    (htwo : 2 ≤ t.counts.of ⟨stopState j, u.position, m⟩) :
    ∃ d d', d ≠ d' ∧
      t.chart.network.run types (.enter (startState i) 0) d = some ⟨stopState i, 0, K, []⟩ ∧
      t.chart.network.run types (.enter (startState i) 0) d' = some ⟨stopState i, 0, K, []⟩ := by
  have hp := h.counted.proper
  obtain ⟨owner, hown⟩ := hc.1.owned
  obtain ⟨j', hj', hrule, ht, -⟩ := hp.of_calls hc hown
  obtain rfl := Int.ofNat.inj hrule
  obtain ⟨j', hj, w, w', hww, hw, hw'⟩ := h.counted.exists_walks htwo
  obtain rfl := Int.ofNat.inj ((hp.owns_of_walks hj hw).unique (hp.owns_stop hj'))
  have hz := hp.ends_stop hj
  rw [Walks, ← ht] at hw hw'
  obtain ⟨p, v, l, hthrough⟩ := h.exists_through hc hu hf hw hz
  have hthrough' : t.chart.network.Through types i K u id follow tr m p w' v l :=
    ⟨hthrough.before, ⟨_, hw', hz⟩, hthrough.after⟩
  refine ⟨_, _, fun heq => hww ?_, hthrough.derives hc, hthrough'.derives hc⟩
  exact List.append_cancel_right (List.cons.inj (List.append_cancel_left heq)).2

/-- An ambiguous context stands for two derivations. -/
theorem exists_derivations {b : Invocation} {x : Context} (hx : t.IsContext i K b x)
    (hamb : t.Ambiguous b.origin x) :
    ∃ d d', d ≠ d' ∧
      t.chart.network.run types (.enter (startState i) 0) d = some ⟨stopState i, 0, K, []⟩ ∧
      t.chart.network.run types (.enter (startState i) 0) d' = some ⟨stopState i, 0, K, []⟩ := by
  have hp := h.counted.proper
  have hi := h.counted.recognizes.rule
  cases hx with
  | goal hm =>
    obtain hlen | ⟨r, m, hmem, htwo⟩ := hamb
    · exact absurd hlen (by simp)
    · cases List.mem_singleton.1 hmem
      rw [← h.origin_of_member hm] at htwo
      obtain ⟨j, hj, d, d', hne, hd, hd'⟩ := h.counted.exists_walks htwo
      obtain rfl := Int.ofNat.inj ((hp.owns_of_walks hj hd).unique (hp.owns_stop hi))
      exact ⟨d, d', hne, hd, hd'⟩
  | @call a member caller follow hm hc ha hout hne =>
    obtain ⟨hu, ho, id, tr, hcall⟩ := (h.callers _ _).1 hc
    have hrun : ∀ {k}, k ∈ t.endsOf member → ∃ r z, t.chart.network.run types
        (.enter tr.target caller.position) r = some ⟨z, caller.position, k, []⟩ ∧
        t.chart.network.Ends z := fun hk => by
      obtain ⟨v, hv, he⟩ := (h.ends _ _).1 hk
      refine h.run_of_end hcall hv ?_
      obtain ⟨hown, hz, hvo, hvk⟩ := he
      exact ⟨hown, hz, hvo.trans ho.symm, hvk⟩
    obtain hlen | ⟨r, m, hmem, htwo⟩ := hamb
    · obtain ⟨e, he⟩ := List.exists_mem_of_ne_nil _ hne
      obtain ⟨e', he', hee⟩ := (two_le_length_iff (nodup_accepted _ _ _) he).1 hlen
      obtain ⟨k, hk, hf, rfl⟩ := mem_accepted.1 he
      obtain ⟨k', hk', hf', rfl⟩ := mem_accepted.1 he'
      have hkk : k ≠ k' := fun heq => hee (by rw [heq])
      obtain ⟨r, z, hr, hz⟩ := hrun hk
      obtain ⟨r', z', hr', hz'⟩ := hrun hk'
      obtain ⟨p, v, l, hthrough⟩ := h.exists_through hcall hu hf hr hz
      obtain ⟨p', v', l', hthrough'⟩ := h.exists_through hcall hu hf' hr' hz'
      obtain hle | hle := Nat.le_total p.length p'.length
      · exact h.exists_rival ha hcall ho.symm hout hkk hthrough hthrough' hle
      · exact h.exists_rival ha hcall ho.symm hout hkk.symm hthrough' hthrough hle
    · obtain ⟨k, hk, hf, heq⟩ := mem_accepted.1 hmem
      obtain ⟨hrule, rfl⟩ : Int.ofNat r = member.rule ∧ m = k := by simpa using heq
      have hposition : b.origin = caller.position := (h.origin_of_member hm).symm.trans ho.symm
      rw [← hrule] at hcall
      rw [hposition] at htwo
      exact h.exists_twin hcall hu hf htwo

end Ties.Accepts

end RuleNetwork
