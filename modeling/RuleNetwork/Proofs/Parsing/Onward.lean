import RuleNetwork.Proofs.Parsing.Contexts

/-!
What an alternative leads to: the useful visits that follow within the group of an invocation, and the
ends of the group among them.
-/

set_option autoImplicit false

namespace RuleNetwork

open Network Relation

namespace Ties

variable {t : Ties} {i K : Nat} {types : List String}

/-- A step within a group: in an invocation, or back to a caller of the group. -/
inductive Onward (t : Ties) (types : List String) (u : Visit) : Visit → Prop where
  | hop {v : Visit} {id : Int} (hv : v ∈ t.useful.toList) (hop : t.chart.network.Hop types u id v) :
      Onward t types u v
  | back {a b : Invocation} {caller : Visit} {follow : Int} (hz : t.chart.network.Ends u.state)
      (hb : b.Owns t.chart.network u) (hc : (caller, follow) ∈ t.callersOf b)
      (ha : a.Owns t.chart.network caller) (hin : t.groups.together a b = true)
      (hv : ⟨follow, u.origin, u.position⟩ ∈ t.useful.toList) :
      Onward t types u ⟨follow, u.origin, u.position⟩

theorem Onward.useful {u v : Visit} (h : t.Onward types u v) : v ∈ t.useful.toList := by
  cases h with
  | hop hv => exact hv
  | back _ _ _ _ _ hv => exact hv

theorem useful_of_reach {u v : Visit} (h : ReflTransGen (t.Onward types) u v)
    (hu : u ∈ t.useful.toList) : v ∈ t.useful.toList := by
  cases h with
  | refl => exact hu
  | tail _ hlast => exact hlast.useful

theorem Onward.origin {u v : Visit} (h : t.Onward types u v) : v.origin = u.origin := by
  cases h with
  | hop _ hop => exact hop.origin
  | back => rfl

/-- A visit leads to an end of its group. -/
def Comes (t : Ties) (types : List String) (w : Visit) (e : RuleEnd) : Prop :=
  ∃ z r, ReflTransGen (t.Onward types) w z ∧ t.chart.network.Owns r z.state ∧
    t.chart.network.Ends z.state ∧ e = ⟨r, some z.position⟩

theorem Comes.of_reach {u w : Visit} {e : RuleEnd} (h : ReflTransGen (t.Onward types) u w)
    (hw : t.Comes types w e) : t.Comes types u e := by
  obtain ⟨z, r, hwz, hend⟩ := hw
  exact ⟨z, r, h.trans hwz, hend⟩

namespace Noted

variable (h : t.Noted i types)
include h

/-- Up to the end of a callee there is a run. -/
theorem run_of_end {u v : Visit} {id callee follow : Int} {tr : Transition} {m : Nat}
    (hc : t.chart.network.Calls u.state id tr callee follow) (hv : v ∈ t.useful.toList)
    (he : EndsAt t.chart.network ⟨callee, u.position⟩ m v) :
    ∃ r z, t.chart.network.run types (.enter tr.target u.position) r = some ⟨z, u.position, m, []⟩ ∧
      t.chart.network.Ends z := by
  have hp := h.proper
  obtain ⟨s, o, k⟩ := v
  obtain ⟨hown, hz, ho, hk⟩ := he
  obtain rfl : o = u.position := ho
  obtain rfl : k = m := hk
  obtain ⟨owner, howner⟩ := hc.1.owned
  obtain ⟨j, -, rfl, ht, -⟩ := hp.of_calls hc howner
  obtain ⟨ms, l, hms⟩ := (h.recognizes.contains _).1 (h.contains hv)
  obtain ⟨j', -, -, w, -, hw, hown', -⟩ :=
    hp.exists_walk h.recognizes.rule (v := ⟨s, u.position, k⟩) hms
  obtain rfl := Int.ofNat.inj (hown.unique hown')
  rw [Walks, ← ht] at hw
  exact ⟨w, s, hw, hz⟩

/-- What comes right after a transition from a useful visit. -/
theorem mem_after {u w : Visit} (hu : u ∈ t.useful.toList) {id : Int} {tr : Transition}
    (ht : t.chart.network.Leaves u.state id tr) :
    w ∈ t.after tr u.origin u.position ↔ w ∈ t.useful.toList ∧ t.chart.network.Hop types u id w := by
  have hp := h.proper
  unfold after
  rw [List.mem_filter, OrderedSet.contains_iff, and_comm]
  refine and_congr_right fun hw => ?_
  have hfree : tr.isFree = true → (w = ⟨tr.target, u.origin, u.position⟩ ↔
      t.chart.network.Hop types u id w) := fun hf => by
    rw [ht.hop_iff (by rintro hk; simp [Transition.isFree, hk] at hf)]
    simp only [Transition.reads_of_isFree hf, exists_eq_left]
  cases hk : tr.kind with
  | epsilon => simpa [hk] using hfree (by simp [Transition.isFree, hk])
  | predicate => simpa [hk] using hfree (by simp [Transition.isFree, hk])
  | terminal =>
    rw [ht.hop_iff (by simp [hk])]
    simp only [Transition.reads_of_terminal hk, h.recognizes.input, List.getElem?_toArray]
    constructor
    · intro hmem
      split at hmem
      · rename_i hx
        obtain ⟨x, hx, hxt⟩ := (Option.any_eq_true _ _).1 hx
        exact ⟨_, ⟨⟨x, hx, by simpa using hxt⟩, rfl⟩, List.mem_singleton.1 hmem⟩
      · cases hmem
    · rintro ⟨k, ⟨⟨x, hx, hxt⟩, rfl⟩, rfl⟩
      rw [if_pos ((Option.any_eq_true _ _).2 ⟨x, hx, by simpa using hxt⟩)]
      exact List.mem_singleton_self _
  | ruleCall =>
    obtain ⟨owner, hown⟩ := ht.owned
    obtain ⟨hne, -⟩ | ⟨callee, follow, hcallee, hc, htarget, -⟩ := hp.fits ht hown
    · exact absurd hk hne
    have hcall : t.chart.network.Calls u.state id tr callee follow := ⟨ht, hc⟩
    rw [hcall.hop_iff]
    simp only [hc, List.mem_map]
    constructor
    · rintro ⟨m, hm, rfl⟩
      obtain ⟨v, hv, he⟩ := (h.ends _ _).1 hm
      obtain ⟨r, z, hr, hz⟩ := h.run_of_end (u := u) hcall hv he
      exact ⟨m, r, z, hr, hz, rfl⟩
    · rintro ⟨k, r, z, hr, hz, rfl⟩
      have hreach := (h.recognizes.contains u).1 (h.contains hu)
      have hinner := h.closed hw (h.recognizes.precedes_of_call hreach hcall hr hz).2
      refine ⟨k, (h.ends _ _).2 ⟨_, hinner, ?_, hz, rfl, rfl⟩, rfl⟩
      exact hp.owns_of_run hr (by rw [htarget]; exact hp.owns_start hcallee)

theorem resumed_ok {b : Invocation} {u : Visit} (hb : b.Owns t.chart.network u)
    (hz : t.chart.network.Ends u.state) :
    ∃ l, t.resumed b u.position = .ok l ∧ ∀ w, w ∈ l ↔ t.Onward types u w := by
  unfold resumed
  refine exists_bind_mapM (fun e l => ∃ a : Invocation, a.Owns t.chart.network e.1 ∧
    l = if e.1.origin == b.origin && t.groups.together a b then
      [(⟨e.2, b.origin, u.position⟩ : Visit)] else []) (fun e he => ?_)
    fun found hfound hall => ⟨_, rfl, fun w => ?_⟩
  · obtain ⟨j, -, ho, -⟩ := h.invocation_ok ((h.callers _ _).1 he).1
    exact ⟨_, bind_eq_ok.2 ⟨_, h.isInternal_ok ((h.callers _ _).1 he).1 ho b, rfl⟩, _, ho, rfl⟩
  rw [List.mem_filter, OrderedSet.contains_iff, List.mem_flatten]
  constructor
  · rintro ⟨⟨l, hl, hw⟩, huseful⟩
    obtain ⟨⟨caller, follow⟩, he, a, ho, rfl⟩ := hfound l hl
    split at hw
    · rename_i hboth
      obtain rfl := List.mem_singleton.1 hw
      simp only [Bool.and_eq_true] at hboth
      rw [hb.2] at huseful ⊢
      exact .back hz hb he ho hboth.2 huseful
    · cases hw
  · intro hw
    cases hw with
    | @hop v id hv hop =>
      cases hop with
      | read ht => exact absurd ht (not_leaves_of_ends hz)
      | call hc => exact absurd hc.1 (not_leaves_of_ends hz)
    | @back a b' caller follow _ hb' hc ha hin hv =>
      obtain rfl := hb'.unique hb
      have horigin : caller.origin = b'.origin := by
        rw [← ha.2]
        exact (Chart.origin_of_emptyCalls ((h.together _ _).1 hin).1).symm
      obtain ⟨l, hl, a', ha', rfl⟩ := hall _ hc
      rw [ha'.unique ha, hin] at hl
      simp only [horigin, beq_self_eq_true, Bool.and_self, if_true] at hl
      exact ⟨⟨_, hl, by rw [hb.2]; exact List.mem_singleton_self _⟩, hv⟩

/-- Going on from a useful visit never fails. -/
theorem onward_ok {u : Visit} (hu : u ∈ t.useful.toList) :
    ∃ l, t.onward u.origin u = .ok l ∧ ∀ w, w ∈ l ↔ t.Onward types u w := by
  have hp := h.proper
  obtain ⟨j, -, ⟨⟨st, hs, hrule⟩, -⟩, -⟩ := h.invocation_ok hu
  unfold onward
  by_cases hk : st.kind = .ruleStop
  · obtain ⟨l, hl, hmem⟩ := h.resumed_ok (b := ⟨st.rule, u.origin⟩) ⟨⟨st, hs, rfl⟩, rfl⟩ ⟨st, hs, hk⟩
    refine ⟨l, bind_eq_ok.2 ⟨st, hs, ?_⟩, hmem⟩
    rw [if_pos (by simpa using hk)]
    exact hl
  · obtain ⟨out, hout, hmem⟩ := hp.outgoing_ok hs
    refine ⟨out.flatMap fun e => t.after e u.origin u.position, bind_eq_ok.2 ⟨st, hs, ?_⟩,
      fun w => ?_⟩
    · rw [if_neg (by simpa using hk)]
      exact bind_eq_ok.2 ⟨out, hout, rfl⟩
    · rw [List.mem_flatMap]
      constructor
      · rintro ⟨tr, htr, hw⟩
        obtain ⟨id, ht⟩ := (hmem tr).1 htr
        obtain ⟨hw, hop⟩ := (h.mem_after hu ht).1 hw
        exact .hop hw hop
      · intro hw
        cases hw with
        | @hop v id hv hop =>
          obtain ⟨tr, ht⟩ := hop.leaves
          exact ⟨tr, (hmem tr).2 ⟨id, ht⟩, (h.mem_after hu ht).2 ⟨hv, hop⟩⟩
        | back hz =>
          obtain ⟨st', hs', hk'⟩ := hz
          rw [hs] at hs'
          cases hs'
          exact absurd hk' hk

theorem endsAt_ok {v : Visit} (hv : v ∈ t.useful.toList) : ∃ l, t.endsAt v = .ok l := by
  obtain ⟨j, -, ⟨⟨st, hs, hrule⟩, -⟩, -⟩ := h.invocation_ok hv
  exact ⟨_, bind_eq_ok.2 ⟨st, hs, rfl⟩⟩

/-- What some useful visits lead to within their group is found without fail. -/
theorem reached_ok (starts : List Visit) {o : Nat} (hstarts : ∀ v ∈ starts, v ∈ t.useful.toList)
    (ho : ∀ v ∈ starts, v.origin = o) :
    ∃ l, t.reached starts o = .ok l ∧ ∀ e, e ∈ l ↔ ∃ s ∈ starts, ∃ v ends,
      ReflTransGen (t.Onward types) s v ∧ t.endsAt v = .ok ends ∧ e ∈ ends := by
  have hstep : ∀ u, u ∈ t.useful.toList → u.origin = o → ∃ l, t.onward o u = .ok l ∧
      ∀ w, w ∈ l ↔ t.Onward types u w := fun u hu ho => ho ▸ h.onward_ok hu
  have hstep_iff : ∀ {u w}, u ∈ t.useful.toList → u.origin = o →
      (Search.Step (t.onward o) u w ↔ t.Onward types u w) := by
    intro u w hu hou
    obtain ⟨l, hl, hmem⟩ := hstep u hu hou
    rw [Search.step_iff hl, hmem]
  -- the search stays among the useful visits of invocations that began with this one
  obtain ⟨univ, huniv⟩ : ∃ univ, univ = t.useful.toList.filter fun v => v.origin == o := ⟨_, rfl⟩
  have hmem : ∀ v, v ∈ univ ↔ v ∈ t.useful.toList ∧ v.origin = o := fun v => by
    rw [huniv, List.mem_filter, beq_iff_eq]
  have hu : Search.Universe (t.onward o) univ := fun a ha b hb => by
    obtain ⟨ha, hao⟩ := (hmem a).1 ha
    have hb := (hstep_iff ha hao).1 hb
    exact (hmem b).2 ⟨hb.useful, hb.origin.trans hao⟩
  have hs : ∀ a ∈ starts, a ∈ univ := fun a ha => (hmem a).2 ⟨hstarts a ha, ho a ha⟩
  have hreach : ∀ {a b}, a ∈ univ → (ReflTransGen (Search.Step (t.onward o)) a b ↔
      ReflTransGen (t.Onward types) a b) := by
    refine reflTransGen_iff_inside (fun ha hab => ?_) fun ha => ?_
    · have ha := (hmem _).1 ha
      exact hu _ ((hmem _).2 ha) _ ((hstep_iff ha.1 ha.2).2 hab)
    · exact hstep_iff ((hmem _).1 ha).1 ((hmem _).1 ha).2
  have hbound : univ.length ≤ t.useful.size + starts.length + 1 := by
    have := List.length_filter_le (fun v : Visit => v.origin == o) t.useful.toList
    rw [← huniv, OrderedSet.length_toList] at this
    omega
  obtain ⟨met, hmet, -⟩ := Search.exists_breadthFirst (P := (· ∈ univ)) (fun a ha => by
      obtain ⟨l, hl, -⟩ := hstep a ((hmem a).1 ha).1 ((hmem a).1 ha).2
      exact ⟨l, hl, fun b hb => hu a ha b ⟨l, hl, hb⟩⟩) (t.useful.size + starts.length + 1) hs
  have hin := fun {b} => Search.mem_breadthFirst_iff hu hs hbound hmet (b := b)
  have hmetu : ∀ v ∈ met.toList, v ∈ t.useful.toList := by
    intro v hv
    obtain ⟨a, ha, hav⟩ := hin.1 hv
    exact useful_of_reach ((hreach (hs a ha)).1 hav) (hstarts a ha)
  obtain ⟨ends, hends⟩ := exists_mapM (l := met.toList) (f := t.endsAt) fun v hv =>
    h.endsAt_ok (hmetu v hv)
  refine ⟨ends.flatten, bind_eq_ok.2 ⟨met, hmet, bind_eq_ok.2 ⟨ends, hends, rfl⟩⟩, fun e => ?_⟩
  rw [List.mem_flatten]
  constructor
  · rintro ⟨l, hl, he⟩
    obtain ⟨v, hv, hl⟩ := (mem_of_mapM hends).1 hl
    obtain ⟨s, hs', hsv⟩ := hin.1 hv
    exact ⟨s, hs', v, l, (hreach (hs s hs')).1 hsv, hl, he⟩
  · rintro ⟨s, hs', v, l, hsv, hl, he⟩
    exact ⟨l, (mem_of_mapM hends).2 ⟨v, hin.2 ⟨s, hs', (hreach (hs s hs')).2 hsv⟩, hl⟩, he⟩

end Noted

namespace Accepts

variable (h : t.Accepts i K types)
include h

theorem visits {v : Visit} (hv : v ∈ t.useful.toList) : t.chart.network.Visits types i K v :=
  (h.counted.useful v).1 hv

theorem endsAt_ok {v : Visit} (hv : v ∈ t.useful.toList) :
    ∃ l, t.endsAt v = .ok l ∧ ∀ e, e ∈ l ↔
      ∃ r, t.chart.network.Owns r v.state ∧ t.chart.network.Ends v.state ∧ e = ⟨r, some v.position⟩ := by
  obtain ⟨j, -, ⟨⟨st, hs, hrule⟩, -⟩, -⟩ := h.invocation_ok hv
  unfold endsAt
  rw [h.openAt]
  refine ⟨_, bind_eq_ok.2 ⟨st, hs, rfl⟩, fun e => ?_⟩
  simp only [reduceCtorEq, if_false, List.nil_append]
  constructor
  · intro he
    split at he
    · rename_i hk
      exact ⟨st.rule, ⟨st, hs, rfl⟩, ⟨st, hs, by simpa using hk⟩, List.mem_singleton.1 he⟩
    · cases he
  · rintro ⟨r, ⟨st', hs', rfl⟩, ⟨st'', hs'', hk⟩, rfl⟩
    rw [hs] at hs' hs''
    cases hs'
    cases hs''
    rw [if_pos (by simpa using hk)]
    exact List.mem_singleton_self _

/-- The group's ends that some useful visits lead to are found without fail. -/
theorem reached_ok (starts : List Visit) {o : Nat} (hstarts : ∀ v ∈ starts, v ∈ t.useful.toList)
    (ho : ∀ v ∈ starts, v.origin = o) :
    ∃ l, t.reached starts o = .ok l ∧ ∀ e, e ∈ l ↔
      ∃ s ∈ starts, t.Comes types s e := by
  obtain ⟨l, hl, hmem⟩ := h.toNoted.reached_ok starts hstarts ho
  refine ⟨l, hl, fun e => (hmem e).trans (exists_congr fun s => and_congr_right fun hs => ?_)⟩
  have hends : ∀ {v}, ReflTransGen (t.Onward types) s v → ∃ ends, t.endsAt v = .ok ends ∧
      ∀ e, e ∈ ends ↔ ∃ r, t.chart.network.Owns r v.state ∧ t.chart.network.Ends v.state ∧
        e = ⟨r, some v.position⟩ := fun hsv =>
    h.endsAt_ok (useful_of_reach hsv (hstarts s hs))
  constructor
  · rintro ⟨v, ends, hsv, hok, he⟩
    obtain ⟨ends', hok', hiff⟩ := hends hsv
    rw [hok] at hok'
    cases hok'
    obtain ⟨r, hr, hz, rfl⟩ := (hiff e).1 he
    exact ⟨v, r, hsv, hr, hz, rfl⟩
  · rintro ⟨v, r, hsv, hr, hz, rfl⟩
    obtain ⟨ends, hok, hiff⟩ := hends hsv
    exact ⟨v, ends, hsv, hok, (hiff _).2 ⟨r, hr, hz, rfl⟩⟩

end Accepts

end Ties

end RuleNetwork
