import RuleNetwork.Parsing.Parse
import RuleNetwork.Proofs.Chart.Choices
import RuleNetwork.Proofs.Parsing.Onward

/-!
The alternatives of a state by their numbers: which of them a derivation takes at a useful visit, and
which of those tie.
-/

set_option autoImplicit false

namespace RuleNetwork

open Network Relation

/-- The places of the flags that are set, counted from 1. -/
theorem mem_flagged {flags : List Bool} {a : Nat} :
    a ∈ (flags.mapIdx fun i ok => if ok then some (i + 1) else none).filterMap id ↔
      ∃ k, flags[k]? = some true ∧ a = k + 1 := by
  simp only [List.mem_filterMap, id, exists_eq_right, List.mem_mapIdx]
  constructor
  · rintro ⟨k, hk, heq⟩
    split at heq
    · rename_i hflag
      exact ⟨k, by rw [List.getElem?_eq_getElem hk, hflag], (Option.some.inj heq).symm⟩
    · cases heq
  · rintro ⟨k, hk, rfl⟩
    obtain ⟨hlt, hflag⟩ := List.getElem?_eq_some_iff.1 hk
    exact ⟨k, hlt, by rw [hflag, if_pos rfl]⟩

theorem pairwise_flagged (flags : List Bool) :
    ((flags.mapIdx fun i ok => if ok then some (i + 1) else none).filterMap id).Pairwise
      (· < ·) := by
  refine List.pairwise_filterMap.2 (List.pairwise_iff_getElem.2 fun j k hj hk hjk a ha b hb => ?_)
  simp only [List.getElem_mapIdx, id] at ha hb
  split at ha <;> split at hb <;> simp_all
  omega

namespace Ties

variable {t : Ties} {i K : Nat} {types : List String}

/-- An alternative of a visit leads to an end of the visit's group. -/
def Leads (t : Ties) (types : List String) (v : Visit) (id : Int) (e : RuleEnd) : Prop :=
  ∃ w ∈ t.useful.toList, t.chart.network.Hop types v id w ∧ t.Comes types w e

/-- Two alternatives of a visit lead to ends that one ambiguous context accepts. -/
def Meets (t : Ties) (i K : Nat) (types : List String) (v : Visit) (id id' : Int) : Prop :=
  ∃ b x, b.Owns t.chart.network v ∧ t.IsContext i K b x ∧ t.Ambiguous b.origin x ∧
    (∃ e ∈ x, t.Leads types v id e) ∧ ∃ e ∈ x, t.Leads types v id' e

/-- Which alternatives tie is found without fail. -/
theorem Noted.tied_ok (h : t.Noted i types) {v : Visit} (hv : v ∈ t.useful.toList)
    (viable : List Nat) : ∃ l, t.tied v viable = .ok l := by
  obtain ⟨j, -, ⟨⟨st, hs, -⟩, -⟩, hinv⟩ := h.invocation_ok hv
  obtain ⟨edges, hedges, -, hoffers⟩ := h.proper.outgoing_offers hs
  have hstarts : ∀ a, ∀ w ∈ ((edges[a - 1]?).map fun e => t.after e v.origin v.position).getD [],
      w ∈ t.useful.toList ∧ w.origin = v.origin := fun a w hw => by
    cases he : edges[a - 1]? with
    | none =>
      rw [he] at hw
      cases hw
    | some e =>
      obtain ⟨id, -, ht⟩ := (hoffers _ e).1 he
      rw [he] at hw
      obtain ⟨hu, hop⟩ := (h.mem_after hv ht).1 hw
      exact ⟨hu, hop.origin⟩
  obtain ⟨reaches, hreaches⟩ := exists_mapM (l := viable) (f := fun a => do
      let starts := ((edges[a - 1]?).map fun e => t.after e v.origin v.position).getD []
      return (a, ← t.reached starts v.origin))
    fun a _ => by
      obtain ⟨l, hl, -⟩ := h.reached_ok _ (fun w hw => (hstarts a w hw).1)
        fun w hw => (hstarts a w hw).2
      exact ⟨_, bind_eq_ok.2 ⟨l, hl, rfl⟩⟩
  obtain ⟨contexts, hcontexts, -⟩ := h.contexts_ok ⟨j, v.origin⟩
  obtain ⟨ambiguous, hambiguous, -⟩ := exists_filterM (l := contexts)
    (P := fun x => t.isAmbiguous v.origin x = .ok true) fun x hx => by
      obtain ⟨flag, hflag⟩ := h.isAmbiguous_ok v.origin (h.endsRules_of_contexts hcontexts x hx)
      exact ⟨flag, hflag, by rw [hflag, Except.ok.injEq]⟩
  exact ⟨_, bind_eq_ok.2 ⟨edges, hedges, bind_eq_ok.2 ⟨reaches, hreaches, bind_eq_ok.2
    ⟨_, hinv, bind_eq_ok.2 ⟨contexts, hcontexts, bind_eq_ok.2 ⟨ambiguous, hambiguous, rfl⟩⟩⟩⟩⟩⟩

theorem Accepts.reaches_ok (h : t.Accepts i K types) {v : Visit} (hv : v ∈ t.useful.toList)
    {st : State} (hs : t.chart.network.state v.state = .ok st) :
    ∃ edges, t.chart.network.outgoing v.state = .ok edges ∧ ∀ a, 1 ≤ a → a ≤ st.transitions.length →
      ∃ l, t.reached (((edges[a - 1]?).map fun e => t.after e v.origin v.position).getD []) v.origin =
          .ok l ∧
        ∀ e, e ∈ l ↔ ∃ id, t.chart.network.Offers v.state a id ∧ t.Leads types v id e := by
  obtain ⟨edges, hedges, hlen, hoffers⟩ := h.counted.proper.outgoing_offers hs
  refine ⟨edges, hedges, fun a ha hle => ?_⟩
  obtain ⟨k, rfl⟩ : ∃ k, a = k + 1 := ⟨a - 1, by omega⟩
  obtain ⟨e, he⟩ : ∃ e, edges[k]? = some e := ⟨_, List.getElem?_eq_getElem (by omega)⟩
  obtain ⟨id, ho, ht⟩ := (hoffers k e).1 he
  have hafter := fun w => h.mem_after hv ht (w := w)
  rw [Nat.add_sub_cancel, he, Option.map_some, Option.getD_some]
  obtain ⟨l, hl, hmem⟩ := h.reached_ok (t.after e v.origin v.position)
    (fun w hw => ((hafter w).1 hw).1) fun w hw => ((hafter w).1 hw).2.origin
  refine ⟨l, hl, fun e => (hmem e).trans ?_⟩
  constructor
  · rintro ⟨w, hw, hcomes⟩
    obtain ⟨hu, hop⟩ := (hafter w).1 hw
    exact ⟨id, ho, w, hu, hop, hcomes⟩
  · rintro ⟨id', ho', w, hw, hop, hcomes⟩
    obtain rfl := ho.id_unique ho'
    exact ⟨w, (hafter w).2 ⟨hw, hop⟩, hcomes⟩

/-- What the viable alternatives reach is listed under their numbers, and those that reach an end of a
context are the ones that lead to it. -/
theorem Accepts.hits_ok (h : t.Accepts i K types) {v : Visit} (hv : v ∈ t.useful.toList)
    {viable : List Nat} (hviable : ∀ a ∈ viable, ∃ id, t.chart.network.Offers v.state a id) :
    ∃ edges reaches, t.chart.network.outgoing v.state = .ok edges ∧
      (viable.mapM fun a => do
        let starts := ((edges[a - 1]?).map fun e => t.after e v.origin v.position).getD []
        return (a, ← t.reached starts v.origin)) = .ok reaches ∧
      reaches.map Prod.fst = viable ∧
      ∀ (c : Context) (a : Nat), a ∈ (reaches.filter fun r => r.2.any c.contains).map Prod.fst ↔
        a ∈ viable ∧ ∃ id, t.chart.network.Offers v.state a id ∧ ∃ e ∈ c, t.Leads types v id e := by
  obtain ⟨j, -, ⟨⟨st, hs, -⟩, -⟩, -⟩ := h.invocation_ok hv
  obtain ⟨edges, hedges, hreach⟩ := h.reaches_ok hv hs
  have hbounds : ∀ a ∈ viable, 1 ≤ a ∧ a ≤ st.transitions.length := fun a ha => by
    obtain ⟨id, st', hs', k, hk, rfl⟩ := hviable a ha
    rw [hs] at hs'
    cases hs'
    have := (List.getElem?_eq_some_iff.1 hk).1
    omega
  obtain ⟨reaches, hreaches⟩ := exists_mapM (l := viable) (f := fun a => do
      let starts := ((edges[a - 1]?).map fun e => t.after e v.origin v.position).getD []
      return (a, ← t.reached starts v.origin))
    fun a ha => by
      obtain ⟨l, hl, -⟩ := hreach a (hbounds a ha).1 (hbounds a ha).2
      exact ⟨_, bind_eq_ok.2 ⟨l, hl, rfl⟩⟩
  refine ⟨edges, reaches, hedges, hreaches, ?_, fun c a => ?_⟩
  · have hfst : List.Forall₂ (fun a (r : Nat × List RuleEnd) => a = r.1) viable reaches :=
      (mapM_eq_ok.1 hreaches).imp fun a r hr => by
        obtain ⟨l, -, hr⟩ := bind_eq_ok.1 hr
        rw [← pure_eq_ok.1 hr]
    exact (List.forall₂_eq_eq_eq ▸ List.forall₂_map_right_iff.2 hfst).symm
  · rw [List.mem_map]
    constructor
    · rintro ⟨⟨a, ends⟩, hr, rfl⟩
      obtain ⟨hr, hany⟩ := List.mem_filter.1 hr
      obtain ⟨a', ha', hr⟩ := (mem_of_mapM hreaches).1 hr
      obtain ⟨l, hl, hr⟩ := bind_eq_ok.1 hr
      cases pure_eq_ok.1 hr
      obtain ⟨l', hl', hmem⟩ := hreach a (hbounds a ha').1 (hbounds a ha').2
      rw [hl] at hl'
      cases hl'
      obtain ⟨e, he, hec⟩ := List.any_eq_true.1 hany
      obtain ⟨id, ho, hlead⟩ := (hmem e).1 he
      exact ⟨ha', id, ho, e, List.contains_iff_mem.1 hec, hlead⟩
    · rintro ⟨ha, id, ho, e, hec, hlead⟩
      obtain ⟨l, hl, hmem⟩ := hreach a (hbounds a ha).1 (hbounds a ha).2
      refine ⟨(a, l), List.mem_filter.2 ⟨(mem_of_mapM hreaches).2 ⟨a, ha, bind_eq_ok.2 ⟨l, hl, rfl⟩⟩,
        List.any_eq_true.2 ⟨e, (hmem e).2 ⟨id, ho, hlead⟩, List.contains_iff_mem.2 hec⟩⟩, rfl⟩

/-- The alternatives that tie are those that meet another viable one. -/
theorem Accepts.tied_ok (h : t.Accepts i K types) {v : Visit} (hv : v ∈ t.useful.toList)
    {viable : List Nat} (hnodup : viable.Nodup)
    (hviable : ∀ a ∈ viable, ∃ id, t.chart.network.Offers v.state a id) :
    ∃ l, t.tied v viable = .ok l ∧ l.Sublist viable ∧ ∀ a, a ∈ l ↔ a ∈ viable ∧ ∃ b ∈ viable, b ≠ a ∧
      ∃ id id', t.chart.network.Offers v.state a id ∧ t.chart.network.Offers v.state b id' ∧
        t.Meets i K types v id id' := by
  obtain ⟨j, -, hb, hinv⟩ := h.invocation_ok hv
  obtain ⟨edges, reaches, hedges, hreaches, hfst, hhits⟩ := h.hits_ok hv hviable
  obtain ⟨contexts, hcontexts, hctx⟩ := h.contexts_ok ⟨j, v.origin⟩
  obtain ⟨ambiguous, hambiguous, hamb⟩ := exists_filterM (l := contexts)
    fun x hx => h.isAmbiguous_ok ((hctx x).1 hx)
  have hnodups : ∀ c : Context,
      ((reaches.filter fun r => r.2.any c.contains).map Prod.fst).Nodup := fun c =>
    (hfst ▸ hnodup).sublist (List.filter_sublist.map _)
  refine ⟨_, bind_eq_ok.2 ⟨edges, hedges, bind_eq_ok.2 ⟨reaches, hreaches, bind_eq_ok.2
    ⟨_, hinv, bind_eq_ok.2 ⟨contexts, hcontexts, bind_eq_ok.2 ⟨ambiguous, hambiguous, rfl⟩⟩⟩⟩⟩,
    List.filter_sublist, fun a => ?_⟩
  rw [List.mem_filter]
  refine and_congr_right fun ha => ?_
  simp only [List.any_eq_true, List.mem_filter, List.mem_map, decide_eq_true_eq,
    List.contains_iff_mem]
  constructor
  · rintro ⟨hits, ⟨⟨c, hc, rfl⟩, hlen⟩, hmem⟩
    obtain ⟨a', ha', hne⟩ := (two_le_length_iff (hnodups c) hmem).1 hlen
    obtain ⟨hc, hamb⟩ := (hamb c).1 hc
    obtain ⟨-, id, ho, hlead⟩ := (hhits c a).1 hmem
    obtain ⟨hv', id', ho', hlead'⟩ := (hhits c a').1 ha'
    exact ⟨a', hv', hne, id, id', ho, ho', _, c, hb, (hctx c).1 hc, hamb, hlead, hlead'⟩
  · rintro ⟨a', ha', hne, id, id', ho, ho', b, c, hb', hc, hcamb, hlead, hlead'⟩
    obtain rfl := hb.unique hb'
    have hmem := (hhits c a).2 ⟨ha, id, ho, hlead⟩
    have hmem' := (hhits c a').2 ⟨ha', id', ho', hlead'⟩
    exact ⟨_, ⟨⟨c, (hamb c).2 ⟨(hctx c).2 hc, hcamb⟩, rfl⟩,
      (two_le_length_iff (hnodups c) hmem).2 ⟨a', hmem', hne⟩⟩, hmem⟩

end Ties

namespace Traces

variable {x : Traces} {i : Nat} {types : List String}

theorem useful_stop_iff (h : x.ties.Noted i types) {j k m : Nat}
    (hj : j < x.ties.chart.index.grammar.rules.size) :
    ⟨stopState j, k, m⟩ ∈ x.ties.useful.toList ↔ m ∈ x.ties.endsOf ⟨j, k⟩ := by
  have hp := h.proper
  rw [h.ends]
  constructor
  · exact fun hv => ⟨_, hv, hp.owns_stop hj, hp.ends_stop hj, rfl, rfl⟩
  · rintro ⟨v, hv, hown, hz, rfl, rfl⟩
    rw [← hp.eq_stop hown hz]
    exact hv

/-- An alternative is viable at a useful visit just if something useful comes right after it. -/
theorem isViable_ok (h : x.ties.Noted i types) {v : Visit} (hv : v ∈ x.ties.useful.toList)
    {id : Int} {t : Transition} (ht : x.ties.chart.network.Leaves v.state id t) :
    ∃ flag, x.isViable v t = .ok flag ∧
      (flag = true ↔ ∃ w ∈ x.ties.useful.toList, x.ties.chart.network.Hop types v id w) := by
  have hp := h.proper
  suffices ∃ flag, x.isViable v t = .ok flag ∧
      (flag = true ↔ ∃ w, w ∈ x.ties.after t v.origin v.position) by
    obtain ⟨flag, hflag, hiff⟩ := this
    exact ⟨flag, hflag, hiff.trans (exists_congr fun w => h.mem_after hv ht)⟩
  unfold isViable Ties.after chart
  cases hk : t.kind with
  | epsilon => exact ⟨_, rfl, by simp⟩
  | predicate => exact ⟨_, rfl, by simp⟩
  | terminal =>
    refine ⟨_, rfl, ?_⟩
    split <;> simp_all
  | ruleCall =>
    obtain ⟨owner, hown⟩ := ht.owned
    obtain ⟨hne, -⟩ | ⟨j, follow, hj, hc, -⟩ := hp.fits ht hown
    · exact absurd hk hne
    · simp only [hc]
      refine ⟨_, bind_eq_ok.2 ⟨_, ChartIndex.stopOf_ok h.recognizes.index.grammar hj, rfl⟩, ?_⟩
      simp only [List.any_eq_true, Bool.and_eq_true, OrderedSet.contains_iff, List.mem_filter,
        List.mem_map]
      constructor
      · rintro ⟨m, -, hfollow, hstop⟩
        exact ⟨_, ⟨m, (useful_stop_iff h hj).1 hstop, rfl⟩, hfollow⟩
      · rintro ⟨w, ⟨m, hm, rfl⟩, hfollow⟩
        have hstop := (useful_stop_iff h hj).2 hm
        have hreach := (h.recognizes.contains _).1 (h.contains hstop)
        have hbounds := (bounded_reaches hp h.recognizes.rule _ hreach).2
        have hlast := hreach.position_le
        refine ⟨m, Chart.mem_drop_range.2 ⟨hbounds, ?_⟩, hfollow, hstop⟩
        rw [h.recognizes.size]
        exact Nat.lt_succ_of_le hlast

/-- The viable alternatives of a useful visit, by increasing numbers. -/
theorem viable_ok (h : x.ties.Noted i types) (hx : x.tables.grammar = x.ties.chart.index.grammar)
    {v : Visit} (hv : v ∈ x.ties.useful.toList) :
    ∃ l, x.viable v = .ok l ∧ l.Pairwise (· < ·) ∧
      ∀ a, a ∈ l ↔ ∃ id, x.ties.chart.network.Offers v.state a id ∧
        ∃ w ∈ x.ties.useful.toList, x.ties.chart.network.Hop types v id w := by
  have hp := h.proper
  obtain ⟨j, -, ⟨⟨st, hs, -⟩, -⟩, -⟩ := h.invocation_ok hv
  obtain ⟨out, hout, -, hoffers⟩ := hp.outgoing_offers hs
  have hleaves : ∀ t ∈ out, ∃ id, x.ties.chart.network.Leaves v.state id t := fun t ht => by
    obtain ⟨k, hk⟩ := List.getElem?_of_mem ht
    obtain ⟨id, -, ht⟩ := (hoffers k t).1 hk
    exact ⟨id, ht⟩
  obtain ⟨flags, hflags⟩ := exists_mapM (l := out) (f := x.isViable v) fun t ht => by
    obtain ⟨id, ht⟩ := hleaves t ht
    exact (isViable_ok h hv ht).imp fun _ hl => hl.1
  have hall := mapM_eq_ok.1 hflags
  have hlen := hall.length_eq
  refine ⟨_, ?_, pairwise_flagged flags, fun a => mem_flagged.trans ?_⟩
  · unfold viable network
    rw [hx]
    exact bind_eq_ok.2 ⟨out, hout, bind_eq_ok.2 ⟨flags, hflags, rfl⟩⟩
  · constructor
    · rintro ⟨k, hk, rfl⟩
      obtain ⟨hlt, hflag⟩ := List.getElem?_eq_some_iff.1 hk
      obtain ⟨id, ho, ht⟩ := (hoffers k out[k]).1 (List.getElem?_eq_getElem (by omega))
      obtain ⟨flag, hok, hiff⟩ := isViable_ok h hv ht
      have hget := hall.get (by omega) hlt
      simp only [List.get_eq_getElem] at hget
      rw [hok] at hget
      rw [← Except.ok.inj hget] at hflag
      exact ⟨id, ho, hiff.1 hflag⟩
    · rintro ⟨id, ho, w, hw, hop⟩
      obtain ⟨t, ht⟩ := hop.leaves
      have hnumber := ho
      obtain ⟨-, -, k, -, rfl⟩ := hnumber
      have hget := (hoffers k t).2 ⟨id, ho, ht⟩
      obtain ⟨hlt, rfl⟩ := List.getElem?_eq_some_iff.1 hget
      obtain ⟨flag, hok, hiff⟩ := isViable_ok h hv ht
      have hget := hall.get hlt (by omega)
      simp only [List.get_eq_getElem] at hget
      rw [hok] at hget
      refine ⟨k, ?_, rfl⟩
      rw [List.getElem?_eq_getElem (by omega), ← Except.ok.inj hget, hiff.2 ⟨w, hw, hop⟩]

end Traces

end RuleNetwork
