import RuleNetwork.Proofs.Lookahead.First

/-!
FOLLOW sets. The calls that a walk in a rule comes by say what comes after a callee: what is read first
where the caller resumes and, if the caller may end there, what comes after the caller. The table is the
least one of which this holds, with the end of input after the entry rules.
-/

set_option autoImplicit false

namespace RuleNetwork

open Network Relation

namespace Network

variable {n : Network} {rules i : Nat} {s s' : Int}

/-- A transition that stays in its rule, or a call that is stepped over, leads on. -/
def Onto (n : Network) (s s' : Int) : Prop := ∃ id t, n.Leaves s id t ∧ t.next = s'

/-- A walk in the rule comes to the state. -/
def InRule (n : Network) (i : Nat) (s : Int) : Prop := ReflTransGen n.Onto (startState i) s

/-- A rule calls another one where a walk in it comes by. -/
def Site (n : Network) (i : Nat) (callee follow : Int) : Prop :=
  ∃ s id t, n.InRule i s ∧ n.Calls s id t callee follow

/-- A run in one invocation comes to states that a walk in the rule comes to. -/
theorem Walks.inRule {types : List String} {v : Visit} {ms : List Move}
    (h : n.Walks types i v ms) : n.InRule i v.state := by
  induction hlen : ms.length using Nat.strongRecOn generalizing v ms with
  | ind len ih =>
    subst hlen
    obtain ⟨-, hv⟩ | ⟨q, p, j, id, t, rfl, ht, hj, htarget, hq⟩ |
      ⟨q, p, j, id, t, callee, r, z, rfl, hc, hq, -, -⟩ := h.cases
    · rw [hv]
      exact .refl
    · refine (ih _ (by simp) hq rfl).tail ⟨id, t, ht, ?_⟩
      rw [← htarget]
      exact Transition.next_of_ne hj.kind_ne
    · exact (ih _ (by simp) hq rfl).tail ⟨id, t, hc.1, Transition.next_of_call? hc.2⟩

namespace Proper

variable (hp : n.Proper rules)
include hp

theorem step_steps_iff : Search.Step n.steps s s' ↔ n.Onto s s' := by
  constructor
  · rintro ⟨l, hl, hb⟩
    obtain ⟨e, he, -⟩ := bind_eq_ok.1 hl
    obtain ⟨st, hs, -⟩ := bind_eq_ok.1 he
    obtain ⟨l', hl', hmem⟩ := hp.steps_ok ⟨st, hs⟩
    exact (hmem _).1 ((Search.step_iff hl').1 ⟨l, hl, hb⟩)
  · rintro ⟨id, t, ht, rfl⟩
    obtain ⟨l, hl, hmem⟩ := hp.steps_ok ht.has
    exact ⟨l, hl, (hmem _).2 ⟨id, t, ht, rfl⟩⟩

theorem owns_of_inRule (hi : i < rules) (h : n.InRule i s) : n.Owns i s := by
  induction h with
  | refl => exact hp.owns_start hi
  | tail _ hstep ih =>
    obtain ⟨id, t, ht, rfl⟩ := hstep
    exact (hp.inside_next ht ih).owns

end Proper

end Network

namespace Grammar

/-- The tokens that come after a rule, with the end of input after the entry rules. -/
inductive Follows (g : Grammar) (entries : List Int) : Int → String → Prop where
  | entry {r : Int} (h : r ∈ entries) : Follows g entries r endOfInput
  | token {i : Nat} {callee follow : Int} {x : String} (hi : i < g.rules.size)
      (hs : g.network.Site i callee follow) (hx : g.network.Begins follow x) :
      Follows g entries callee x
  | caller {i : Nat} {callee follow : Int} {x : String} (hi : i < g.rules.size)
      (hs : g.network.Site i callee follow) (hend : g.network.Skips follow (stopState i))
      (h : Follows g entries i x) : Follows g entries callee x

/-- At first only the entry rules have something after them. -/
theorem entries_table {g : Grammar} (entries : List Int) :
    g.emptyTable.Grows (entries.foldl (fun t e => t.add e [endOfInput]) g.emptyTable) ∧
      ∀ r x, (entries.foldl (fun t e => t.add e [endOfInput]) g.emptyTable).Holds r x ↔
        r ∈ entries ∧ x = endOfInput := by
  induction entries using List.reverseRecOn with
  | nil => exact ⟨.refl _, fun r x => ⟨fun h => absurd h Proper.not_holds_emptyTable, by simp⟩⟩
  | append_singleton entries e ih =>
    rw [List.foldl_append, List.foldl_cons, List.foldl_nil]
    refine ⟨ih.1.trans (TokenTable.grows_add _ _ _), fun r x => ?_⟩
    rw [TokenTable.holds_add, ih.2, List.mem_append, List.mem_singleton, List.mem_singleton]
    constructor
    · rintro (⟨hr, hx⟩ | ⟨rfl, hx⟩)
      · exact ⟨.inl hr, hx⟩
      · exact ⟨.inr rfl, hx⟩
    · rintro ⟨hr | rfl, hx⟩
      · exact .inl ⟨hr, hx⟩
      · exact .inr ⟨rfl, hx⟩

namespace Proper

variable {g : Grammar} (hg : g.Proper)
include hg

theorem walk_ok {i : Nat} (hi : i < g.rules.size) :
    ∃ l, g.walk i = .ok l ∧ ∀ s, s ∈ l ↔ g.network.InRule i s := by
  have hp := hg.network
  have hstart : ∀ s ∈ [startState i], g.network.Has s := fun s hs => by
    rw [List.mem_singleton.1 hs]
    exact (hp.owns_start hi).has
  have hnext : ∀ a, g.network.Has a → ∃ l, g.network.steps a = .ok l ∧ ∀ b ∈ l, g.network.Has b := by
    intro a ha
    obtain ⟨l, hl, hmem⟩ := hp.steps_ok ha
    refine ⟨l, hl, fun b hb => ?_⟩
    obtain ⟨id, t, ht, rfl⟩ := (hmem b).1 hb
    exact hp.has_next ht
  obtain ⟨l, hl, -⟩ := Search.exists_breadthFirst hnext g.network.walkBound hstart
  have huniv : Search.Universe g.network.steps g.network.ids := fun a _ b hb => by
    obtain ⟨id, t, ht, rfl⟩ := hp.step_steps_iff.1 hb
    exact mem_ids_iff.2 (hp.has_next ht)
  have hfrom : g.rules[i].start = startState i := (hg.rule (Array.getElem?_eq_getElem hi)).2.1
  refine ⟨l.toList, bind_eq_ok.2 ⟨_, ruleAt_ok hi, bind_eq_ok.2 ⟨l, by rw [hfrom]; exact hl, rfl⟩⟩,
    fun s => ?_⟩
  rw [Search.mem_breadthFirst_iff huniv (fun a ha => mem_ids_iff.2 (hstart a ha)) length_ids_le hl]
  simp only [List.mem_singleton, exists_eq_left]
  unfold InRule
  rw [show Search.Step g.network.steps = g.network.Onto from
    funext fun a => funext fun b => propext hp.step_steps_iff]

theorem calls_ok {i : Nat} (hi : i < g.rules.size) :
    ∃ l, g.calls i = .ok l ∧ ∀ t, t ∈ l ↔ t.kind = .ruleCall ∧
      ∃ s id, g.network.InRule i s ∧ g.network.Leaves s id t := by
  obtain ⟨states, hstates, hmem⟩ := hg.walk_ok hi
  have hout : ∀ s ∈ states, ∃ l, g.network.outgoing s = .ok l ∧
      ∀ t, t ∈ l ↔ ∃ id, g.network.Leaves s id t := fun s hs => by
    obtain ⟨st, hst, -⟩ := hg.network.owns_of_inRule hi ((hmem s).1 hs)
    exact hg.network.outgoing_ok hst
  obtain ⟨out, hout'⟩ := exists_mapM fun s hs => (hout s hs).imp fun _ hl => hl.1
  refine ⟨_, bind_eq_ok.2 ⟨_, bind_eq_ok.2 ⟨states, hstates, bind_eq_ok.2 ⟨out, hout', rfl⟩⟩, rfl⟩,
    fun t => ?_⟩
  rw [List.mem_filter, beq_iff_eq, and_comm, List.mem_flatten]
  refine and_congr_right fun _ => ?_
  constructor
  · rintro ⟨l, hl, ht⟩
    obtain ⟨s, hs, hl⟩ := (mem_of_mapM hout').1 hl
    obtain ⟨l', hl', hiff⟩ := hout s hs
    rw [hl] at hl'
    cases hl'
    obtain ⟨id, ht⟩ := (hiff t).1 ht
    exact ⟨s, id, (hmem s).1 hs, ht⟩
  · rintro ⟨s, id, hs, ht⟩
    have hs := (hmem s).2 hs
    obtain ⟨l, hl, hiff⟩ := hout s hs
    exact ⟨l, (mem_of_mapM hout').2 ⟨s, hs, hl⟩, (hiff t).2 ⟨id, ht⟩⟩

/-- The call sites are found without fail. -/
theorem callSites_ok : ∃ l, g.callSites = .ok l ∧ ∀ site, site ∈ l ↔
    ∃ i < g.rules.size, site.caller = Int.ofNat i ∧ g.network.Site i site.callee site.follow := by
  have hsite : ∀ (r : Int) (t : Transition) (site : CallSite), (do
      return (⟨r, ← t.rule, ← t.follow⟩ : CallSite) : Option CallSite) = some site ↔
      site.caller = r ∧ t.rule = some site.callee ∧ t.follow = some site.follow := by
    intro r t site
    cases hr : t.rule <;> cases hf : t.follow <;> simp [bind, Option.bind]
    constructor
    · rintro rfl
      exact ⟨rfl, rfl, rfl⟩
    · rintro ⟨rfl, rfl, rfl⟩
      rfl
  refine exists_bind_mapM (fun r l => ∃ i < g.rules.size, r.index = Int.ofNat i ∧ ∀ site, site ∈ l ↔
    site.caller = r.index ∧ g.network.Site i site.callee site.follow) (fun r hr => ?_)
    fun per hper hall => ⟨_, rfl, fun site => ?_⟩
  · obtain ⟨i, hi, -, hindex, -⟩ := hg.exists_rule hr
    obtain ⟨calls, hcalls, hmem⟩ := hg.calls_ok hi
    refine ⟨_, bind_eq_ok.2 ⟨calls, by rw [hindex]; exact hcalls, rfl⟩, i, hi, hindex, fun site => ?_⟩
    rw [List.mem_filterMap]
    constructor
    · rintro ⟨t, ht, heq⟩
      obtain ⟨hcaller, hrule, hfollow⟩ := (hsite _ _ _).1 heq
      obtain ⟨hk, s, id, hs, ht⟩ := (hmem t).1 ht
      refine ⟨hcaller, s, id, t, hs, ht, ?_⟩
      unfold Transition.call?
      rw [hk, hrule, hfollow]
    · rintro ⟨hcaller, s, id, t, hs, hc⟩
      obtain ⟨hk, hrule, hfollow⟩ := Transition.of_call? hc.2
      exact ⟨t, (hmem t).2 ⟨hk, s, id, hs, hc.1⟩, (hsite _ _ _).2 ⟨hcaller, hrule, hfollow⟩⟩
  rw [List.mem_flatten]
  constructor
  · rintro ⟨l, hl, hmem⟩
    obtain ⟨r, -, i, hi, hindex, hiff⟩ := hper l hl
    obtain ⟨hcaller, hs⟩ := (hiff site).1 hmem
    exact ⟨i, hi, hcaller.trans hindex, hs⟩
  · rintro ⟨i, hi, hcaller, hs⟩
    obtain ⟨r, hr, hindex, -⟩ := hg.exists_mem_ruleList hi
    obtain ⟨l, hl, j, -, hj, hiff⟩ := hall r hr
    obtain rfl : i = j := Int.ofNat.inj (hindex.symm.trans hj)
    exact ⟨l, hl, (hiff site).2 ⟨hcaller.trans hindex.symm, hs⟩⟩

/-- A call site is scanned without fail. -/
theorem scan_site_ok {nullable : Int → Bool}
    (hnull : ∀ r, nullable r = true ↔ g.network.Null g.rules.size r) {i : Nat} (hi : i < g.rules.size)
    {callee follow : Int} (hs : g.network.Site i callee follow) :
    (∃ j < g.rules.size, callee = Int.ofNat j) ∧
      ∃ x, g.scan nullable follow = .ok x ∧ x.Meets g.network follow (stopState i) := by
  obtain ⟨s, id, t, hin, hc⟩ := hs
  obtain ⟨j, hj, hcallee, -, hfollow⟩ :=
    hg.network.of_calls hc (hg.network.owns_of_inRule hi hin)
  exact ⟨⟨j, hj, hcallee⟩, hg.scan_ok hnull hi hfollow.owns⟩

/-- The system of all call sites has what comes after rules for its least solution. -/
theorem least_iff_follows {first : TokenTable} (hfirst : g.KnowsFirst first) {entries : List Int}
    {start : TokenTable} (hgiven : ∀ r x, start.Holds r x ↔ r ∈ entries ∧ x = endOfInput)
    {system : List Inclusion}
    (hmem : ∀ e ∈ system, ∃ i < g.rules.size, ∃ callee follow x, g.network.Site i callee follow ∧
      x.Meets g.network follow (stopState i) ∧
      e = followInclusion first ⟨Int.ofNat i, callee, follow⟩ x)
    (hall : ∀ i < g.rules.size, ∀ callee follow, g.network.Site i callee follow → ∃ x,
      x.Meets g.network follow (stopState i) ∧
      followInclusion first ⟨Int.ofNat i, callee, follow⟩ x ∈ system) {r : Int} {x : String} :
    TokenTable.Least start system r x ↔ g.Follows entries r x := by
  constructor
  · intro h
    induction h with
    | given h =>
      obtain ⟨hr, rfl⟩ := (hgiven _ _).1 h
      exact .entry hr
    | token he hx =>
      obtain ⟨i, hi, callee, follow, y, hs, hmeets, rfl⟩ := hmem _ he
      exact .token hi hs ((hg.mem_scanTokens_iff hfirst hmeets).1 hx)
    | source he hsource _ ih =>
      obtain ⟨i, hi, callee, follow, y, hs, hmeets, rfl⟩ := hmem _ he
      unfold followInclusion at hsource
      split at hsource
      · rename_i hreaches
        rw [List.mem_singleton.1 hsource] at ih
        exact .caller hi hs (hmeets.reachesStop.1 hreaches) ih
      · cases hsource
  · intro h
    induction h with
    | entry hr => exact .given ((hgiven _ _).2 ⟨hr, rfl⟩)
    | token hi hs hx =>
      obtain ⟨y, hmeets, hin⟩ := hall _ hi _ _ hs
      exact .token hin ((hg.mem_scanTokens_iff hfirst hmeets).2 hx)
    | @caller i _ _ _ hi hs hend _ ih =>
      obtain ⟨y, hmeets, hin⟩ := hall _ hi _ _ hs
      refine .source hin (s := i) ?_ ih
      unfold followInclusion
      rw [if_pos (hmeets.reachesStop.2 hend)]
      exact List.mem_singleton_self _

/-- FOLLOW sets are found without fail: every rule has one, and it holds what comes after the rule. -/
theorem followTable_ok {nullable : Int → Bool}
    (hnull : ∀ r, nullable r = true ↔ g.network.Null g.rules.size r) {first : TokenTable}
    (hfirst : g.KnowsFirst first) (entries : List Int) :
    ∃ follow, g.followTable nullable first entries = .ok follow ∧
      (∀ i < g.rules.size, (OrderedMap.get? follow (Int.ofNat i)).isSome) ∧
      ∀ r x, follow.Holds r x ↔ g.Follows entries r x := by
  obtain ⟨sites, hsites, hsite⟩ := hg.callSites_ok
  obtain ⟨hgrows, hgiven⟩ := entries_table (g := g) entries
  unfold followTable
  generalize entries.foldl (fun t e => t.add e [endOfInput]) g.emptyTable = start at hgrows hgiven ⊢
  have hrows : ∀ i < g.rules.size, (OrderedMap.get? start (Int.ofNat i)).isSome := fun i hi => by
    obtain ⟨r, hr, hindex, -⟩ := hg.exists_mem_ruleList hi
    have hsome := OrderedMap.isSome_get?_ofList (l := g.ruleList.map fun r => (r.index, ∅))
      (List.mem_map_of_mem (f := fun r => (r.index, (∅ : OrderedSet String))) hr)
    rw [hindex] at hsome
    exact hgrows.keys hsome
  obtain ⟨scans, hscans⟩ := exists_mapM (l := sites) (f := fun site => g.scan nullable site.follow)
    fun site hs => by
      obtain ⟨i, hi, -, hs⟩ := (hsite site).1 hs
      obtain ⟨-, x, hx, -⟩ := hg.scan_site_ok hnull hi hs
      exact ⟨x, hx⟩
  have hfound : sites.find? (fun site => (OrderedMap.get? start site.callee).isNone) = none :=
    List.find?_eq_none.2 fun site hs => by
      obtain ⟨i, hi, -, hs⟩ := (hsite site).1 hs
      obtain ⟨⟨j, hj, hcallee⟩, -⟩ := hg.scan_site_ok hnull hi hs
      rw [hcallee]
      simpa using Option.isSome_iff_ne_none.1 (hrows j hj)
  refine ⟨start.solve ((sites.zip scans).map fun e => followInclusion first e.1 e.2), ?_,
    fun i hi => (TokenTable.grows_solve _ _).keys (hrows i hi), fun r x => ?_⟩
  · rw [hsites]
    simp only [bind, Except.bind, hscans, hfound, pure, Except.pure]
  · rw [TokenTable.holds_solve]
    refine hg.least_iff_follows hfirst hgiven (fun e he => ?_) fun i hi callee follow hs => ?_
    · obtain ⟨⟨site, x⟩, hz, rfl⟩ := List.mem_map.1 he
      obtain ⟨i, hi, hcaller, hs⟩ := (hsite site).1 (List.of_mem_zip hz).1
      obtain ⟨-, x', hx', hmeets⟩ := hg.scan_site_ok hnull hi hs
      have hx := (List.forall₂_iff_zip.1 (mapM_eq_ok.1 hscans)).2 hz
      obtain rfl := Except.ok.inj (hx.symm.trans hx')
      exact ⟨i, hi, site.callee, site.follow, x, hs, hmeets, by rw [← hcaller]⟩
    · obtain ⟨-, x, hx, hmeets⟩ := hg.scan_site_ok hnull hi hs
      have hin := (hsite ⟨Int.ofNat i, callee, follow⟩).2 ⟨i, hi, rfl, hs⟩
      exact ⟨x, hmeets, List.mem_map.2 ⟨(_, x), mem_zip_of_mapM hscans hin hx, rfl⟩⟩

end Proper

end Grammar

end RuleNetwork
