import RuleNetwork.Proofs.Parsing.Alternatives
import RuleNetwork.Proofs.Parsing.Stages

/-!
The events of a parse, read off its ties. Every useful visit with a choice is one of a decision, so a
parse without events is one in which no two alternatives of a visit meet.
-/

set_option autoImplicit false

namespace RuleNetwork

open Network Relation

/-- The tables of a grammar hold its index and its decisions. -/
theorem ParseTables.ofGrammar_ok {g : Grammar} {p : ParseTables} (h : ofGrammar g = .ok p) :
    p.grammar = g ∧ ChartIndex.ofGrammar g = .ok p.index ∧
      p.decisionAt = g.decisions.foldl (fun m d => m.insert d.state d) ∅ := by
  unfold ofGrammar at h
  obtain ⟨index, hi, h⟩ := bind_eq_ok.1 h
  obtain rfl := pure_eq_ok.1 h
  exact ⟨rfl, hi, rfl⟩

/-- A proper grammar has tables, however its tokens are cut out of text. -/
theorem ParseTables.exists_tables {g : Grammar} (hg : g.Proper) : ∃ p, ofGrammar g = .ok p := by
  obtain ⟨ix, hix, -⟩ := ChartIndex.ofGrammar_ok hg
  exact ⟨_, bind_eq_ok.2 ⟨ix, hix, rfl⟩⟩

/-- The chart of a parse. -/
theorem ParseTables.Staged.recognizes {g : Grammar} (hg : g.Proper) {p : ParseTables}
    (hp : ofGrammar g = .ok p) {i : Nat} (hi : i < g.rules.size) {tokens : TokenStream}
    {c : Chart} {u : OrderedSet Visit} {m : Groups} {n : Counts} {t : Ties}
    (h : p.Staged i tokens c u m n t) :
    c.index = p.index ∧ p.index.grammar = g ∧ c.Recognizes i tokens.types := by
  obtain ⟨-, hindex, -⟩ := ParseTables.ofGrammar_ok hp
  obtain ⟨ix, hix, rfl, hproper⟩ := ChartIndex.ofGrammar_ok hg
  rw [hindex] at hix
  cases hix
  obtain ⟨c', hc', hindex', hrec⟩ := Chart.recognize_ok hproper hi tokens.types
  rw [h.chart] at hc'
  cases hc'
  exact ⟨hindex', rfl, hrec⟩

/-- What is known of the traces of a parse. -/
structure Traces.Noted (x : Traces) (i : Nat) (types : List String) : Prop where
  ties : x.ties.Noted i types
  grammar : x.tables.grammar = x.ties.chart.index.grammar
  decisionAt : ∀ s d, x.tables.decisionAt[s]? = some d ↔
    d ∈ x.ties.chart.network.decisions ∧ d.state = s
  visits : ∀ v, v ∈ x.visits ↔ v ∈ x.ties.useful.toList

/-- The traces of an accepted input. -/
structure Traces.Complete (x : Traces) (i K : Nat) (types : List String) : Prop
    extends x.Noted i types where
  accepts : x.ties.Accepts i K types

namespace ParseTables

variable {g : Grammar} {p : ParseTables} {i : Nat} {tokens : TokenStream}

/-- A parse goes through all of its stages. -/
theorem exists_staged (hg : g.Proper) (hp : ofGrammar g = .ok p) (hi : i < g.rules.size)
    (tokens : TokenStream) : ∃ c u m n t, p.Staged i tokens c u m n t := by
  obtain ⟨-, hindex, -⟩ := ofGrammar_ok hp
  obtain ⟨ix, hix, rfl, hproper⟩ := ChartIndex.ofGrammar_ok hg
  rw [hindex] at hix
  cases hix
  obtain ⟨c, hc, -, hrec⟩ := Chart.recognize_ok hproper hi tokens.types
  obtain ⟨u, hu, hcontains, -⟩ := hrec.useful_ok c.nodup_seeds fun _ => Chart.contains_of_mem_seeds
  obtain ⟨m, hm, -⟩ := hrec.groups_ok hcontains
  obtain ⟨n, hn, -⟩ := hrec.counts_ok (some m) hcontains
  obtain ⟨t, ht, -⟩ := Ties.notes_ok hrec (t := ⟨c, u, m, n,
    if c.isAccepted then none else some c.furthest, ∅, ∅, ∅⟩) rfl hcontains
  exact ⟨c, u, m, n, t, hc, hu, hm, hn, ht⟩

namespace Staged

variable {c : Chart} {u : OrderedSet Visit} {m : Groups} {n : Counts} {t : Ties}
  (h : p.Staged i tokens c u m n t) (hg : g.Proper) (hp : ofGrammar g = .ok p)
  (hi : i < g.rules.size)
include h hg hp hi

theorem noted : (p.traces tokens u t).Noted i tokens.types := by
  obtain ⟨hindex, hgrammar, hrec⟩ := h.recognizes hg hp hi
  obtain ⟨hchart, huseful, hgroups, -, -⟩ := Ties.alike_notes h.ties
  simp only at hchart huseful hgroups
  obtain ⟨u', hu', hcontains, hmem⟩ :=
    hrec.useful_ok c.nodup_seeds fun _ => Chart.contains_of_mem_seeds
  rw [h.useful] at hu'
  obtain rfl := Except.ok.inj hu'
  obtain ⟨m', hm', htogether, hmembers⟩ := hrec.groups_ok hcontains
  rw [h.groups] at hm'
  obtain rfl := Except.ok.inj hm'
  obtain ⟨t', ht', hends, hcallers⟩ := Ties.notes_ok hrec (t := ⟨c, u, m, n,
    if c.isAccepted then none else some c.furthest, ∅, ∅, ∅⟩) rfl hcontains
  rw [h.ties] at ht'
  obtain rfl := Except.ok.inj ht'
  obtain ⟨hgrammar', -, hdecisionAt⟩ := ofGrammar_ok hp
  have hpg : p.grammar = c.index.grammar := by rw [hgrammar', hindex, hgrammar]
  unfold traces
  refine ⟨⟨?_, ?_, ?_, ?_, ?_, ?_, ?_⟩, ?_, fun s d => ?_, fun v => List.mem_mergeSort.trans ?_⟩
  · simp only [hchart]
    exact hrec
  · simp only [hchart, huseful]
    exact fun hv => hcontains _ hv
  · simp only [hchart, huseful]
    intro w v hv hw
    obtain ⟨s, hs, hsv⟩ := (hmem v).1 hv
    exact (hmem w).2 ⟨s, hs, hsv.tail hw⟩
  · simp only [hchart, huseful, hgroups]
    exact htogether
  · simp only [hgroups]
    exact hmembers
  · simp only [hchart, huseful]
    intro a k
    rw [hends]
    simp [Ties.endsOf]
  · simp only [hchart, huseful]
    intro a x
    rw [hcallers]
    simp [Ties.callersOf]
  · simp only [hchart]
    exact hpg
  · simp only [hchart]
    rw [hdecisionAt, ← hgrammar', hpg]
    refine (getElem?_foldl_insert_iff (f := Decision.state) (w := fun d => d) ?_).trans ?_
    · exact fun d hd d' hd' => hrec.index.grammar.network.decision_unique hd hd'
    · constructor
      · rintro ⟨d, hd, hs, rfl⟩
        exact ⟨hd, hs⟩
      · exact fun hd => ⟨d, hd.1, hd.2, rfl⟩
  · simp only [huseful]

theorem network_eq : (p.traces tokens u t).ties.chart.network = g.network := by
  obtain ⟨hindex, hgrammar, -⟩ := h.recognizes hg hp hi
  rw [h.chart_eq, Chart.network, hindex, hgrammar]

/-- A parse that accepts its input has complete traces. -/
theorem complete {K : Nat} (hK : c.accept? = some K) :
    (p.traces tokens u t).Complete i K tokens.types := by
  have hnoted := h.noted hg hp hi
  obtain ⟨-, -, hrec⟩ := h.recognizes hg hp hi
  obtain ⟨hchart, huseful, hgroups, hcounts, hopen⟩ := Ties.alike_notes h.ties
  simp only at hchart huseful hgroups hcounts hopen
  obtain ⟨u', hu', hmem⟩ := hrec.useful_iff hK
  rw [h.useful] at hu'
  obtain rfl := Except.ok.inj hu'
  obtain ⟨n', hn', hraised, hsettled⟩ := hrec.counts_ok (some m) fun v hv =>
    hrec.contains_of_visits ((hmem v).1 hv)
  rw [h.counts] at hn'
  obtain rfl := Except.ok.inj hn'
  refine ⟨hnoted, hnoted.ties, ?_, ?_, ?_⟩
  · simp only [traces, hchart, huseful, hgroups, hcounts]
    exact ⟨hrec, hmem, hraised, hsettled⟩
  · simp only [traces, hchart]
    exact hK
  · simp only [traces, hopen, Chart.isAccepted, hK, Option.isSome_some, if_true]

end Staged

end ParseTables

namespace Traces

/-- An alternative of a visit meets another one. -/
def Tied (x : Traces) (i K : Nat) (types : List String) (v : Visit) (a : Nat) : Prop :=
  ∃ b, b ≠ a ∧ ∃ id id', x.ties.chart.network.Offers v.state a id ∧
    x.ties.chart.network.Offers v.state b id' ∧ x.ties.Meets i K types v id id'

namespace Noted

variable {x : Traces} {i : Nat} {types : List String} (h : x.Noted i types)
include h

theorem network_eq : x.network = x.ties.chart.network := by
  unfold network
  rw [h.grammar]

theorem state_ok {v : Visit} (hv : v ∈ x.ties.useful.toList) :
    ∃ st, x.network.state v.state = .ok st := by
  obtain ⟨j, -, ⟨⟨st, hs, -⟩, -⟩, -⟩ := h.ties.invocation_ok hv
  rw [h.network_eq]
  exact ⟨st, hs⟩

theorem invocationEnds_ok : ∃ ends, x.invocationEnds = .ok ends :=
  exists_foldlM (fun v hv ends => by
    obtain ⟨st, hs⟩ := h.state_ok ((h.visits v).1 hv)
    exact ⟨_, bind_eq_ok.2 ⟨st, hs, rfl⟩⟩) ∅

/-- The visits of decisions are found without fail. -/
theorem decisionVisits_ok : ∃ found, x.decisionVisits = .ok found ∧
    (∀ d ∈ found, d.visit ∈ x.ties.useful.toList ∧ d.decision ∈ x.ties.chart.network.decisions ∧
      d.decision.state = d.visit.state ∧ x.viable d.visit = .ok d.viable) ∧
    ∀ v ∈ x.ties.useful.toList, ∀ d ∈ x.ties.chart.network.decisions, d.state = v.state →
      ∃ e ∈ found, e.visit = v ∧ e.decision = d := by
  obtain ⟨ends, hends⟩ := h.invocationEnds_ok
  refine exists_bind hends (exists_bind_mapM (fun v o => ∃ l, x.viable v = .ok l ∧
    o = (x.tables.decisionAt[v.state]?).map fun d =>
      ⟨v, d, l, ends.getD ⟨d.rule, v.origin⟩ x.chart.furthest⟩) (fun v hv => ?_)
    fun r hr hall => ⟨r.filterMap id, rfl, fun d hd => ?_, fun v hv d hd hs => ?_⟩)
  · obtain ⟨l, hl, -⟩ := viable_ok h.ties h.grammar ((h.visits v).1 hv)
    cases x.tables.decisionAt[v.state]? with
    | none => exact ⟨none, rfl, l, hl, rfl⟩
    | some d => exact ⟨_, bind_eq_ok.2 ⟨l, hl, rfl⟩, l, hl, rfl⟩
  · obtain ⟨o, ho, hod⟩ := List.mem_filterMap.1 hd
    obtain ⟨v, hv, l, hl, rfl⟩ := hr o ho
    obtain ⟨d', hat, rfl⟩ := Option.map_eq_some_iff.1 hod
    obtain ⟨hd', hs⟩ := (h.decisionAt _ _).1 hat
    exact ⟨(h.visits v).1 hv, hd', hs, hl⟩
  · obtain ⟨o, ho, l, hl, rfl⟩ := hall v ((h.visits v).2 hv)
    rw [(h.decisionAt _ _).2 ⟨hd, hs⟩] at ho
    exact ⟨_, List.mem_filterMap.2 ⟨_, ho, rfl⟩, rfl, rfl⟩

/-- Whether there is a tie at a visit is found without fail. -/
theorem tie?_ok {d : DecisionVisit} (hv : d.visit ∈ x.ties.useful.toList) :
    ∃ o, x.tie? d = .ok o ∧ ∀ t, o = some t → t.decision = d.decision := by
  unfold tie?
  split
  · exact ⟨none, rfl, by rintro t ⟨⟩⟩
  · obtain ⟨tied, htied⟩ := h.ties.tied_ok hv d.viable
    refine ⟨_, bind_eq_ok.2 ⟨tied, htied, rfl⟩, fun t ht => ?_⟩
    split at ht <;> cases ht
    rfl

/-- What one event tells: the decision, the position, and the alternatives of all ties there. -/
theorem event_ok {ties : List Tie} (hties : ∀ t ∈ ties, t.decision ∈ x.ties.chart.network.decisions)
    {t : Tie} (ht : t ∈ ties) :
    ∃ e, x.event ties t.decision.id t.start = .ok e ∧ e.decision = t.decision.id ∧
      e.start = t.start ∧ e.exact = x.chart.isAccepted ∧
      ∀ a, a ∈ e.alternatives ↔ ∃ t' ∈ ties, t'.decision.id = t.decision.id ∧ t'.start = t.start ∧
        ∃ b ∈ t'.alternatives, a = Int.ofNat b := by
  have hmem : ∀ t', t' ∈ ties.filter (fun t' => t'.decision.id == t.decision.id && t'.start == t.start) ↔
      t' ∈ ties ∧ t'.decision.id = t.decision.id ∧ t'.start = t.start := fun t' => by
    rw [List.mem_filter, Bool.and_eq_true, beq_iff_eq, beq_iff_eq]
  obtain ⟨own, hown⟩ : ∃ own, own =
      ties.filter fun t' => t'.decision.id == t.decision.id && t'.start == t.start := ⟨_, rfl⟩
  rw [← hown] at hmem
  obtain ⟨first, hfirst⟩ : ∃ first, own.head? = some first := by
    cases own with
    | nil => exact absurd ((hmem t).2 ⟨ht, rfl, rfl⟩) List.not_mem_nil
    | cons a l => exact ⟨a, rfl⟩
  have hrule : ∃ r, x.tables.grammar.ruleAt first.decision.rule = .ok r := by
    obtain ⟨hf, -⟩ := (hmem first).1 (List.mem_of_head? hfirst)
    obtain ⟨st, hs, -, hr, -⟩ := h.ties.proper.mem_decisions (hties first hf)
    obtain ⟨j, hj, hrule⟩ := (h.ties.proper.state hs).rule
    rw [hr, hrule, h.grammar]
    exact ⟨_, Grammar.ruleAt_ok hj⟩
  obtain ⟨r, hr⟩ := hrule
  unfold event
  simp only [← hown, hfirst, Option.map_some, Option.getD_some, hr]
  refine ⟨_, rfl, rfl, rfl, rfl, fun a => ?_⟩
  simp only [List.mem_map, List.mem_mergeSort, OrderedSet.mem_toList_ofList, List.mem_flatMap, hmem]
  constructor
  · rintro ⟨b, ⟨t', ⟨ht', hid, hstart⟩, hb⟩, rfl⟩
    exact ⟨t', ht', hid, hstart, b, hb, rfl⟩
  · rintro ⟨t', ht', hid, hstart, b, hb, rfl⟩
    exact ⟨b, ⟨t', ⟨ht', hid, hstart⟩, hb⟩, rfl⟩

/-- Events are told without fail, one for every decision and position with a tie. -/
theorem events_ok (ties : List Tie) (hties : ∀ t ∈ ties, t.decision ∈ x.ties.chart.network.decisions) :
    ∃ l, x.events ties = .ok l ∧ (l = [] ↔ ties = []) ∧
      ∀ e ∈ l, ∃ t ∈ ties, x.event ties t.decision.id t.start = .ok e := by
  unfold events
  obtain ⟨keys, hkeys⟩ : ∃ keys, keys = (OrderedSet.ofList
      (ties.map fun t => (t.decision.id, t.start))).toList.mergeSort pairOrder := ⟨_, rfl⟩
  have hmem : ∀ k, k ∈ keys ↔ ∃ t ∈ ties, (t.decision.id, t.start) = k := fun k => by
    rw [hkeys, List.mem_mergeSort, OrderedSet.mem_toList_ofList, List.mem_map]
  obtain ⟨l, hl⟩ := exists_mapM (l := keys) (f := fun k => x.event ties k.1 k.2) fun k hk => by
    obtain ⟨t, ht, rfl⟩ := (hmem k).1 hk
    obtain ⟨e, he, -⟩ := h.event_ok hties ht
    exact ⟨e, he⟩
  rw [← hkeys]
  refine ⟨l, hl, ?_, fun e he => ?_⟩
  · have hlen := (mapM_eq_ok.1 hl).length_eq
    constructor
    · rintro rfl
      obtain rfl := List.length_eq_zero_iff.1 hlen
      cases ties with
      | nil => rfl
      | cons t ties => exact absurd ((hmem _).2 ⟨t, List.mem_cons_self .., rfl⟩) List.not_mem_nil
    · rintro rfl
      cases keys with
      | nil => exact List.length_eq_zero_iff.1 hlen.symm
      | cons k keys =>
        obtain ⟨t, ht, -⟩ := (hmem k).1 (List.mem_cons_self ..)
        cases ht
  · obtain ⟨k, hk, he⟩ := (mem_of_mapM hl).1 he
    obtain ⟨t, ht, rfl⟩ := (hmem k).1 hk
    exact ⟨t, ht, he⟩

end Noted

namespace Complete

variable {x : Traces} {i K : Nat} {types : List String} (h : x.Complete i K types)
include h

/-- A tie is told of a visit just if some of its alternatives are tied. -/
theorem tie?_ok {d : DecisionVisit} (hv : d.visit ∈ x.ties.useful.toList)
    (hd : x.viable d.visit = .ok d.viable) :
    ∃ o, x.tie? d = .ok o ∧ (o = none → ∀ a, ¬ x.Tied i K types d.visit a) ∧
      ∀ t, o = some t → t.decision = d.decision ∧ t.start = d.visit.position ∧
        t.alternatives ≠ [] ∧ ∀ a, a ∈ t.alternatives ↔ x.Tied i K types d.visit a := by
  obtain ⟨l, hl, hsorted, hmem⟩ := viable_ok h.ties h.grammar hv
  rw [hd] at hl
  cases hl
  have hviable : ∀ {a id e}, x.ties.chart.network.Offers d.visit.state a id →
      x.ties.Leads types d.visit id e → a ∈ d.viable := fun ho hlead => by
    obtain ⟨w, hw, hop, -⟩ := hlead
    exact (hmem _).2 ⟨_, ho, w, hw, hop⟩
  have hnodup : d.viable.Nodup := hsorted.imp Nat.ne_of_lt
  obtain ⟨tied, htied, -, hiff⟩ := h.accepts.tied_ok hv hnodup fun a ha => by
    obtain ⟨id, ho, -⟩ := (hmem a).1 ha
    exact ⟨id, ho⟩
  have htied_iff : ∀ a, a ∈ tied ↔ x.Tied i K types d.visit a := by
    intro a
    rw [hiff]
    constructor
    · rintro ⟨-, b, -, hne, hmeets⟩
      exact ⟨b, hne, hmeets⟩
    · rintro ⟨b, hne, id, id', ho, ho', hmeets⟩
      have hm := hmeets
      obtain ⟨-, -, -, -, -, ⟨e, -, hlead⟩, e', -, hlead'⟩ := hm
      exact ⟨hviable ho hlead, b, hviable ho' hlead', hne, id, id', ho, ho', hmeets⟩
  unfold tie?
  by_cases hlen : d.viable.length < 2
  · refine ⟨none, by rw [if_pos hlen]; rfl, fun _ a ha => ?_, by rintro t ⟨⟩⟩
    obtain ⟨ha, b, hb, hne, -⟩ := (hiff a).1 ((htied_iff a).2 ha)
    have := (two_le_length_iff hnodup ha).2 ⟨b, hb, hne⟩
    omega
  · rw [if_neg hlen]
    refine ⟨_, bind_eq_ok.2 ⟨tied, htied, rfl⟩, ?_⟩
    cases tied with
    | nil =>
      refine ⟨fun _ a ha => ?_, by rintro t ⟨⟩⟩
      exact List.not_mem_nil ((htied_iff a).2 ha)
    | cons a l =>
      refine ⟨by rintro ⟨⟩, ?_⟩
      rintro t ⟨⟩
      exact ⟨rfl, rfl, List.cons_ne_nil _ _, htied_iff⟩

/-- The ties of a parse are those of its useful visits. -/
theorem ties_ok : ∃ found ties, x.decisionVisits = .ok found ∧ found.mapM x.tie? = .ok ties ∧
    (∀ t ∈ ties.filterMap id, t.decision ∈ x.ties.chart.network.decisions ∧
      ∃ v ∈ x.ties.useful.toList, t.decision.state = v.state ∧ t.start = v.position ∧
        t.alternatives ≠ [] ∧ ∀ a, a ∈ t.alternatives ↔ x.Tied i K types v a) ∧
    ∀ v ∈ x.ties.useful.toList, ∀ a, x.Tied i K types v a → ∃ t ∈ ties.filterMap id,
      t.decision.state = v.state ∧ t.start = v.position ∧ a ∈ t.alternatives := by
  obtain ⟨found, hfound, hof, hcover⟩ := h.decisionVisits_ok
  obtain ⟨ties, hties⟩ := exists_mapM (l := found) (f := x.tie?) fun d hd => by
    obtain ⟨hv, -, -, hviable⟩ := hof d hd
    obtain ⟨o, ho, -⟩ := h.tie?_ok hv hviable
    exact ⟨o, ho⟩
  refine ⟨found, ties, hfound, hties, fun t ht => ?_, fun v hv a ha => ?_⟩
  · obtain ⟨o, ho, rfl⟩ := List.mem_filterMap.1 ht
    obtain ⟨d, hd, ho⟩ := (mem_of_mapM hties).1 ho
    obtain ⟨hv, hdec, hs, hviable⟩ := hof d hd
    obtain ⟨o', ho', -, hsome⟩ := h.tie?_ok hv hviable
    rw [ho] at ho'
    obtain ⟨hd, hstart, hne, hmem⟩ := hsome t (Except.ok.inj ho').symm
    exact ⟨hd ▸ hdec, d.visit, hv, hd ▸ hs, hstart, hne, hmem⟩
  · obtain ⟨b, hne, id, id', ho, ho', -⟩ := id ha
    obtain ⟨d, hd, hs⟩ := h.accepts.counted.proper.exists_decision_of_offers ho ho' hne
    obtain ⟨e, he, rfl, rfl⟩ := hcover v hv d hd hs
    obtain ⟨hv, -, -, hviable⟩ := hof e he
    obtain ⟨o, ho, hnone, hsome⟩ := h.tie?_ok hv hviable
    cases o with
    | none => exact absurd ha (hnone rfl a)
    | some t =>
      obtain ⟨hd, hstart, -, hmem⟩ := hsome t rfl
      refine ⟨t, List.mem_filterMap.2 ⟨some t, (mem_of_mapM hties).2 ⟨e, he, ho⟩, rfl⟩, ?_, hstart,
        (hmem a).2 ha⟩
      rw [hd, hs]

/-- A parse is without events just if no alternative of a useful visit is tied. -/
theorem events_eq_nil_iff {e : Execution} (he : x.execution = .ok e) :
    e.events = [] ↔ ∀ v ∈ x.ties.useful.toList, ∀ a, ¬ x.Tied i K types v a := by
  obtain ⟨found, ties, hfound, hties, hevents⟩ := (tells_of_execution he).events
  obtain ⟨found', ties', hfound', hties', hsound, hcomplete⟩ := h.ties_ok
  rw [hfound] at hfound'
  obtain rfl := Except.ok.inj hfound'
  rw [hties] at hties'
  obtain rfl := Except.ok.inj hties'
  obtain ⟨l, hl, hnil, -⟩ := h.events_ok (ties.filterMap id) fun t ht => (hsound t ht).1
  rw [hevents] at hl
  obtain rfl := Except.ok.inj hl
  rw [hnil]
  constructor
  · intro hempty v hv a ha
    obtain ⟨t, ht, -⟩ := hcomplete v hv a ha
    rw [hempty] at ht
    cases ht
  · intro hnone
    refine List.eq_nil_iff_forall_not_mem.2 fun t ht => ?_
    obtain ⟨-, v, hv, -, -, hne, hmem⟩ := hsound t ht
    obtain ⟨a, ha⟩ := List.exists_mem_of_ne_nil _ hne
    exact hnone v hv a ((hmem a).1 ha)

/-- An event tells of one decision at one position: its alternatives are those tied at the visits of
the decision there. -/
theorem mem_events {e : Execution} (he : x.execution = .ok e) {a : AmbiguityEvent} (ha : a ∈ e.events) :
    ∃ d ∈ x.ties.chart.network.decisions, ∃ k : Nat, a.decision = d.id ∧ a.start = k ∧ a.exact = true ∧
      (∃ v ∈ x.ties.useful.toList, v.state = d.state ∧ v.position = k ∧ ∃ b, x.Tied i K types v b) ∧
      ∀ b, b ∈ a.alternatives ↔ ∃ v ∈ x.ties.useful.toList, v.state = d.state ∧ v.position = k ∧
        ∃ n, x.Tied i K types v n ∧ b = Int.ofNat n := by
  obtain ⟨found, ties, hfound, hties, hevents⟩ := (tells_of_execution he).events
  obtain ⟨found', ties', hfound', hties', hsound, hcomplete⟩ := h.ties_ok
  rw [hfound] at hfound'
  obtain rfl := Except.ok.inj hfound'
  rw [hties] at hties'
  obtain rfl := Except.ok.inj hties'
  have hdecisions := fun t ht => (hsound t ht).1
  obtain ⟨l, hl, -, hof⟩ := h.events_ok (ties.filterMap id) hdecisions
  rw [hevents] at hl
  obtain rfl := Except.ok.inj hl
  obtain ⟨t, ht, hok⟩ := hof a ha
  obtain ⟨a', hok', hdecision, hstart, hexact, halternatives⟩ := h.event_ok hdecisions ht
  rw [hok] at hok'
  obtain rfl := Except.ok.inj hok'
  obtain ⟨hd, v, hv, hs, hk, hne, hmem⟩ := hsound t ht
  refine ⟨t.decision, hd, t.start, hdecision, hstart, ?_, ?_, fun b => ?_⟩
  · rw [hexact]
    unfold chart Chart.isAccepted
    rw [h.accepts.accept]
    rfl
  · obtain ⟨b, hb⟩ := List.exists_mem_of_ne_nil _ hne
    exact ⟨v, hv, hs.symm, hk.symm, b, (hmem b).1 hb⟩
  · rw [halternatives]
    constructor
    · rintro ⟨t', ht', hid, hk', n, hn, rfl⟩
      obtain ⟨hd', v', hv', hs', hstart', -, hmem'⟩ := hsound t' ht'
      have hsame := eq_of_decision_id hd' hd hid
      exact ⟨v', hv', by rw [← hs', hsame], by rw [← hstart', hk'], n, (hmem' n).1 hn, rfl⟩
    · rintro ⟨v', hv', hs', hk', n, hn, rfl⟩
      obtain ⟨t', ht', hs'', hstart', hn'⟩ := hcomplete v' hv' n hn
      have hsame := h.ties.proper.decision_unique (hsound t' ht').1 hd (hs''.trans hs')
      exact ⟨t', ht', by rw [hsame], hstart'.trans hk', n, hn', rfl⟩

/-- The viable alternatives of a useful visit are those that a derivation takes there. -/
theorem viable_ok {v : Visit} (hv : v ∈ x.ties.useful.toList) :
    ∃ l, x.viable v = .ok l ∧ l.Pairwise (· < ·) ∧
      ∀ a, a ∈ l ↔ ∃ id, x.ties.chart.network.Offers v.state a id ∧
        x.ties.chart.network.Takes types i K v id := by
  obtain ⟨l, hl, hsorted, hmem⟩ := Traces.viable_ok h.ties h.grammar hv
  refine ⟨l, hl, hsorted, fun a => (hmem a).trans (exists_congr fun id => and_congr_right fun _ => ?_)⟩
  rw [h.ties.proper.takes_iff h.ties.recognizes.rule]
  simp only [h.accepts.counted.useful, (h.accepts.counted.useful v).1 hv, true_and]

/-- Tied alternatives are viable. -/
theorem takes_of_tied {v : Visit} (hv : v ∈ x.ties.useful.toList) {a : Nat}
    (ha : x.Tied i K types v a) : ∃ b id id', b ≠ a ∧ x.ties.chart.network.Offers v.state a id ∧
      x.ties.chart.network.Offers v.state b id' ∧ x.ties.chart.network.Takes types i K v id ∧
      x.ties.chart.network.Takes types i K v id' := by
  have htakes : ∀ {id e}, x.ties.Leads types v id e → x.ties.chart.network.Takes types i K v id := by
    rintro id e ⟨w, hw, hop, -⟩
    exact (h.ties.proper.takes_iff h.ties.recognizes.rule).2
      ⟨(h.accepts.counted.useful v).1 hv, w, (h.accepts.counted.useful w).1 hw, hop⟩
  obtain ⟨b, hne, id, id', ho, ho', -, -, -, -, -, ⟨e, -, hlead⟩, e', -, hlead'⟩ := ha
  exact ⟨b, id, id', hne, ho, ho', htakes hlead, htakes hlead'⟩

end Complete

end Traces

end RuleNetwork
