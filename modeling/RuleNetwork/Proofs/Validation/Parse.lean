import RuleNetwork.Parsing.Parse
import RuleNetwork.Proofs.Lookahead.Report
import RuleNetwork.Proofs.Parsing.Events
import RuleNetwork.Proofs.Validation.Ties

/-!
A parse with the tables of a sound grammar never fails unless it is told to stop, whatever its input;
and only a token that cannot be matched keeps the tables from being built.
-/

set_option autoImplicit false

namespace RuleNetwork

open Network

/-- What a parse of a sound grammar leaves behind. -/
structure Traces.Sound (x : Traces) : Prop where
  grammar : x.ties.chart.index.grammar = x.tables.grammar
  ties : x.ties.Sound
  visits : ∀ v ∈ x.visits, v ∈ x.ties.useful.toList
  decisionAt : ∀ {s : Int} {d : Decision}, x.tables.decisionAt[s]? = some d →
    d ∈ x.tables.grammar.decisions

namespace Traces

variable {x : Traces} (h : x.Sound)
include h

theorem Sound.tables : x.tables.grammar.Sound := h.grammar ▸ h.ties.chart.index.grammar

theorem Sound.has {v : Visit} (hv : v ∈ x.visits) : x.network.Has v.state := by
  unfold network
  rw [← h.grammar]
  exact h.ties.chart.has (h.ties.useful v (h.visits v hv))

theorem rulesVisited_yields : Yields x.rulesVisited fun _ => True :=
  (Yields.mapM (R := fun _ _ => True) fun _ hv => (h.tables.state_yields (h.has hv)).bind
    fun _ _ => .ok trivial).bind fun _ _ => .ok trivial

theorem invocationEnds_yields : Yields x.invocationEnds fun _ => True :=
  .foldlM trivial fun _ hv _ _ => (h.tables.state_yields (h.has hv)).bind fun _ _ => .ok trivial

theorem isViable_yields (v : Visit) {t : Transition} (ht : t.Resolves x.tables.grammar) :
    Yields (x.isViable v t) fun _ => True := by
  unfold isViable
  cases hk : t.kind with
  | terminal => exact .ok trivial
  | ruleCall =>
    obtain ⟨callee, follow, r, hcall, hr, -⟩ := ht.call hk
    have hnum : x.ties.chart.index.grammar.Numbers callee := by
      rw [h.grammar]
      exact ⟨r, h.tables.mem_of_ruleAt hr⟩
    simp only [hcall]
    exact (ChartIndex.stopOf_yields h.ties.chart.index hnum).bind fun _ _ => .ok trivial
  | epsilon | predicate => exact .ok trivial

theorem viable_yields {v : Visit} (hv : v ∈ x.visits) : Yields (x.viable v) fun _ => True :=
  (h.tables.outgoing_yields (h.has hv)).bind fun _ hout =>
    (Yields.mapM fun t ht => isViable_yields h v (hout t ht)).bind fun _ _ => .ok trivial

theorem decisionVisits_yields : Yields x.decisionVisits fun l =>
    ∀ d ∈ l, d.visit ∈ x.visits ∧ d.decision ∈ x.tables.grammar.decisions := by
  refine (invocationEnds_yields h).bind fun ends _ => (Yields.mapM_all
    (R := fun o => ∀ d, o = some d → d.visit ∈ x.visits ∧ d.decision ∈ x.tables.grammar.decisions)
    fun v hv => ?_).bind fun found hfound => .ok fun d hd => ?_
  · split
    · exact .ok fun d hd => by cases hd
    · rename_i d hd
      refine (viable_yields h hv).bind fun viable _ => .ok fun d' hd' => ?_
      cases hd'
      exact ⟨hv, h.decisionAt hd⟩
  · obtain ⟨o, ho, hsome⟩ := List.mem_filterMap.1 hd
    exact hfound o ho d hsome

theorem lookaheads_yields {found : List DecisionVisit}
    (hfound : ∀ d ∈ found, d.decision ∈ x.tables.grammar.decisions) :
    Yields (x.lookaheads found) fun _ => True := by
  have hstart : x.tables.grammar.Numbers x.chart.startRule := by
    rw [← h.grammar]
    exact h.ties.chart.startRule
  unfold lookaheads
  refine .ite (fun _ => .ok trivial) fun _ => (h.tables.ruleAt_yields hstart).bind fun r hr => ?_
  have hasked : ∀ name ∈ [r.name], x.tables.grammar.hasRule name = true := fun name hn => by
    rw [List.mem_singleton.1 hn]
    exact Grammar.hasRule_name hr
  refine (Lookahead.ofGrammar_yields h.tables hasked false).bind fun a ha =>
    .foldlM trivial fun d hd known _ => .ite (fun _ => .ok trivial) fun _ => ?_
  rw [Lookahead.decision_ok (ha.grammar ▸ hfound d hd)]
  exact (ha.lookaheads_yields h.tables (hfound d hd)).bind fun _ _ => .ok trivial

theorem tie?_yields {d : DecisionVisit} (hd : d.visit ∈ x.visits) :
    Yields (x.tie? d) fun o => ∀ t, o = some t → t.decision = d.decision := by
  unfold tie?
  refine .ite (fun _ => .ok fun t ht => by cases ht) fun _ => ?_
  refine (Ties.tied_yields h.ties (h.visits _ hd) _).bind fun tied _ => .ok fun t ht => ?_
  split at ht
  · cases ht
  · cases ht
    rfl

theorem events_yields {ties : List Tie}
    (hties : ∀ t ∈ ties, t.decision ∈ x.tables.grammar.decisions) :
    Yields (x.events ties) fun _ => True := by
  refine (Yields.mapM (R := fun _ _ => True) fun k hk => ?_).mono fun _ _ => trivial
  -- a key is told of a tie, so there is one to take the rule from
  have hkey := (OrderedSet.mem_toList_ofList _ _).1 ((List.mergeSort_perm _ _).mem_iff.1 hk)
  obtain ⟨t, ht, rfl⟩ := List.mem_map.1 hkey
  have hown : t ∈ ties.filter fun t' => t'.decision.id == t.decision.id && t'.start == t.start :=
    List.mem_filter.2 ⟨ht, by simp⟩
  unfold event
  simp only
  obtain ⟨t', hhead⟩ : ∃ t', (ties.filter fun t' =>
      t'.decision.id == t.decision.id && t'.start == t.start).head? = some t' := by
    rw [← Option.isSome_iff_exists, List.isSome_head?]
    exact List.ne_nil_of_mem hown
  have hmem := List.mem_of_mem_filter (List.mem_of_mem_head? hhead)
  rw [hhead]
  exact (h.tables.ruleAt_yields (h.tables.decision_numbers (hties t' hmem))).bind
    fun _ _ => .ok trivial

theorem execution_yields : Yields x.execution fun _ => True := by
  refine (rulesVisited_yields h).bind fun rules _ => (decisionVisits_yields h).bind
    fun found hfound => (lookaheads_yields h fun d hd => (hfound d hd).2).bind fun sets _ =>
      (Yields.mapM fun d hd => tie?_yields h (hfound d hd).1).bind fun ties hties =>
        Yields.bind (events_yields h fun t ht => ?_) fun events _ => .ok trivial
  obtain ⟨o, ho, hsome⟩ := List.mem_filterMap.1 ht
  obtain ⟨d, hd, hdecision⟩ := hties o ho
  rw [hdecision t hsome]
  exact (hfound d hd).2

end Traces

namespace ParseTables

/-- The tables are those of a sound grammar. -/
structure Sound (p : ParseTables) : Prop where
  grammar : p.index.grammar = p.grammar
  index : p.index.Sound
  decisionAt : ∀ {s : Int} {d : Decision}, p.decisionAt[s]? = some d → d ∈ p.grammar.decisions

theorem mem_of_decisionAt {l : List Decision} {s : Int} {d : Decision}
    (h : (l.foldl (fun m d => m.insert d.state d) (∅ : Std.HashMap Int Decision))[s]? = some d) :
    d ∈ l := by
  induction l using List.reverseRecOn with
  | nil => simp at h
  | append_singleton l e ih =>
    rw [List.foldl_append, List.foldl_cons, List.foldl_nil, Std.HashMap.getElem?_insert] at h
    split at h
    · cases h
      exact List.mem_append_right _ (List.mem_singleton_self _)
    · exact List.mem_append_left _ (ih h)

theorem sound_of_ok {g : Grammar} (hg : g.Sound) {p : ParseTables} (hp : ofGrammar g = .ok p) :
    p.Sound ∧ p.grammar = g := by
  obtain ⟨rfl, hindex, hat⟩ := ofGrammar_ok hp
  obtain ⟨hgrammar, hsound⟩ := (ChartIndex.ofGrammar_yields hg).of_eq hindex
  refine ⟨⟨hgrammar, hsound, fun {s d} hd => ?_⟩, rfl⟩
  rw [hat] at hd
  exact mem_of_decisionAt hd

/-- A sound grammar has tables, however its tokens are cut out of text. -/
theorem ofGrammar_yields {g : Grammar} (hg : g.Sound) :
    Yields (ofGrammar g) fun p => p.Sound ∧ p.grammar = g := by
  obtain ⟨ix, hix, -⟩ := ChartIndex.ofGrammar_yields hg
  have hp : ofGrammar g = .ok ⟨g, ix, g.decisions.foldl (fun m d => m.insert d.state d) ∅⟩ :=
    bind_eq_ok.2 ⟨ix, hix, rfl⟩
  exact ⟨_, hp, sound_of_ok hg hp⟩

/-- A parse that is never told to stop comes to its end. -/
theorem parse_result {p : ParseTables} (hp : p.Sound) {i : Int} (hi : p.grammar.Numbers i)
    (tokens : TokenStream) : ∃ x, (p.parse i tokens).run none = .ok (x, none) := by
  have hg : p.grammar.Sound := hp.grammar ▸ hp.index.grammar
  obtain ⟨r, hr, -⟩ := hg.ruleAt_yields hi
  obtain ⟨c, hc, hsound, hindex, hstart⟩ :=
    Chart.recognize_yields hp.index (hp.grammar.symm ▸ hi) tokens.types
  obtain ⟨u, hu, hback⟩ := Chart.useful_yields hsound
  have huseful := hback.within
  obtain ⟨m, hm, -⟩ := Chart.groups_yields hsound huseful
  obtain ⟨n, hn, -⟩ := Chart.counts_yields hsound huseful (some m)
  obtain ⟨t, ht, hties, hchart, huseful'⟩ := Ties.notes_of_chart hsound huseful m n
    (if c.isAccepted then none else some c.furthest)
  have htraces : (p.traces tokens u t).Sound := by
    refine ⟨?_, hties, fun v hv => ?_, hp.decisionAt⟩
    · change t.chart.index.grammar = p.grammar
      rw [hchart, hindex, hp.grammar]
    · have hv := (List.mergeSort_perm _ _).mem_iff.1 hv
      exact huseful'.symm ▸ hv
  obtain ⟨x, hx, -⟩ := Traces.execution_yields htraces
  exact ⟨x, run_of_parsed ⟨⟨hc, hu, hm, hn, ht⟩, hx⟩ hr⟩

end ParseTables

end RuleNetwork
