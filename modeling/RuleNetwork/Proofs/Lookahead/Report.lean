import RuleNetwork.Lookahead.Report
import RuleNetwork.Proofs.Lookahead.Analysis
import RuleNetwork.Proofs.RuleGraph.Build

/-!
The report on lookahead of a sound grammar is made without fail. Every scan stays among the states of
the network, and the tables of FIRST and FOLLOW sets have a row for each rule.
-/

set_option autoImplicit false

namespace RuleNetwork

open Network

namespace Grammar.Sound

variable {g : Grammar} (hg : g.Sound)
include hg

theorem scanEdges_yields (stop : Int) {s : Int} (hs : g.network.Has s) :
    Yields (g.scanEdges stop s) fun l => ∀ e ∈ l, g.network.Has e.2 :=
  .ite (fun _ => .ok fun _ he => absurd he List.not_mem_nil)
    fun _ => (hg.edges_yields hs).mono fun _ hl e he => (hl e he).2

theorem scanSteps_yields (nullable : Int → Bool) (stop : Int) {s : Int} (hs : g.network.Has s) :
    Yields (g.scanSteps nullable stop s) fun l => ∀ b ∈ l, g.network.Has b := by
  refine (hg.scanEdges_yields stop hs).bind fun l hl => .ok fun b hb => ?_
  obtain ⟨e, he, rfl⟩ := List.mem_map.1 hb
  exact hl e (List.mem_of_mem_filter he)

theorem scan_yields (nullable : Int → Bool) {s : Int} (hs : g.network.Has s) :
    Yields (g.scan nullable s) fun _ => True := by
  obtain ⟨st, hst⟩ := hs
  refine exists_bind hst ((hg.ruleAt_yields (hg.numbers_owner hst)).bind fun r _ => ?_)
  refine Yields.bind (Search.exists_depthFirst (fun _ ha => hg.scanSteps_yields nullable r.stop ha)
    (fun _ => false) _ ⟨st, hst⟩) fun met hmet => ?_
  exact (Yields.mapM fun s hs => hg.scanEdges_yields r.stop (hmet s hs)).bind fun _ _ => .ok trivial

theorem callSites_yields :
    Yields g.callSites fun l => ∀ site ∈ l, g.Numbers site.callee ∧ g.network.Has site.follow := by
  refine (Yields.mapM_all (R := fun l => ∀ site ∈ l,
    g.Numbers site.callee ∧ g.network.Has site.follow) fun r hr => ?_).bind fun perRule hper =>
      .ok fun site hs => ?_
  · refine (hg.calls_yields ⟨r, hr, rfl⟩).bind fun calls hcalls => .ok fun site hs => ?_
    obtain ⟨t, ht, heq⟩ := List.mem_filterMap.1 hs
    obtain ⟨hk, hres⟩ := hcalls t ht
    obtain ⟨callee, follow, r', hcall, hr', -, hfollow⟩ := hres.call hk
    obtain ⟨-, hrule, hf⟩ := Transition.of_call? hcall
    rw [hrule, hf] at heq
    cases heq
    exact ⟨⟨r', hg.mem_of_ruleAt hr'⟩, hfollow⟩
  · obtain ⟨l, hl, hs⟩ := List.mem_flatten.1 hs
    exact hper l hl site hs

theorem firstTable_yields (nullable : Int → Bool) : Yields (g.firstTable nullable) fun _ => True :=
  (Yields.mapM (R := fun _ _ => True) fun r hr => (hg.scan_yields nullable (hg.start r hr)).bind
    fun _ _ => .ok trivial).bind fun _ _ => .ok trivial

theorem followTable_yields (nullable : Int → Bool) (first : TokenTable) (entries : List Int) :
    Yields (g.followTable nullable first entries) fun t =>
      ∀ i, g.Numbers i → (OrderedMap.get? t i).isSome := by
  unfold followTable
  obtain ⟨hgrows, -⟩ := entries_table (g := g) entries
  generalize entries.foldl (fun t e => t.add e [endOfInput]) g.emptyTable = start at hgrows ⊢
  have hrows : ∀ i, g.Numbers i → (OrderedMap.get? start i).isSome := by
    rintro i ⟨r, hr, rfl⟩
    have hsome := OrderedMap.isSome_get?_ofList (l := g.ruleList.map fun r => (r.index, ∅))
      (List.mem_map_of_mem (f := fun r => (r.index, (∅ : OrderedSet String))) hr)
    exact hgrows.keys hsome
  refine hg.callSites_yields.bind fun sites hsites =>
    (Yields.mapM fun site hs => hg.scan_yields nullable (hsites site hs).2).bind fun scans _ => ?_
  have hnone : sites.find? (fun site => (OrderedMap.get? start site.callee).isNone) = none :=
    List.find?_eq_none.2 fun site hs => by
      simpa using Option.isSome_iff_ne_none.1 (hrows _ (hsites site hs).1)
  simp only [hnone]
  exact .ok fun i hi => (TokenTable.grows_solve _ _).keys (hrows i hi)

end Grammar.Sound

namespace Lookahead

/-- An analysis of the grammar with a FOLLOW set for each rule. -/
structure Rows (a : Lookahead) (g : Grammar) : Prop where
  grammar : a.grammar = g
  follow : ∀ i, g.Numbers i → (OrderedMap.get? a.follow i).isSome

theorem ofGrammar_yields {g : Grammar} (hg : g.Sound) {asked : List String}
    (hasked : ∀ name ∈ asked, g.hasRule name = true) (firstOnly : Bool) :
    Yields (ofGrammar g asked firstOnly) (·.Rows g) :=
  (hg.entries_yields hasked).bind fun entries _ => hg.nullable_yields.bind fun _ _ =>
    (hg.firstTable_yields _).bind fun first _ => (hg.followTable_yields _ first entries).bind
      fun _ hfollow => .ok ⟨rfl, hfollow⟩

namespace Rows

variable {a : Lookahead} {g : Grammar} (h : a.Rows g) (hg : g.Sound)
include h hg

theorem alternativeScan_yields {d : Decision} {t : Transition} (ht : t.Resolves g) :
    Yields (a.alternativeScan d t) fun _ => True := by
  unfold alternativeScan
  refine .ite (fun _ => .ok trivial) fun _ => ?_
  have hland : ∀ s, landing t = some s → g.network.Has s := fun s hs => by
    unfold landing at hs
    split at hs
    · rename_i hk
      obtain ⟨callee, follow, r, hcall, -, -, hfollow⟩ := ht.call (by simpa using hk)
      rw [(Transition.of_call? hcall).2.2] at hs
      cases hs
      exact hfollow
    · cases hs
      exact ht.target
  cases hs : landing t with
  | none => exact .ok trivial
  | some s =>
    have hhas := hland s hs
    rw [h.grammar]
    exact (hg.state_yields hhas).bind fun st _ => .ite (fun _ => (hg.scan_yields _ hhas).bind
      fun _ _ => .ok trivial) fun _ => .ok trivial

theorem lookaheads_yields {d : Decision} (hd : d ∈ g.decisions) :
    Yields (a.lookaheads d) fun _ => True := by
  obtain ⟨follow, hfollow⟩ := Option.isSome_iff_exists.1 (h.follow _ (hg.decision_numbers hd))
  unfold lookaheads
  simp only [hfollow, h.grammar]
  refine (hg.outgoing_yields (hg.decision_has hd)).bind fun out hout => ?_
  refine (Yields.mapM (R := fun _ _ => True) fun t ht => ?_).mono fun _ _ => trivial
  exact (h.alternativeScan_yields hg (hout t ht)).bind fun _ _ => .ok trivial

theorem hasConflict_yields {d : Decision} (hd : d ∈ g.decisions) :
    Yields (a.hasConflict d) fun _ => True := by
  have hshared : Yields (a.conflictingTokens d) fun _ => True :=
    (h.lookaheads_yields hg hd).bind fun _ _ => .ok trivial
  exact hshared.bind fun _ _ => .ok trivial

theorem ruleDecisions_yields {r : Rule} (hr : r ∈ g.ruleList) :
    Yields (a.ruleDecisions r) fun l => ∀ d ∈ l, d ∈ g.decisions := by
  unfold ruleDecisions
  rw [h.grammar]
  refine (hg.walk_yields ⟨r, hr, rfl⟩).bind fun states _ => .ok fun d hd => ?_
  obtain ⟨s, -, hfind⟩ := List.mem_filterMap.1 hd
  have hmem := List.mem_of_find?_eq_some hfind
  exact List.mem_of_mem_filter (List.mem_reverse.1 hmem)

theorem ruleConflicts_yields {name : String} (hn : g.hasRule name = true) :
    Yields (a.ruleConflicts name) fun _ => True := by
  unfold ruleConflicts
  rw [h.grammar]
  refine (hg.rule_yields hn).bind fun r hr => (h.ruleDecisions_yields hg hr).bind fun ds hds => ?_
  have hcounted : ∀ d ∈ (if a.firstOnly then ds.take 1 else ds), d ∈ g.decisions := fun d hd => by
    split at hd
    · exact hds d (List.mem_of_mem_take hd)
    · exact hds d hd
  exact (Yields.filterM fun d hd => h.hasConflict_yields hg (hcounted d hd)).bind
    fun _ _ => .ok trivial

theorem ruleEntry_yields {r : Rule} (hr : r ∈ g.ruleList) : Yields (a.ruleEntry r) fun _ => True := by
  have hn := Grammar.hasRule_name hr
  have hfirst : Yields (a.firstOf r.name) fun _ => True := by
    unfold firstOf
    rw [h.grammar]
    exact (Grammar.ruleIndex_yields hn).bind fun _ _ => .ok trivial
  have hfollow : Yields (a.followOf r.name) fun _ => True := by
    unfold followOf
    rw [h.grammar]
    exact (Grammar.ruleIndex_yields hn).bind fun _ _ => .ok trivial
  exact (h.ruleConflicts_yields hg hn).bind fun _ _ => hfirst.bind fun _ _ =>
    hfollow.bind fun _ _ => .ok trivial

theorem decisionEntry_yields {d : Decision} (hd : d ∈ g.decisions) :
    Yields (a.decisionEntry d) fun _ => True := by
  unfold decisionEntry
  rw [h.grammar]
  exact (h.lookaheads_yields hg hd).bind fun _ _ =>
    (hg.ruleAt_yields (hg.decision_numbers hd)).bind fun _ _ => .ok trivial

theorem isSelected_yields (rule : Option String) (rules : List Rule) {d : Decision}
    (hd : d ∈ g.decisions) : Yields (a.isSelected rule rules d) fun _ => True := by
  unfold isSelected
  rw [h.grammar]
  exact .ite (fun _ => .ok trivial) fun _ => .ite (fun _ => .ok trivial) fun _ =>
    (hg.ruleAt_yields (hg.decision_numbers hd)).bind fun _ _ => .ok trivial

theorem report_yields {rule : Option String}
    (hrule : ∀ name, rule = some name → g.hasRule name = true) :
    Yields (a.report rule) fun _ => True := by
  have hrest : ∀ rules : List Rule, (∀ r ∈ rules, r ∈ g.ruleList) → Yields (do
      let entries ← rules.mapM a.ruleEntry
      let decisions ← a.grammar.decisions.mapM fun d => do
        if ← a.isSelected rule rules d then return some (← a.decisionEntry d)
        return none
      return (⟨entries, decisions.filterMap id, a.firstOnly⟩ : LookaheadReport)) fun _ => True := by
    intro rules hrules
    rw [h.grammar]
    refine (Yields.mapM fun r hr => h.ruleEntry_yields hg (hrules r hr)).bind fun entries _ =>
      (Yields.mapM (R := fun _ _ => True) fun d hd => ?_).bind fun _ _ => .ok trivial
    exact (h.isSelected_yields hg rule rules hd).bind fun _ _ =>
      .ite (fun _ => (h.decisionEntry_yields hg hd).bind fun _ _ => .ok trivial) fun _ => .ok trivial
  unfold report
  cases rule with
  | none =>
    rw [h.grammar] at hrest ⊢
    exact hrest _ fun r hr => List.mem_of_mem_filter hr
  | some name =>
    have hname : Yields (a.grammar.rule name) (· ∈ g.ruleList) := by
      rw [h.grammar]
      exact hg.rule_yields (hrule name rfl)
    refine hname.bind fun r hr => hrest [r] fun r' hr' => ?_
    rw [List.mem_singleton.1 hr']
    exact hr

end Rows

end Lookahead

theorem Grammar.Sound.lookahead_yields {g : Grammar} (hg : g.Sound) {rule : Option String}
    (hrule : ∀ name, rule = some name → g.hasRule name = true) {asked : List String}
    (hasked : ∀ name ∈ asked, g.hasRule name = true) (firstOnly : Bool) :
    Yields (g.lookahead rule asked firstOnly) fun _ => True :=
  (Lookahead.ofGrammar_yields hg hasked firstOnly).bind fun _ h => h.report_yields hg hrule

end RuleNetwork
