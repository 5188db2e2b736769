import RuleNetwork.Proofs.Chart.Choices
import RuleNetwork.Proofs.Grammar.Declarations
import RuleNetwork.Proofs.Lookahead.Report
import RuleNetwork.Proofs.Validation.Sufficiency

/-!
The conflicts of a decision. A token predicts more than one alternative if it is in the sets of two that
meet no guard. This is a matter of the sets alone: neither their order counts, nor how many of the
alternatives are dynamic.

A report on lookahead gives two views of them. The entry of a rule lists the conflicts among the
decisions that a walk from the start of the rule comes to; the entries of the decisions are those of all
decisions that the rule has. A walk that meets a dead end does not come to the decisions behind it.
-/

set_option autoImplicit false

namespace RuleNetwork

open Network

/-- Whatever a decision of a grammar without errors is, its conflicting tokens are found, in order and
once each. They are those that two static alternatives have in common. -/
theorem conflictingTokens_of_validated {g : Grammar} {v : Validation} (hv : g.validation = .ok v)
    (hclean : v.fatal = []) {asked : List String} (hasked : ∀ name ∈ asked, g.hasRule name = true)
    (firstOnly : Bool) :
    ∃ a, Lookahead.ofGrammar g asked firstOnly = .ok a ∧ ∀ d ∈ g.decisions,
      a.decision d.id = .ok d ∧ ∃ sets c flag, a.lookaheads d = .ok sets ∧
        a.conflictingTokens d = .ok c ∧ a.hasConflict d = .ok flag ∧
        c.dynamic = false ∧ c.epsilon = false ∧
        c.tokens.Pairwise (· < ·) ∧ endOfInput ∉ c.tokens ∧
        (∀ x, c.contains x = true ↔ LookaheadSet.InTwo sets x) ∧
        (flag = true ↔ ∃ (i j : Nat) (s t : LookaheadSet), i ≠ j ∧ sets[i]? = some s ∧
          sets[j]? = some t ∧ s.overlaps t = true) ∧
        ∀ l : List LookaheadSet, (l.filter fun s => !s.dynamic).Perm (sets.filter fun s => !s.dynamic) →
          LookaheadSet.shared l {} = c := by
  have hg := Grammar.sound_of_clean ((Validation.fatal_eq_nil_iff hv).1 hclean)
  obtain ⟨a, ha, hrows⟩ := Lookahead.ofGrammar_yields hg hasked firstOnly
  refine ⟨a, ha, fun d hd => ⟨Lookahead.decision_ok (hrows.grammar ▸ hd), ?_⟩⟩
  obtain ⟨sets, hsets, -⟩ := hrows.lookaheads_yields hg hd
  have hnormal : ∀ s ∈ sets, s.dynamic = false → s.Normal :=
    fun s hs _ => Lookahead.normal_of_lookaheads hsets s hs
  have hbare := LookaheadSet.bare_shared sets LookaheadSet.bare_empty
  have hshared : a.conflictingTokens d = .ok (LookaheadSet.shared sets {}) :=
    bind_eq_ok.2 ⟨sets, hsets, rfl⟩
  refine ⟨sets, _, _, hsets, hshared, bind_eq_ok.2 ⟨_, hshared, rfl⟩, hbare.static, hbare.solid,
    hbare.sorted, hbare.apart, fun x => LookaheadSet.contains_shared_iff hnormal, ?_,
    fun l hl => LookaheadSet.shared_eq_of_perm hnormal hl⟩
  rw [decide_eq_true_eq]
  exact LookaheadSet.size_shared_iff hnormal

/-- Without guards an alternative that reads nothing at first holds what is read behind it. -/
theorem Lookahead.Exact.contains_of_free {a : Lookahead} {g : Grammar} {entries : List Int}
    (h : a.Exact g entries) (hg : g.Proper)
    (hunguarded : (g.network.arcs.all fun a => a.transition.kind != .predicate) = true) {d : Decision}
    (hd : d ∈ g.decisions) {sets : List LookaheadSet} (hsets : a.lookaheads d = .ok sets) {k : Nat}
    {id : Int} {t : Transition} {x : String} (hof : g.network.Offers d.state (k + 1) id)
    (ht : g.network.Leaves d.state id t) (hfree : t.isFree = true) (hx : g.network.Begins t.next x) :
    ∃ set, sets[k]? = some set ∧ set.dynamic = false ∧ set.contains x = true := by
  obtain ⟨sets', hsets', i, -, -, -, hspec⟩ := h.lookaheads_ok hg hd
  obtain rfl := Except.ok.inj (hsets.symm.trans hsets')
  obtain ⟨set, hget, hdynamic, hahead⟩ := hspec k id t hof ht
  have hno : ∀ {s id : Int} {u : Transition}, g.network.Leaves s id u → u.kind ≠ .predicate :=
    fun hu => by simpa using List.all_eq_true.1 hunguarded ⟨_, _, _⟩ (hg.network.mem_arcs.2 hu)
  have hstatic : ¬ set.dynamic = true := by
    rw [hdynamic]
    rintro (hkind | ⟨-, s, id, u, -, hu, hkind⟩)
    · exact hno ht hkind
    · exact hno hu hkind
  exact ⟨set, hget, by simpa using hstatic, ((hahead.resolve_left hstatic) x).2 (.onward (.inl hfree) hx)⟩

/-- A choice between a token and the same token. -/
def Builder.same : Builder where
  name := "same"
  entryRules := ["s"]
  rules := [{ name := "s", kind := .parser, body := some (.choice [.token ["'a'"], .token ["'a'"]]) }]

/-- The choice at work: its alternatives, what is read behind each of them, and no guard anywhere. -/
theorem Builder.same_computed : (networkOf same.bodies).decisions = [⟨0, 0, 2, 2⟩] ∧
    (networkOf same.bodies).states[2]?.map State.transitions = some [1, 4] ∧
    (∃ a ∈ (networkOf same.bodies).arcs, a.source = 2 ∧ a.id = 1 ∧ a.transition.isFree = true ∧
      a.transition.next = 4) ∧
    (∃ a ∈ (networkOf same.bodies).arcs, a.source = 2 ∧ a.id = 4 ∧ a.transition.isFree = true ∧
      a.transition.next = 6) ∧
    (networkOf same.bodies).run ["'a'"] ⟨4, 0, 0, []⟩ [.along 0] = some ⟨5, 0, 1, []⟩ ∧
    (networkOf same.bodies).run ["'a'"] ⟨6, 0, 0, []⟩ [.along 3] = some ⟨7, 0, 1, []⟩ ∧
    ((networkOf same.bodies).arcs.all fun a => a.transition.kind != .predicate) = true := by
  decide +kernel

/-- The token is the conflict of the choice. -/
theorem same_conflicting : ∃ g b' v a c, Builder.build.run.run Builder.same = (.ok g, b') ∧
    g.validation = .ok v ∧ v.fatal = [] ∧ Lookahead.ofGrammar g ["s"] false = .ok a ∧
    a.conflictingTokens ⟨0, 0, 2, 2⟩ = .ok c ∧ c.dynamic = false ∧ c.contains "'a'" = true ∧
    a.hasConflict ⟨0, 0, 2, 2⟩ = .ok true := by
  obtain ⟨g, b', hb⟩ : ∃ g b', Builder.build.run.run Builder.same = (.ok g, b') := ⟨_, _, rfl⟩
  obtain ⟨v, hv, hclean⟩ := Grammar.exists_validation (g := g) (by cases hb; decide)
    (by cases hb; decide +kernel)
  have hasked : ∀ name ∈ ["s"], g.hasRule name = true := fun name hn => by
    rw [Builder.hasRule_of_build hb, List.mem_singleton.1 hn]
    decide
  obtain ⟨hdecisions, hout, hone, htwo, hread, hread', hunguarded⟩ := Builder.same_computed
  rw [← (Builder.build_ok hb).2.1] at hdecisions hout hone htwo hread hread' hunguarded
  have hd : (⟨0, 0, 2, 2⟩ : Decision) ∈ g.decisions :=
    List.mem_of_mem_head? (congrArg List.head? hdecisions)
  obtain ⟨a, ha, hfound⟩ := conflictingTokens_of_validated hv hclean hasked false
  obtain ⟨-, sets, c, flag, hsets, hc, hflag, hstatic, -, -, -, hcontains, hoverlap, -⟩ := hfound _ hd
  -- what the sets hold is known from the runs of the grammar
  have hg := Builder.proper_of_build hb
  obtain ⟨entries, hentries⟩ := hg.entries_ok (fun name hn =>
    (Builder.hasRule_of_build hb name).trans ((Builder.build_ok hb).2.2.1 name hn)) hasked
  obtain ⟨a', ha', hexact⟩ := hg.lookahead_ok hentries false
  obtain rfl := Except.ok.inj (ha.symm.trans ha')
  obtain ⟨st, hst, hout⟩ := Option.map_eq_some_iff.1 hout
  have hst := state_eq_ok_iff.2 ⟨(by decide : (0 : Int) ≤ 2), hst⟩
  have hset : ∀ {k : Nat} {id next x : Int} {m : Move}, st.transitions[k]? = some id →
      (∃ a ∈ g.network.arcs, a.source = 2 ∧ a.id = id ∧ a.transition.isFree = true ∧
        a.transition.next = next) →
      g.network.run ["'a'"] ⟨next, 0, 0, []⟩ [m] = some ⟨x, 0, 1, []⟩ →
      ∃ set, sets[k]? = some set ∧ set.dynamic = false ∧ set.contains "'a'" = true := by
    rintro k id next x m hk ⟨arc, harc, hsource, rfl, hfree, rfl⟩ hrun
    exact hexact.contains_of_free hg hunguarded hd hsets ⟨st, hst, k, hk, rfl⟩
      (hsource ▸ hg.network.mem_arcs.1 harc) hfree ⟨[], _, _, hrun, Nat.zero_lt_one⟩
  obtain ⟨set, hget, hset₁⟩ := hset (k := 0) (by rw [hout]; rfl) hone hread
  obtain ⟨set', hget', hset₂⟩ := hset (k := 1) (by rw [hout]; rfl) htwo hread'
  have hcommon : set.Common set' "'a'" := ⟨hset₁.1, hset₂.1, hset₁.2, hset₂.2⟩
  have hnormal := Lookahead.normal_of_lookaheads hsets
  refine ⟨g, b', v, a, c, hb, hv, hclean, ha, hc, hstatic,
    (hcontains _).2 ⟨0, 1, set, set', by decide, hget, hget', hcommon⟩, ?_⟩
  rw [hflag, hoverlap.2 ⟨0, 1, set, set', by decide, hget, hget', (LookaheadSet.overlaps_iff
    (fun _ => hnormal set (List.mem_of_getElem? hget))
    fun _ => hnormal set' (List.mem_of_getElem? hget')).2 ⟨_, hcommon⟩⟩]

namespace Lookahead.Rows

variable {a : Lookahead} {g : Grammar} (h : a.Rows g) (hg : g.Sound)
include h hg

/-- The decisions of a rule that count are its own where a walk comes by. -/
theorem mem_ruleDecisions_iff {r : Rule} (hr : r ∈ g.ruleList) :
    Yields (a.ruleDecisions r) fun l => ∀ d, d ∈ l ↔
      d ∈ g.decisions ∧ d.rule = r.index ∧ g.network.WalksTo r.start d.state := by
  unfold ruleDecisions
  rw [h.grammar]
  refine (hg.mem_walk_iff hr).bind fun states hstates => .ok fun d => ?_
  have hown : ∀ d, d ∈ (g.decisions.filter fun d => d.rule == r.index).reverse ↔
      d ∈ g.decisions ∧ d.rule = r.index := fun d => by
    rw [List.mem_reverse, List.mem_filter, beq_iff_eq]
  rw [List.mem_filterMap, ← and_assoc, ← hown]
  constructor
  · rintro ⟨s, hs, hfind⟩
    have hstate : d.state = s := by simpa using List.find?_some hfind
    exact ⟨List.mem_of_find?_eq_some hfind, (hstates _).1 (hstate ▸ hs)⟩
  · rintro ⟨hd, hwalk⟩
    refine ⟨d.state, (hstates _).2 hwalk, ?_⟩
    cases hfind : (g.decisions.filter fun d => d.rule == r.index).reverse.find?
        fun x => x.state == d.state with
    | none => simpa using List.find?_eq_none.1 hfind d hd
    | some d' =>
      have hstate : d'.state = d.state := by simpa using List.find?_some hfind
      have hd' := ((hown _).1 (List.mem_of_find?_eq_some hfind)).1
      rw [decision_unique (fun hs => (hg.state hs).id) hd' ((hown _).1 hd).1 hstate]

theorem mem_ruleConflicts_iff (hnames : (g.ruleList.map Rule.name).Nodup) (hall : a.firstOnly = false)
    {r : Rule} (hr : r ∈ g.ruleList) :
    Yields (a.ruleConflicts r.name) fun l => ∀ n, n ∈ l ↔ ∃ d ∈ g.decisions, d.id = n ∧
      d.rule = r.index ∧ a.hasConflict d = .ok true ∧ g.network.WalksTo r.start d.state := by
  unfold ruleConflicts
  rw [h.grammar, hall]
  refine exists_bind (hg.rule_name hnames hr) ((h.mem_ruleDecisions_iff hg hr).bind fun ds hds => ?_)
  have hflag : ∀ d ∈ ds, ∃ flag, a.hasConflict d = .ok flag ∧
      (flag = true ↔ a.hasConflict d = .ok true) := fun d hd => by
    obtain ⟨flag, hflag, -⟩ := h.hasConflict_yields hg ((hds d).1 hd).1
    exact ⟨flag, hflag, by rw [hflag, Except.ok.injEq]⟩
  obtain ⟨l, hl, hmem⟩ := exists_filterM hflag
  refine exists_bind hl ⟨_, rfl, fun n => ?_⟩
  rw [List.mem_map]
  constructor
  · rintro ⟨d, hd, rfl⟩
    obtain ⟨hd, hconflict⟩ := (hmem d).1 hd
    obtain ⟨hd, hrule, hwalk⟩ := (hds d).1 hd
    exact ⟨d, hd, rfl, hrule, hconflict, hwalk⟩
  · rintro ⟨d, hd, rfl, hrule, hconflict, hwalk⟩
    exact ⟨d, (hmem d).2 ⟨(hds d).2 ⟨hd, hrule, hwalk⟩, hconflict⟩, rfl⟩

theorem mem_ruleEntry_iff (hnames : (g.ruleList.map Rule.name).Nodup) (hall : a.firstOnly = false)
    {r : Rule} (hr : r ∈ g.ruleList) :
    Yields (a.ruleEntry r) fun e => e.name = r.name ∧ ∀ n, n ∈ e.conflicts ↔
      ∃ d ∈ g.decisions, d.id = n ∧ d.rule = r.index ∧ a.hasConflict d = .ok true ∧
        g.network.WalksTo r.start d.state := by
  obtain ⟨e, he, -⟩ := h.ruleEntry_yields hg hr
  refine ⟨e, he, ?_⟩
  obtain ⟨conflicts, hconflicts, he⟩ := bind_eq_ok.1 he
  obtain ⟨first, -, he⟩ := bind_eq_ok.1 he
  obtain ⟨follow, -, he⟩ := bind_eq_ok.1 he
  cases he
  exact ⟨rfl, (h.mem_ruleConflicts_iff hg hnames hall hr).of_eq hconflicts⟩

/-- The entry of a decision is ambiguous if the decision has a conflict. -/
theorem decisionEntry_spec {d : Decision} {x : DecisionLookahead} (hx : a.decisionEntry d = .ok x) :
    x.decision = d ∧ (x.isAmbiguous = true ↔ a.hasConflict d = .ok true) ∧
      ∃ r ∈ g.ruleList, r.index = d.rule ∧ x.ruleName = r.name := by
  unfold decisionEntry at hx
  obtain ⟨sets, hsets, hx⟩ := bind_eq_ok.1 hx
  obtain ⟨r, hr, hx⟩ := bind_eq_ok.1 hx
  rw [h.grammar] at hr
  cases hx
  refine ⟨rfl, ?_, r, (hg.mem_of_ruleAt hr).1, (hg.mem_of_ruleAt hr).2, rfl⟩
  have hconflict : a.hasConflict d = .ok (decide (0 < (LookaheadSet.shared sets {}).size)) :=
    bind_eq_ok.2 ⟨_, bind_eq_ok.2 ⟨sets, hsets, rfl⟩, rfl⟩
  rw [hconflict, Except.ok.injEq]
  rfl

/-- Without a rule asked for, the decisions of the parser rules are selected. -/
theorem isSelected_iff (d : Decision) :
    a.isSelected none g.parserRules d = .ok true ↔ ∃ r ∈ g.parserRules, r.index = d.rule := by
  unfold isSelected
  rw [h.grammar]
  have hcontains : (g.parserRules.map Rule.index).contains d.rule = true ↔
      ∃ r ∈ g.parserRules, r.index = d.rule := by
    rw [List.contains_iff_mem, List.mem_map]
  rw [← hcontains]
  cases hrule : (g.parserRules.map Rule.index).contains d.rule with
  | false =>
    simp only [Bool.not_false, if_true, Bool.false_eq_true, iff_false]
    exact fun heq => by cases heq
  | true =>
    obtain ⟨r, hr, hindex⟩ := hcontains.1 hrule
    obtain ⟨hmem, hk⟩ := List.mem_filter.1 hr
    have hat := hg.ruleAt_index hmem
    rw [hindex] at hat
    refine ⟨fun _ => rfl, fun _ => ?_⟩
    change (do return (← g.ruleAt d.rule).kind == .parser : Except Fault Bool) = _
    rw [hat]
    exact congrArg Except.ok hk

end Lookahead.Rows

theorem Lookahead.firstOnly_of_ok {g : Grammar} {asked : List String} {firstOnly : Bool} {a : Lookahead}
    (h : ofGrammar g asked firstOnly = .ok a) : a.firstOnly = firstOnly := by
  obtain ⟨entries, -, h⟩ := bind_eq_ok.1 h
  obtain ⟨nullable, -, h⟩ := bind_eq_ok.1 h
  obtain ⟨first, -, h⟩ := bind_eq_ok.1 h
  obtain ⟨follow, -, h⟩ := bind_eq_ok.1 h
  cases h
  rfl

/-- An ambiguous decision of the rule that a walk from its start comes to. -/
def DecisionLookahead.ConflictOf (x : DecisionLookahead) (g : Grammar) (r : Rule) : Prop :=
  x.ruleName = r.name ∧ x.isAmbiguous = true ∧ g.network.WalksTo r.start x.decision.state

theorem Lookahead.Rows.report_agrees {a : Lookahead} {g : Grammar} (h : a.Rows g) (hg : g.Sound)
    (hnames : (g.ruleList.map Rule.name).Nodup) (hall : a.firstOnly = false) :
    Yields (a.report none) fun report =>
      (∀ d, (∃ x ∈ report.decisions, x.decision = d) ↔
        d ∈ g.decisions ∧ ∃ r ∈ g.parserRules, r.index = d.rule) ∧
      List.Forall₂ (fun r e => e.name = r.name ∧
        ∀ n, n ∈ e.conflicts ↔ ∃ x ∈ report.decisions, x.decision.id = n ∧ x.ConflictOf g r)
        g.parserRules report.rules := by
  obtain ⟨report, hreport, -⟩ := h.report_yields hg fun name (hn : none = some name) => by cases hn
  refine ⟨report, hreport, ?_⟩
  unfold Lookahead.report at hreport
  obtain ⟨rules, hrules, hreport⟩ := bind_eq_ok.1 hreport
  obtain rfl := pure_eq_ok.1 hrules
  obtain ⟨entries, hentries, hreport⟩ := bind_eq_ok.1 hreport
  obtain ⟨decisions, hdecisions, hreport⟩ := bind_eq_ok.1 hreport
  cases hreport
  rw [h.grammar] at hentries hdecisions
  have hmem := fun x => mem_filterMap_of_mapM (b := x) hdecisions
  have hrules : ∀ r ∈ g.parserRules, r ∈ g.ruleList := fun r hr => List.mem_of_mem_filter hr
  refine ⟨fun d => ⟨?_, ?_⟩, ?_⟩
  · rintro ⟨x, hx, rfl⟩
    obtain ⟨d, hd, hselected, hx⟩ := (hmem x).1 hx
    obtain ⟨rfl, -⟩ := h.decisionEntry_spec hg hx
    exact ⟨hd, (h.isSelected_iff hg _).1 hselected⟩
  · rintro ⟨hd, hparser⟩
    obtain ⟨x, hx, -⟩ := h.decisionEntry_yields hg hd
    exact ⟨x, (hmem x).2 ⟨d, hd, (h.isSelected_iff hg _).2 hparser, hx⟩,
      (h.decisionEntry_spec hg hx).1⟩
  refine ((List.forall₂_and_left _ _).2 ⟨fun r hr => hr, mapM_eq_ok.1 hentries⟩).imp fun r e he => ?_
  obtain ⟨hr, he⟩ := he
  obtain ⟨hname, hconflicts⟩ := (h.mem_ruleEntry_iff hg hnames hall (hrules r hr)).of_eq he
  refine ⟨hname, fun n => (hconflicts n).trans ?_⟩
  constructor
  · rintro ⟨d, hd, rfl, hrule, hconflict, hwalk⟩
    obtain ⟨x, hx, -⟩ := h.decisionEntry_yields hg hd
    obtain ⟨rfl, hambiguous, r', hr', hindex, hname'⟩ := h.decisionEntry_spec hg hx
    have heq : r' = r := by
      have hat := hg.ruleAt_index hr'
      rw [hindex, hrule, hg.ruleAt_index (hrules r hr)] at hat
      cases hat
      rfl
    exact ⟨x, (hmem x).2 ⟨_, hd, (h.isSelected_iff hg _).2 ⟨r, hr, hrule.symm⟩, hx⟩, rfl,
      heq ▸ hname', hambiguous.2 hconflict, hwalk⟩
  · rintro ⟨x, hx, rfl, hname', hambiguous, hwalk⟩
    obtain ⟨d, hd, -, hx⟩ := (hmem x).1 hx
    obtain ⟨rfl, hconflict, r', hr', hindex, hname''⟩ := h.decisionEntry_spec hg hx
    obtain rfl := List.inj_on_of_nodup_map hnames hr' (hrules r hr) (hname''.symm.trans hname')
    exact ⟨_, hd, rfl, hindex.symm, hconflict.1 hambiguous, hwalk⟩

open Classical in
/-- The two views of a report on a grammar without errors. All decisions of the parser rules have their
entries. The entry of a parser rule lists the ambiguous decisions of the rule that a walk from its start
comes to, and as many rules have conflicts as there are parser rules with such a decision. -/
theorem Grammar.conflicts_of_report {g : Grammar} {v : Validation} (hv : g.validation = .ok v)
    (hfatal : v.fatal = []) {asked : List String} (hasked : ∀ name ∈ asked, g.hasRule name = true) :
    ∃ report, g.lookahead none asked false = .ok report ∧
      (∀ d, (∃ x ∈ report.decisions, x.decision = d) ↔
        d ∈ g.decisions ∧ ∃ r ∈ g.parserRules, r.index = d.rule) ∧
      List.Forall₂ (fun r e => e.name = r.name ∧
        ∀ n, n ∈ e.conflicts ↔ ∃ x ∈ report.decisions, x.decision.id = n ∧ x.ConflictOf g r)
        g.parserRules report.rules ∧
      (report.rules.filter fun e => !e.conflicts.isEmpty).length =
        (g.parserRules.filter fun r => ∃ x ∈ report.decisions, x.ConflictOf g r).length := by
  have hclean := (Validation.fatal_eq_nil_iff hv).1 hfatal
  have hg := sound_of_clean hclean
  obtain ⟨a, ha, hrows⟩ := Lookahead.ofGrammar_yields hg hasked false
  obtain ⟨report, hreport, hlisted, hagree⟩ := hrows.report_agrees hg (nodup_names_of_clean hclean)
    (Lookahead.firstOnly_of_ok ha)
  refine ⟨report, bind_eq_ok.2 ⟨a, ha, hreport⟩, hlisted, hagree, ?_⟩
  refine (List.Forall₂.length_eq (List.rel_filter (fun r e he => ?_) hagree)).symm
  simp only [decide_eq_true_eq, Bool.not_eq_true', List.isEmpty_eq_false_iff_exists_mem]
  constructor
  · rintro ⟨x, hx, hconflict⟩
    exact ⟨_, (he.2 _).2 ⟨x, hx, rfl, hconflict⟩⟩
  · rintro ⟨n, hn⟩
    obtain ⟨x, hx, -, hconflict⟩ := (he.2 n).1 hn
    exact ⟨x, hx, hconflict⟩

/-- A choice between nothing, and behind it a choice between one token and itself. -/
def Builder.cut : Builder := afterAll { name := "cut", entryRules := [] }
  [.rule "s" (.sequence [.choice [], .choice [.token ["'a'"], .token ["'a'"]]]) none]

theorem Builder.cut_computed : (networkOf cut.bodies).decisions = [⟨0, 0, 4, 2⟩] ∧
    ((networkOf cut.bodies).arcs.all fun a =>
      !([0, 2] : List Int).contains a.source || ([0, 2] : List Int).contains a.transition.next) = true := by
  decide +kernel

/-- The walk ends in the choice between nothing, so the entry of the rule lists no conflict. -/
theorem cut_conflicts : ∃ g b' v report e, Builder.build.run.run Builder.cut = (.ok g, b') ∧
    g.validation = .ok v ∧ v.fatal = [] ∧ g.lookahead none [] false = .ok report ∧
    report.rules = [e] ∧ e.name = "s" ∧ e.conflicts = [] ∧
    ∃ x ∈ report.decisions, x.decision = ⟨0, 0, 4, 2⟩ := by
  obtain ⟨g, b', hb⟩ : ∃ g b', Builder.build.run.run Builder.cut = (.ok g, b') := ⟨_, _, rfl⟩
  obtain ⟨hrules, hnetwork, -⟩ := Builder.build_ok hb
  obtain ⟨v, hv, hnone⟩ := Grammar.exists_validation (g := g) (by cases hb; decide)
    (by cases hb; decide +kernel)
  obtain ⟨hdecisions, hstays⟩ := Builder.cut_computed
  rw [← hnetwork] at hdecisions hstays
  have hdecisions : g.decisions = [⟨0, 0, 4, 2⟩] := hdecisions
  obtain ⟨r, hparser, hname, hindex, hstart⟩ : ∃ r, g.parserRules = [r] ∧ r.name = "s" ∧ r.index = 0 ∧
      r.start = 0 := by
    unfold Grammar.parserRules Grammar.ruleList
    rw [hrules]
    exact ⟨_, rfl, rfl, rfl, rfl⟩
  obtain ⟨report, hreport, hlisted, hagree, -⟩ := Grammar.conflicts_of_report hv hnone
    fun name (hn : name ∈ []) => absurd hn List.not_mem_nil
  rw [hparser] at hlisted hagree
  rw [hdecisions] at hlisted
  obtain ⟨e, l, ⟨he, hconflicts⟩, hrest, hentries⟩ := List.forall₂_cons_left_iff.1 hagree
  obtain rfl := List.forall₂_nil_left_iff.1 hrest
  have hp := (Builder.proper_of_build hb).network
  have hwalk : ∀ s, g.network.WalksTo 0 s → s ∈ ([0, 2] : List Int) := fun s hs => by
    induction hs with
    | refl => exact List.mem_cons_self ..
    | tail _ hstep ih =>
      obtain ⟨id, t, ht, rfl⟩ := hp.step_steps_iff.1 hstep
      have hnext := List.all_eq_true.1 hstays ⟨_, id, t⟩ (hp.mem_arcs.2 ht)
      simpa [ih] using hnext
  refine ⟨g, b', v, report, e, hb, hv, hnone, hreport, hentries, he.trans hname, ?_, ?_⟩
  · refine List.eq_nil_iff_forall_not_mem.2 fun n hn => ?_
    obtain ⟨x, hx, -, -, -, hcome⟩ := (hconflicts n).1 hn
    have hd := List.mem_singleton.1 ((hlisted _).1 ⟨x, hx, rfl⟩).1
    rw [hstart, hd] at hcome
    exact absurd (hwalk _ hcome) (by decide)
  · exact (hlisted _).2 ⟨List.mem_singleton_self _, r, List.mem_singleton_self _, hindex⟩

end RuleNetwork
