import RuleNetwork.Proofs.Layout.Decisions
import RuleNetwork.Proofs.Parsing.Totality

/-!
Coverage is exact. The useful visits of an accepted input are those of its derivations, so the rules
visited are the rules that a derivation invokes, and an alternative is told of a rule just if some
derivation takes it at the rule's outermost decision.
-/

set_option autoImplicit false

namespace RuleNetwork

open Network

/-- Some derivation of the first `K` tokens takes the alternative of that number at the state. -/
def Network.Chooses (n : Network) (types : List String) (i K : Nat) (s : Int) (k : Nat) : Prop :=
  ∃ v id, v.state = s ∧ n.Offers s k id ∧ n.Takes types i K v id

/-- A derivation that invokes a rule takes one of its options. -/
theorem Network.Decides.exists_chooses {n : Network} {rules : Nat} (hp : n.Proper rules)
    {types : List String} {i K j : Nat} (hi : i < rules) {options : List (Element Nat)} {s : Int}
    (h : n.Decides j options s) (hj : n.Invokes types i K j) : ∃ k, n.Chooses types i K s k := by
  obtain ⟨o, hv⟩ := hj
  have hstop := hp.ends_stop hi
  obtain ⟨id, hid⟩ := Network.exists_takes hstop hv h.enters.not_ends
  obtain ⟨-, w, hw, hop⟩ := (hp.takes_iff hi).1 hid
  have hs : w.state = s := by
    cases hop with
    | read ht hr => rw [List.mem_singleton.1 ((h.enters.leaves_iff _).1 ⟨_, ht⟩)]; rfl
    | call hc =>
      have hcall := hc.2
      rw [List.mem_singleton.1 ((h.enters.leaves_iff _).1 ⟨_, hc.1⟩)] at hcall
      cases hcall
  obtain ⟨entries, z, hexits, -⟩ := h.leads
  obtain ⟨id', hid'⟩ := Network.exists_takes hstop hw (hs ▸ hexits.not_ends)
  obtain ⟨-, w', -, hop'⟩ := (hp.takes_iff hi).1 hid'
  obtain ⟨t, ht⟩ := hop'.leaves
  obtain ⟨k, hk⟩ := ht.offers
  exact ⟨k, w, id', hs, hs ▸ hk, hid'⟩

namespace ParseTables

variable {p : ParseTables} {n : Network} {rule s : Int}

/-- The decision with the lowest number is the outermost one of a rule with several alternatives. -/
theorem outerDecision?_eq_some
    (hat : ∀ s d, p.decisionAt[s]? = some d ↔ d ∈ n.decisions ∧ d.state = s)
    (hr : ∃ r ∈ p.grammar.ruleList, r.index = rule ∧ 2 ≤ r.alternatives)
    (hd : ∃ d ∈ n.decisions, d.state = s ∧ d.rule = rule)
    (hfirst : ∀ d ∈ n.decisions, d.rule = rule → s ≤ d.state) : p.outerDecision? rule = some s := by
  have hmem : ∀ s', s' ∈ (p.decisionAt.toList.filterMap fun e =>
      if e.2.rule = rule then some e.1 else none) ↔ ∃ d ∈ n.decisions, d.state = s' ∧ d.rule = rule := by
    intro s'
    rw [List.mem_filterMap]
    constructor
    · rintro ⟨⟨s₁, d⟩, hsd, hif⟩
      obtain ⟨hd, hs⟩ := (hat _ _).1 (Std.HashMap.mem_toList_iff_getElem?_eq_some.1 hsd)
      simp only [Option.ite_none_right_eq_some, Option.some.injEq] at hif
      exact ⟨d, hd, hs.trans hif.2, hif.1⟩
    · rintro ⟨d, hd, hs, hrule⟩
      exact ⟨(s', d), Std.HashMap.mem_toList_iff_getElem?_eq_some.2 ((hat _ _).2 ⟨hd, hs⟩),
        if_pos hrule⟩
  unfold outerDecision?
  rw [if_pos, List.min?_eq_some_iff]
  · refine ⟨(hmem s).2 hd, fun s' hs' => ?_⟩
    obtain ⟨d, hd', rfl, hrule⟩ := (hmem s').1 hs'
    exact hfirst d hd' hrule
  · obtain ⟨r, hr, rfl, hlen⟩ := hr
    exact List.any_eq_true.2 ⟨r, hr, by simpa using hlen⟩

theorem outerDecision?_eq_none (h : ∀ r ∈ p.grammar.ruleList, r.index = rule → r.alternatives < 2) :
    p.outerDecision? rule = none := by
  unfold outerDecision?
  refine if_neg fun hany => ?_
  obtain ⟨r, hr, hboth⟩ := List.any_eq_true.1 hany
  rw [Bool.and_eq_true, beq_iff_eq, decide_eq_true_eq] at hboth
  have := h r hr hboth.1
  omega

end ParseTables

namespace Traces

variable {x : Traces} {rules : List Int} {found : List DecisionVisit} {r : Int} {l : List Int}

/-- The visits of outermost decisions. -/
def outer (x : Traces) (found : List DecisionVisit) : List DecisionVisit :=
  found.filter fun d => x.tables.outerDecision? d.decision.rule == some d.visit.state

/-- The alternatives that are viable at the outermost decision of a rule. -/
def taken (x : Traces) (found : List DecisionVisit) (rule : Int) : List Int :=
  let own := ((x.outer found).filter fun d => d.decision.rule == rule).flatMap DecisionVisit.viable
  ((OrderedSet.ofList own).toList.mergeSort).map Int.ofNat

theorem alternatives_eq : x.alternatives rules found =
    (((OrderedSet.ofList ((x.outer found).map fun d : DecisionVisit => d.decision.rule)).toList.filterMap fun r =>
        if (x.taken found r).isEmpty then none else some (r, x.taken found r)) ++
      (rules.filter fun r => (x.tables.outerDecision? r).isNone).map fun r => (r, [1])).mergeSort
        fun a b => decide (a.1 ≤ b.1) := rfl

theorem mem_taken {a : Int} : a ∈ x.taken found r ↔ ∃ d ∈ found, d.decision.rule = r ∧
    x.tables.outerDecision? r = some d.visit.state ∧ ∃ k ∈ d.viable, a = Int.ofNat k := by
  simp only [taken, outer, List.mem_map, List.mem_mergeSort, OrderedSet.mem_toList_ofList,
    List.mem_flatMap, List.mem_filter, beq_iff_eq]
  constructor
  · rintro ⟨k, ⟨d, ⟨⟨hd, hs⟩, rfl⟩, hk⟩, rfl⟩
    exact ⟨d, hd, rfl, hs, k, hk, rfl⟩
  · rintro ⟨d, hd, rfl, hs, k, hk, rfl⟩
    exact ⟨k, ⟨d, ⟨⟨hd, hs⟩, rfl⟩, hk⟩, rfl⟩

theorem mem_alternatives : (r, l) ∈ x.alternatives rules found ↔
    (l = x.taken found r ∧ l ≠ []) ∨ (r ∈ rules ∧ x.tables.outerDecision? r = none ∧ l = [1]) := by
  rw [alternatives_eq, List.mem_mergeSort, List.mem_append, List.mem_filterMap, List.mem_map]
  refine or_congr ?_ ?_
  · constructor
    · rintro ⟨r', -, h⟩
      split at h <;> cases h
      rename_i hne
      exact ⟨rfl, fun hnil => hne (List.isEmpty_iff.2 hnil)⟩
    · rintro ⟨rfl, hne⟩
      obtain ⟨a, ha⟩ := List.exists_mem_of_ne_nil _ hne
      obtain ⟨d, hd, rfl, hs, -⟩ := mem_taken.1 ha
      refine ⟨d.decision.rule, (OrderedSet.mem_toList_ofList _ _).2 (List.mem_map.2
        ⟨d, List.mem_filter.2 ⟨hd, beq_iff_eq.2 hs⟩, rfl⟩), if_neg ?_⟩
      rwa [List.isEmpty_iff]
  · constructor
    · rintro ⟨r', hr', h⟩
      cases h
      obtain ⟨hr, hnone⟩ := List.mem_filter.1 hr'
      exact ⟨hr, Option.isNone_iff_eq_none.1 hnone, rfl⟩
    · rintro ⟨hr, hnone, rfl⟩
      exact ⟨r, List.mem_filter.2 ⟨hr, Option.isNone_iff_eq_none.2 hnone⟩, rfl⟩

/-- Every rule is told of once. -/
theorem keys_alternatives (hrules : rules.Nodup) :
    ((x.alternatives rules found).map Prod.fst).Pairwise (· < ·) := by
  obtain ⟨decided, hdecided⟩ : ∃ l, l = (OrderedSet.ofList
    ((x.outer found).map fun d : DecisionVisit => d.decision.rule)).toList := ⟨_, rfl⟩
  have hkeys : (decided.filterMap fun r =>
      if (x.taken found r).isEmpty then none else some (r, x.taken found r)).map Prod.fst =
      decided.filter fun r => !(x.taken found r).isEmpty := by
    rw [List.map_filterMap, ← List.filterMap_eq_filter]
    congr
    funext r
    cases h : (x.taken found r).isEmpty <;> simp [Option.guard, h]
  have hplain : ((rules.filter fun r => (x.tables.outerDecision? r).isNone).map
      fun r => (r, ([1] : List Int))).map Prod.fst =
      rules.filter fun r => (x.tables.outerDecision? r).isNone := by
    rw [List.map_map]
    exact List.map_id _
  rw [alternatives_eq, ← hdecided, List.pairwise_map]
  refine ((List.pairwise_mergeSort ?_ ?_ _).and (List.pairwise_map.1
    (((List.mergeSort_perm _ _).map Prod.fst).nodup_iff.2 ?_))).imp fun ⟨hle, hne⟩ => ?_
  · intro a b c
    simpa using Int.le_trans
  · intro a b
    simpa using Int.le_total a.1 b.1
  · rw [List.map_append, hkeys, hplain, List.nodup_append]
    refine ⟨(hdecided ▸ OrderedSet.nodup_toList _).filter _, hrules.filter _, ?_⟩
    rintro r hr _ hr' rfl
    have hmem := (List.mem_filter.1 hr).1
    rw [hdecided, OrderedSet.mem_toList_ofList] at hmem
    obtain ⟨d, hd, rfl⟩ := List.mem_map.1 hmem
    have hsome := beq_iff_eq.1 (List.mem_filter.1 hd).2
    simp [hsome] at hr'
  · exact lt_of_le_of_ne (of_decide_eq_true hle) hne

namespace Complete

variable {i K : Nat} {types : List String} (h : x.Complete i K types)
include h

/-- The rules visited are those invoked in some derivation. -/
theorem mem_rulesVisited (hrules : x.rulesVisited = .ok rules) {a : Int} :
    a ∈ rules ↔ ∃ j < x.ties.chart.index.grammar.rules.size, a = Int.ofNat j ∧
      x.ties.chart.network.Invokes types i K j := by
  have hp := h.ties.proper
  obtain ⟨rules', hrules', -, hmem⟩ := h.rulesVisited_ok
  rw [hrules] at hrules'
  obtain rfl := Except.ok.inj hrules'
  rw [hmem]
  constructor
  · rintro ⟨v, hv, hown⟩
    obtain ⟨st, hs, rfl⟩ := hown
    obtain ⟨j, hj, hr⟩ := (hp.state hs).rule
    exact ⟨j, hj, hr, (hp.invokes_iff h.ties.recognizes.rule hj).2
      ⟨v, (h.accepts.counted.useful v).1 hv, st, hs, hr⟩⟩
  · rintro ⟨j, hj, rfl, hinv⟩
    obtain ⟨v, hv, hown⟩ := (hp.invokes_iff h.ties.recognizes.rule hj).1 hinv
    exact ⟨v, (h.accepts.counted.useful v).2 hv, hown⟩

/-- The alternatives told of a rule with options are those that derivations take. -/
theorem mem_taken (hfound : x.decisionVisits = .ok found) {j : Nat}
    (hj : j < x.ties.chart.index.grammar.rules.size) {s : Int} {options : List (Element Nat)}
    (houter : x.tables.outerDecision? j = some s) (hdec : x.ties.chart.network.Decides j options s)
    (hlen : 2 ≤ options.length) {a : Int} :
    a ∈ x.taken found j ↔ ∃ k : Nat, a = Int.ofNat k ∧
      x.ties.chart.network.Chooses types i K s k := by
  have hp := h.ties.proper
  obtain ⟨found', hfound', hof, hcover⟩ := h.decisionVisits_ok
  rw [hfound] at hfound'
  obtain rfl := Except.ok.inj hfound'
  rw [Traces.mem_taken]
  constructor
  · rintro ⟨d, hd, -, hs, k, hk, rfl⟩
    rw [houter] at hs
    obtain rfl := Option.some.inj hs
    obtain ⟨hv, -, -, hviable⟩ := hof d hd
    obtain ⟨viable, hok, -, hmem⟩ := h.viable_ok hv
    rw [hviable] at hok
    obtain rfl := Except.ok.inj hok
    obtain ⟨id, ho, ht⟩ := (hmem k).1 hk
    exact ⟨k, rfl, d.visit, id, rfl, ho, ht⟩
  · rintro ⟨k, rfl, v, id, rfl, ho, ht⟩
    have hv := (h.accepts.counted.useful v).2 ((hp.takes_iff h.ties.recognizes.rule).1 ht).1
    obtain ⟨d, hd, hs, hrule⟩ := hdec.exists_decision hp hj hlen
    obtain ⟨e, he, rfl, rfl⟩ := hcover v hv d hd hs
    obtain ⟨-, -, -, hviable⟩ := hof e he
    obtain ⟨viable, hok, -, hmem⟩ := h.viable_ok hv
    rw [hviable] at hok
    obtain rfl := Except.ok.inj hok
    exact ⟨e, he, hrule, houter, k, (hmem k).2 ⟨id, ho, ht⟩, rfl⟩

/-- Alternatives are told of the rules visited and of no others. -/
theorem keys_eq (hrules : x.rulesVisited = .ok rules) (hfound : x.decisionVisits = .ok found)
    (hdec : ∀ j < x.ties.chart.index.grammar.rules.size, x.tables.outerDecision? j = none ∨
      ∃ s options, x.tables.outerDecision? j = some s ∧ x.ties.chart.network.Decides j options s ∧
        2 ≤ options.length) :
    (x.alternatives rules found).map Prod.fst = rules := by
  have hp := h.ties.proper
  obtain ⟨rules', hrules', hsorted, hmem⟩ := h.rulesVisited_ok
  rw [hrules] at hrules'
  obtain rfl := Except.ok.inj hrules'
  refine (keys_alternatives (hsorted.imp ne_of_lt)).eq_of_mem_iff hsorted fun a => ?_
  constructor
  · intro ha
    obtain ⟨⟨r, l⟩, hl, rfl⟩ := List.mem_map.1 ha
    obtain ⟨rfl, hne⟩ | ⟨hr, -⟩ := mem_alternatives.1 hl
    · obtain ⟨b, hb⟩ := List.exists_mem_of_ne_nil _ hne
      obtain ⟨d, hd, rfl, -⟩ := Traces.mem_taken.1 hb
      obtain ⟨found', hfound', hof, -⟩ := h.decisionVisits_ok
      rw [hfound] at hfound'
      obtain rfl := Except.ok.inj hfound'
      obtain ⟨hv, hdecision, hs, -⟩ := hof d hd
      obtain ⟨st, hst, -, hrule, -⟩ := hp.mem_decisions hdecision
      exact (hmem _).2 ⟨d.visit, hv, st, hs ▸ hst, hrule.symm⟩
    · exact hr
  · intro ha
    obtain ⟨j, hj, rfl, hinv⟩ := (h.mem_rulesVisited hrules).1 ha
    obtain hnone | ⟨s, options, hsome, hd, hlen⟩ := hdec j hj
    · exact List.mem_map.2 ⟨(j, [1]), mem_alternatives.2 (.inr ⟨ha, hnone, rfl⟩), rfl⟩
    · obtain ⟨k, hk⟩ := hd.exists_chooses hp h.ties.recognizes.rule hinv
      have htaken := (h.mem_taken hfound hj hsome hd hlen).2 ⟨k, rfl, hk⟩
      exact List.mem_map.2 ⟨(j, x.taken found j),
        mem_alternatives.2 (.inl ⟨rfl, List.ne_nil_of_mem htaken⟩), rfl⟩

end Complete

end Traces

/-- The outermost decisions of a built grammar are those of declared choices among options. -/
theorem Builder.outerDecision?_of_build {b b' : Builder} {g : Grammar}
    (hb : Builder.build.run.run b = (.ok g, b')) {p : ParseTables} (hp : p.grammar = g)
    (hat : ∀ s d, p.decisionAt[s]? = some d ↔ d ∈ g.network.decisions ∧ d.state = s) {j : Nat}
    {d : Declaration} (hd : b.rules[j]? = some d) :
    (∃ options s, d.body = some (.choice options) ∧ 2 ≤ options.length ∧
      p.outerDecision? j = some s ∧ g.network.Decides j (renameAll b.number options) s) ∨
    ((∀ options, d.body = some (.choice options) → options.length < 2) ∧
      p.outerDecision? j = none) := by
  have hg := proper_of_build hb
  have hrule := rule_of_declaration hb hd
  by_cases hmany : ∃ options, d.body = some (.choice options) ∧ 2 ≤ options.length
  · obtain ⟨options, hbody, hlen⟩ := hmany
    obtain ⟨s, hs, hlowest⟩ := decides_of_build hb hd hbody hlen
    have hfirst : ∀ e ∈ g.decisions, e.rule = j → s ≤ e.state := fun e he hr => by
      obtain ⟨st, hst, hkind, hrule⟩ := hg.network.kind_of_decision he
      exact hlowest hst hkind (hrule.trans hr)
    have hlen' : 2 ≤ (renameAll b.number options).length := by
      rwa [renameAll_eq_map, List.length_map]
    refine .inl ⟨options, s, hbody, hlen, ParseTables.outerDecision?_eq_some hat ⟨ruleOf j d, ?_, rfl,
      ?_⟩ (hs.exists_decision hg.network (Array.getElem?_eq_some_iff.1 hrule).1 hlen') hfirst, hs⟩
    · rw [hp]
      exact Array.mem_toList_iff.2 (Array.mem_of_getElem? hrule)
    · simp only [ruleOf, hbody, Option.elim, Element.alternatives, Int.ofNat_eq_natCast]
      omega
  · have hfew : ∀ options, d.body = some (.choice options) → options.length < 2 :=
      fun options hbody => Nat.lt_of_not_le fun hlen => hmany ⟨options, hbody, hlen⟩
    refine .inr ⟨hfew, ParseTables.outerDecision?_eq_none fun r hr hindex => ?_⟩
    rw [hp] at hr
    obtain ⟨k, hk, rfl⟩ := List.getElem_of_mem hr
    have hget : g.rules[k]? = some g.ruleList[k] := by
      rw [← Array.getElem?_toList]
      exact List.getElem?_eq_getElem hk
    obtain rfl : k = j := Int.ofNat.inj ((hg.rule hget).1.symm.trans hindex)
    rw [Option.some.inj (hget.symm.trans hrule)]
    simp only [ruleOf]
    cases hbody : d.body with
    | none => decide
    | some e =>
      cases e with
      | choice options =>
        have := hfew options hbody
        simp only [Option.elim, Element.alternatives, Int.ofNat_eq_natCast]
        omega
      | _ => simp [Element.alternatives]

/-- What a parse of an accepted input covers: the useful visits are those of its derivations, the rules
visited are those that a derivation invokes, alternatives are told of just these rules, and where a
rule has options those told are the options that some derivation takes. -/
theorem coverage_exact {b b' : Builder} {g : Grammar} (hb : Builder.build.run.run b = (.ok g, b'))
    {i : Nat} {r : Rule} (hr : g.rules[i]? = some r) (tokens : TokenStream) :
    ∃ p, ParseTables.ofGrammar g = .ok p ∧ ∃ x c u m n t, p.Parsed i tokens x c u m n t ∧
      (p.parse i tokens).run none = .ok (x, none) ∧
      (∀ granted y left, (p.parse i tokens).run granted = .ok (y, left) → y = x) ∧
      (x.outcome = .succeeded → ∃ K, c.accept? = some K ∧
        (∀ v, v ∈ u.toList ↔ g.network.Visits tokens.types i K v) ∧
        (∀ a, a ∈ x.visitedRules ↔ ∃ j < g.rules.size, a = Int.ofNat j ∧
          g.network.Invokes tokens.types i K j) ∧
        x.visitedAlternatives.map Prod.fst = x.visitedRules ∧
        ∀ (j : Nat) (d : Declaration) (l : List Int), b.rules[j]? = some d →
          (Int.ofNat j, l) ∈ x.visitedAlternatives →
            (∃ options s, d.body = some (.choice options) ∧ 2 ≤ options.length ∧
              g.network.Decides j (renameAll b.number options) s ∧
              ∀ a, a ∈ l ↔ ∃ k : Nat, a = Int.ofNat k ∧ g.network.Chooses tokens.types i K s k) ∨
            ((∀ options, d.body = some (.choice options) → options.length < 2) ∧ l = [1])) := by
  have hg := Builder.proper_of_build hb
  have hi := (Array.getElem?_eq_some_iff.1 hr).1
  obtain ⟨p, hp⟩ := ParseTables.exists_tables hg
  obtain ⟨x, c, u, m, n, t, hparsed, hrun, hunique⟩ := ParseTables.parse_ok hg hp hi tokens
  obtain ⟨hindex, hgrammar, -⟩ := hparsed.recognizes hg hp hi
  refine ⟨p, hp, x, c, u, m, n, t, hparsed, hrun, hunique, fun hx => ?_⟩
  obtain ⟨K, hK⟩ := Option.isSome_iff_exists.1 (hparsed.succeeded_iff.1 hx)
  have hcomplete := hparsed.complete hg hp hi hK
  obtain ⟨hrules, found, hfound, halternatives⟩ :=
    (Traces.tells_of_execution hparsed.execution).coverage
  have hnet := hparsed.network_eq hg hp hi
  have hsize : (p.traces tokens u t).ties.chart.index.grammar.rules.size = g.rules.size := by
    rw [hparsed.chart_eq, hindex, hgrammar]
  obtain ⟨hpg, -⟩ := ParseTables.ofGrammar_ok hp
  have hat := hnet ▸ hcomplete.decisionAt
  have hdec := fun {j : Nat} {d : Declaration} => Builder.outerDecision?_of_build hb hpg hat (j := j)
    (d := d)
  refine ⟨K, hK, fun v => ?_, fun a => ?_, ?_, fun j d l hd hl => ?_⟩
  · have := hcomplete.accepts.counted.useful v
    rwa [hnet, hparsed.useful_eq] at this
  · rw [hcomplete.mem_rulesVisited hrules, hnet, hsize]
  · rw [halternatives]
    refine hcomplete.keys_eq hrules hfound fun j hj => ?_
    obtain ⟨d, hd⟩ := Builder.exists_declaration hb (hsize ▸ hj)
    rw [hnet]
    obtain ⟨options, s, -, hlen, houter, hs⟩ | ⟨-, hnone⟩ := hdec hd
    · exact .inr ⟨s, _, houter, hs, by rwa [renameAll_eq_map, List.length_map]⟩
    · exact .inl hnone
  · rw [halternatives] at hl
    have hj : j < (p.traces tokens u t).ties.chart.index.grammar.rules.size := by
      rw [hsize]
      exact (Array.getElem?_eq_some_iff.1 (Builder.rule_of_declaration hb hd)).1
    obtain ⟨options, s, hbody, hlen, houter, hs⟩ | ⟨hfew, hnone⟩ := hdec hd
    · obtain ⟨rfl, -⟩ | ⟨-, hnone, -⟩ := Traces.mem_alternatives.1 hl
      · refine .inl ⟨options, s, hbody, hlen, hs, fun a => ?_⟩
        rw [← hnet] at hs ⊢
        exact hcomplete.mem_taken hfound hj houter hs
          (by rwa [renameAll_eq_map, List.length_map])
      · exact absurd (houter.symm.trans hnone) (by simp)
    · obtain ⟨rfl, hne⟩ | ⟨-, -, rfl⟩ := Traces.mem_alternatives.1 hl
      · obtain ⟨a, ha⟩ := List.exists_mem_of_ne_nil _ hne
        obtain ⟨_, _, _, hsome, _⟩ := Traces.mem_taken.1 ha
        exact absurd (hsome.symm.trans hnone) (by simp)
      · exact .inr ⟨hfew, rfl⟩

/-- Rows of one letter, by a rule with two options. -/
def Builder.letters : Builder where
  name := "letters"
  rules := [
    { name := "row", kind := .parser,
      body := some (.choice [.sequence [.call "letter", .call "row"], .call "letter"]) },
    { name := "letter", kind := .parser, body := some (.token ["'a'"]) }]

theorem Builder.letters_derives {g : Grammar} {b' : Builder}
    (h : build.run.run letters = (.ok g, b')) {r : Rule} (hr : g.rules[0]? = some r) :
    g.network.Derives r ["'a'", "'a'"] := by
  cases h
  cases hr
  refine ⟨?_, ?_⟩
  · exact [.along 8, .along 3, .along 0, .along 11, .along 10, .along 12, .back, .along 2, .along 1,
      .along 8, .along 6, .along 5, .along 11, .along 10, .along 12, .back, .along 7, .along 9, .back,
      .along 4, .along 9]
  · decide +kernel

/-- The options told of the rule of rows are those that derivations of two letters take. -/
theorem letters_coverage : ∃ g b' p x c u m n t, ∃ (K : Nat) (s : Int),
    Builder.build.run.run Builder.letters = (.ok g, b') ∧ ParseTables.ofGrammar g = .ok p ∧
      p.Parsed (0 : Nat) (.ofTypes ["'a'", "'a'"]) x c u m n t ∧ x.outcome = .succeeded ∧
      c.accept? = some K ∧ (∀ v, v ∈ u.toList ↔
        g.network.Visits (TokenStream.ofTypes ["'a'", "'a'"]).types 0 K v) ∧
      ∃ l, (0, l) ∈ x.visitedAlternatives ∧ ∀ a, a ∈ l ↔ ∃ k : Nat, a = Int.ofNat k ∧
        g.network.Chooses (TokenStream.ofTypes ["'a'", "'a'"]).types 0 K s k := by
  have hb : Builder.build.run.run Builder.letters = (.ok _, _) := rfl
  have hg := Builder.proper_of_build hb
  obtain ⟨p, hp, x, c, u, m, n, t, hparsed, -, -, hcovers⟩ :=
    coverage_exact hb (i := 0) rfl (.ofTypes ["'a'", "'a'"])
  have hsucceeded : x.outcome = .succeeded :=
    (hparsed.succeeded_iff_derives hg hp rfl (TokenStream.types_ofTypes _)).2
      (.inl (Builder.letters_derives hb rfl))
  obtain ⟨K, hK, huseful, hrules, hkeys, halternatives⟩ := hcovers hsucceeded
  obtain ⟨hindex, hgrammar, hrec⟩ := hparsed.recognizes hg hp (Nat.zero_lt_succ 1)
  obtain ⟨d, hd⟩ := hrec.exists_derivation hK
  rw [Chart.network, hindex, hgrammar] at hd
  have hinvoked : (0 : Int) ∈ x.visitedRules :=
    (hrules 0).2 ⟨0, Nat.zero_lt_succ 1, rfl, 0, [], ⟨[], rfl⟩, d, hd⟩
  rw [← hkeys] at hinvoked
  obtain ⟨⟨j, l⟩, hl, rfl⟩ := List.mem_map.1 hinvoked
  obtain ⟨options, s, -, -, -, hiff⟩ | ⟨hfew, -⟩ := halternatives 0 _ l rfl hl
  · exact ⟨_, _, p, x, c, u, m, n, t, K, s, hb, hp, hparsed, hsucceeded, hK, huseful, l, hl, hiff⟩
  · exact absurd (hfew _ rfl) (by decide)

end RuleNetwork
