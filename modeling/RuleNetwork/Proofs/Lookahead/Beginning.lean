import RuleNetwork.Proofs.Lookahead.Analysis
import RuleNetwork.Proofs.Parsing.Totality

/-!
How a rule may begin. What the analysis says of it, what a chart holds of it after no token and after
one, and whether a parse gets past its first token all come down to the runs from the start of the rule.
-/

set_option autoImplicit false

namespace RuleNetwork

open Network

/-- The set holds what a rule may begin with. -/
structure LookaheadSet.IsFirst (set : LookaheadSet) (n : Network) (r : Rule) : Prop where
  epsilon : set.epsilon = true ↔ n.Derives r []
  contains : ∀ t, set.contains t = true ↔ n.Begins r.start t

namespace Grammar.Proper

variable {g : Grammar} (hg : g.Proper) {i : Nat} {r : Rule}
include hg

theorem null_iff_derives (hr : g.rules[i]? = some r) {k : Int} (hk : k = Int.ofNat i) :
    g.network.Null g.rules.size k ↔ g.network.Derives r [] := by
  obtain ⟨-, hstart, hstop⟩ := hg.rule hr
  unfold Null Derives IsDerivation
  rw [hstart, hstop]
  constructor
  · rintro ⟨j, -, hj, hskips⟩
    obtain rfl := Int.ofNat.inj (hk.symm.trans hj)
    exact hskips
  · exact fun h => ⟨i, (Array.getElem?_eq_some_iff.1 hr).1, hk, h⟩

/-- The rules found to match nothing are those with a run that consumes nothing. -/
theorem nullable_iff {nullable : OrderedSet Int}
    (hnull : ∀ r, nullable.contains r = true ↔ g.network.Null g.rules.size r) {k : Int} :
    nullable.contains k = true ↔ ∃ r ∈ g.ruleList, r.index = k ∧ g.network.Derives r [] := by
  rw [hnull]
  constructor
  · rintro ⟨i, hi, rfl, h⟩
    have hr := Array.getElem?_eq_getElem hi
    exact ⟨_, Array.mem_toList_iff.2 (Array.getElem_mem hi), (hg.rule hr).1,
      (hg.null_iff_derives hr rfl).1 ⟨i, hi, rfl, h⟩⟩
  · rintro ⟨r, hr, rfl, h⟩
    obtain ⟨i, -, hget, hindex, -⟩ := hg.exists_rule hr
    exact (hg.null_iff_derives hget hindex).2 h

end Grammar.Proper

theorem Lookahead.Exact.firstOf_ok {a : Lookahead} {g : Grammar} {entries : List Int}
    (h : a.Exact g entries) (hg : g.Proper) {i : Nat} {r : Rule} (hr : g.rules[i]? = some r)
    {name : String} (hname : g.ruleIndex name = .ok (Int.ofNat i)) :
    ∃ set, a.firstOf name = .ok set ∧ set.IsFirst g.network r := by
  obtain ⟨-, hstart, -⟩ := hg.rule hr
  refine ⟨_, bind_eq_ok.2 ⟨Int.ofNat i, by rw [h.grammar]; exact hname, rfl⟩, ?_, fun t => ?_⟩
  · exact (h.nullable _).trans (hg.null_iff_derives hr rfl)
  · rw [LookaheadSet.contains_of, hstart]
    simp only [Bool.false_eq_true, and_false, or_false]
    exact h.first.holds_iff (Array.getElem?_eq_some_iff.1 hr).1

namespace Chart.Recognizes

variable {c : Chart} {i : Nat} {r : Rule} {t : String} {rest types : List String}

theorem contains_stop_iff (h : c.Recognizes i types) (hr : c.index.grammar.rules[i]? = some r) :
    c.contains ⟨r.stop, 0, 0⟩ = true ↔ c.network.Derives r [] := by
  obtain ⟨-, -, hstop⟩ := h.index.grammar.rule hr
  have hiff := h.contains_goal hr (Nat.zero_le _)
  rwa [h.goal, ← hstop] at hiff

/-- A token is read first just if it fills the column after it. -/
theorem reaches_one_iff (h : c.Recognizes i (t :: rest)) (hr : c.index.grammar.rules[i]? = some r) :
    (∃ v, c.network.Reaches (t :: rest) (startState i) v ∧ v.position = 1) ↔
      c.network.Begins r.start t := by
  obtain ⟨-, hstart, -⟩ := h.index.grammar.rule hr
  rw [hstart]
  constructor
  · rintro ⟨v, ⟨ms, l, hms⟩, hone⟩
    exact begins_of_run hms (show 0 < v.position by omega) rfl
  · intro hbegins
    obtain ⟨ms, d, hms, hd⟩ := hbegins.run (show (t :: rest)[0]? = some t from rfl) 0
    exact ⟨⟨d.state, d.origin, d.position⟩, ⟨ms, d.callers, hms⟩, hd⟩

theorem column_one_iff (h : c.Recognizes i (t :: rest)) (hr : c.index.grammar.rules[i]? = some r) :
    (∃ d, c.columns[1]? = some d ∧ d.items.isEmpty = false) ↔ c.network.Begins r.start t := by
  rw [← h.reaches_one_iff hr, ← h.column_iff]
  simp

theorem furthest_eq_zero_iff (h : c.Recognizes i (t :: rest))
    (hr : c.index.grammar.rules[i]? = some r) :
    c.furthest = 0 ↔ ¬ c.network.Begins r.start t := by
  rw [← h.reaches_one_iff hr]
  obtain ⟨⟨v, ⟨ms, l, hms⟩, hv⟩, hmax⟩ := h.furthest_spec
  constructor
  · rintro hzero ⟨w, hw, hone⟩
    have := hmax w hw
    omega
  · intro hnone
    by_contra hpos
    exact hnone (exists_reaches_of_le hms (show 1 ≤ v.position by omega))

end Chart.Recognizes

/-- An input that is rejected is rejected at its first token just if the start rule cannot begin with
it. -/
theorem ParseTables.Parsed.fatal_iff {g : Grammar} (hg : g.Proper) {p : ParseTables}
    (hp : ofGrammar g = .ok p) {i : Nat} {r : Rule} (hr : g.rules[i]? = some r)
    {tokens : TokenStream} {x : Execution} {c : Chart} {u : OrderedSet Visit} {m : Groups} {n : Counts}
    {t : Ties} (h : p.Parsed i tokens x c u m n t) (hx : x.outcome ≠ .succeeded) {first : String}
    {rest : List String} (htypes : tokens.types = first :: rest) :
    x.outcome = .failedFatal ↔ ¬ g.network.Begins r.start first := by
  obtain ⟨hindex, rfl, hrec⟩ := h.recognizes hg hp (Array.getElem?_eq_some_iff.1 hr).1
  have hchart : (p.traces tokens u t).chart = c := h.chart_eq
  have hrej : c.isAccepted = false := by
    rw [← Bool.not_eq_true, ← h.succeeded_iff]
    exact hx
  rw [htypes] at hrec
  rw [← hindex] at hr ⊢
  rw [(Traces.tells_of_execution h.execution).fatal, hchart, hrec.furthest_eq_zero_iff hr]
  exact and_iff_right hrej

/-- The analysis of a built grammar finds the rules that match nothing and what each rule begins with.
A chart tells the same of them, and an input that is rejected is rejected at its first token just if
that token is not in FIRST of the start rule. -/
theorem lookahead_of_build {b b' : Builder} {g : Grammar}
    (hb : Builder.build.run.run b = (.ok g, b')) {asked : List String}
    (hasked : ∀ name ∈ asked, b.declares name = true) (firstOnly : Bool) :
    ∃ a nullable ix p, Lookahead.ofGrammar g asked firstOnly = .ok a ∧ g.nullable = .ok nullable ∧
      ChartIndex.ofGrammar g = .ok ix ∧ ParseTables.ofGrammar g = .ok p ∧
      (∀ k, nullable.contains k = true ↔
        ∃ r ∈ g.ruleList, r.index = k ∧ g.network.Derives r []) ∧
      ∀ name, b.declares name = true → ∃ r set, g.rule name = .ok r ∧ r.name = name ∧
        a.firstOf name = .ok set ∧ set.IsFirst g.network r ∧
        (∀ types, ∃ c, (Chart.recognize ix types r.index).result = .ok c ∧
          (set.epsilon = true ↔ c.contains ⟨r.stop, 0, 0⟩ = true) ∧
          ∀ t rest, types = t :: rest → (set.contains t = true ↔
            ∃ d, c.columns[1]? = some d ∧ d.items.isEmpty = false)) ∧
        ∀ tokens, ∃ x, (p.parse r.index tokens).run none = .ok (x, none) ∧
          (∀ granted y left, (p.parse r.index tokens).run granted = .ok (y, left) → y = x) ∧
          (x.outcome ≠ .succeeded → ∀ t rest, tokens.types = t :: rest →
            (x.outcome = .failedFatal ↔ set.contains t = false)) := by
  have hg := Builder.proper_of_build hb
  have hhas := Builder.hasRule_of_build hb
  have hknown : ∀ name ∈ asked, g.hasRule name = true := fun name hn =>
    (hhas name).trans (hasked name hn)
  obtain ⟨entries, hentries⟩ := hg.entries_ok
    (fun name hn => (hhas name).trans ((Builder.build_ok hb).2.2.1 name hn)) hknown
  obtain ⟨a, ha, hexact⟩ := hg.lookahead_ok hentries firstOnly
  obtain ⟨nullable, hnullable, hnull⟩ := hg.nullable_ok
  obtain ⟨ix, hix, rfl, hproper⟩ := ChartIndex.ofGrammar_ok hg
  obtain ⟨p, hp⟩ := ParseTables.exists_tables hg
  refine ⟨a, nullable, ix, p, ha, hnullable, hix, hp, fun k => hg.nullable_iff hnull, fun name hn => ?_⟩
  obtain ⟨i, r, hr, hname, hindex, hrule⟩ := hg.rule_of_hasRule ((hhas name).trans hn)
  have hi := (Array.getElem?_eq_some_iff.1 hr).1
  obtain ⟨set, hset, hfirst⟩ := hexact.firstOf_ok hg hr hindex
  have hri := (hg.rule hr).1
  refine ⟨r, set, hrule, hname, hset, hfirst, fun types => ?_, fun tokens => ?_⟩ <;> rw [hri]
  · obtain ⟨c, hc, rfl, hrec⟩ := Chart.recognize_ok hproper hi types
    refine ⟨c, hc, hfirst.epsilon.trans (hrec.contains_stop_iff hr).symm, ?_⟩
    rintro t rest rfl
    exact (hfirst.contains t).trans (hrec.column_one_iff hr).symm
  · obtain ⟨x, c, u, m, n, t, hparsed, hrun, hunique⟩ := ParseTables.parse_ok hg hp hi tokens
    refine ⟨x, hrun, hunique, fun hx t rest htypes => ?_⟩
    rw [hparsed.fatal_iff hg hp hr hx htypes, ← hfirst.contains, Bool.not_eq_true]

/-- A row of brackets may begin with an opening one. -/
theorem brackets_first : ∃ g b' a r set,
    Builder.build.run.run Builder.brackets = (.ok g, b') ∧
      Lookahead.ofGrammar g ["row"] false = .ok a ∧ g.rule "row" = .ok r ∧
      a.firstOf "row" = .ok set ∧ set.contains "'('" = true := by
  have hb : Builder.build.run.run Builder.brackets = (.ok _, _) := rfl
  have hasked : ∀ name ∈ ["row"], Builder.brackets.declares name = true := by decide
  obtain ⟨a, _, _, _, ha, -, -, -, -, hrules⟩ := lookahead_of_build hb hasked false
  obtain ⟨r, set, hr, -, hset, hfirst, -⟩ := hrules "row" (by decide)
  obtain ⟨ms, hms⟩ := Builder.brackets_derives hb (r := r) (Except.ok.inj hr ▸ rfl)
  exact ⟨_, _, a, r, set, hb, ha, hr, hset,
    (hfirst.contains _).2 (begins_of_run hms Nat.zero_lt_two rfl)⟩

end RuleNetwork
