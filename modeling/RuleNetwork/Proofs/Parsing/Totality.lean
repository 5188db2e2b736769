import RuleNetwork.Proofs.Lookahead.Analysis
import RuleNetwork.Proofs.Parsing.Events

/-!
A parse with the tables of a proper grammar never fails unless it is told to stop: whatever its input,
each of its stages comes to a result. The result does not depend on how many looks for the signal are
granted.
-/

set_option autoImplicit false

namespace RuleNetwork

open Network

/-- The analysis with one entry rule. -/
theorem Grammar.Proper.lookahead_of_entry {g : Grammar} (hg : g.Proper) {name : String} {i : Nat}
    (hi : g.ruleIndex name = .ok (Int.ofNat i)) (firstOnly : Bool) :
    ∃ a, Lookahead.ofGrammar g [name] firstOnly = .ok a ∧ a.Exact g [Int.ofNat i] := by
  have hentries : (g.entriesOr [name]).mapM g.ruleIndex = .ok [Int.ofNat i] :=
    mapM_eq_ok.2 (.cons hi .nil)
  exact hg.lookahead_ok hentries firstOnly

namespace Traces.Noted

variable {x : Traces} {i : Nat} {types : List String} (h : x.Noted i types)
include h

/-- The rules visited are listed in order and once each. -/
theorem rulesVisited_ok : ∃ l, x.rulesVisited = .ok l ∧ l.Pairwise (· < ·) ∧
    ∀ a, a ∈ l ↔ ∃ v ∈ x.ties.useful.toList, x.ties.chart.network.Owns a v.state := by
  obtain ⟨rules, hrules⟩ := exists_mapM (l := x.visits)
    (f := fun v => do return (← x.network.state v.state).rule) fun v hv => by
      obtain ⟨st, hs⟩ := h.state_ok ((h.visits v).1 hv)
      exact ⟨_, bind_eq_ok.2 ⟨st, hs, rfl⟩⟩
  refine ⟨_, bind_eq_ok.2 ⟨rules, hrules, rfl⟩, ?_, fun a => ?_⟩
  · have hnodup := (List.mergeSort_perm _ fun a b => decide (a ≤ b)).nodup_iff.2
      (OrderedSet.ofList rules).nodup_toList
    refine ((List.pairwise_mergeSort' (· ≤ ·) _).and hnodup).imp fun ⟨hle, hne⟩ => ?_
    exact lt_of_le_of_ne hle hne
  · rw [List.mem_mergeSort, OrderedSet.mem_toList_ofList, mem_of_mapM hrules]
    refine exists_congr fun v => and_congr (h.visits v) ?_
    rw [bind_eq_ok, h.network_eq]
    exact exists_congr fun st => and_congr_right fun _ => pure_eq_ok

theorem lookaheads_ok {found : List DecisionVisit}
    (hfound : ∀ d ∈ found, d.decision ∈ x.ties.chart.network.decisions) :
    ∃ sets, x.lookaheads found = .ok sets := by
  have hg := h.ties.recognizes.index.grammar
  obtain ⟨r, hr, hrule⟩ : ∃ r, x.ties.chart.index.grammar.rules[i]? = some r ∧
      x.ties.chart.index.grammar.ruleAt i = .ok r :=
    ⟨_, Array.getElem?_eq_getElem h.ties.recognizes.rule, Grammar.ruleAt_ok h.ties.recognizes.rule⟩
  have hhas : x.ties.chart.index.grammar.hasRule r.name = true :=
    Array.any_eq_true'.2 ⟨r, Array.mem_of_getElem? hr, beq_self_eq_true _⟩
  obtain ⟨j, -, -, -, hj, -⟩ := hg.rule_of_hasRule hhas
  obtain ⟨a, ha, hexact⟩ := hg.lookahead_of_entry hj false
  unfold lookaheads
  split
  · exact ⟨_, rfl⟩
  · obtain ⟨sets, hsets⟩ := exists_foldlM (f := fun (known : Std.HashMap Nat (List LookaheadSet))
        (d : DecisionVisit) => do
      if known.contains d.decision.id then return known
      return known.insert d.decision.id (← a.lookaheads (← a.decision d.decision.id)))
      (l := found) (fun d hd known => by
        split
        · exact ⟨known, rfl⟩
        · obtain ⟨sets, hsets, -⟩ := hexact.lookaheads_ok hg (hfound d hd)
          exact ⟨_, bind_eq_ok.2 ⟨d.decision, Lookahead.decision_ok (hexact.grammar ▸ hfound d hd),
            bind_eq_ok.2 ⟨sets, hsets, rfl⟩⟩⟩) ∅
    rw [← h.grammar] at ha hrule
    rw [← show x.chart.startRule = i from h.ties.recognizes.startRule] at hrule
    exact ⟨sets, bind_eq_ok.2 ⟨r, hrule, bind_eq_ok.2 ⟨a, ha, hsets⟩⟩⟩

theorem execution_ok : ∃ e, x.execution = .ok e := by
  obtain ⟨rules, hrules, -⟩ := h.rulesVisited_ok
  obtain ⟨found, hfound, hof, -⟩ := h.decisionVisits_ok
  obtain ⟨sets, hsets⟩ := h.lookaheads_ok fun d hd => (hof d hd).2.1
  obtain ⟨ties, hties⟩ := exists_mapM (l := found) (f := x.tie?) fun d hd => by
    obtain ⟨o, ho, -⟩ := h.tie?_ok (hof d hd).1
    exact ⟨o, ho⟩
  obtain ⟨events, hevents, -⟩ := h.events_ok (ties.filterMap id) fun t ht => by
    obtain ⟨o, ho, rfl⟩ := List.mem_filterMap.1 ht
    obtain ⟨d, hd, ho⟩ := (mem_of_mapM hties).1 ho
    obtain ⟨o', ho', hdecision⟩ := h.tie?_ok (hof d hd).1
    rw [ho] at ho'
    rw [hdecision t (Except.ok.inj ho').symm]
    exact (hof d hd).2.1
  exact ⟨_, bind_eq_ok.2 ⟨rules, hrules, bind_eq_ok.2 ⟨found, hfound, bind_eq_ok.2 ⟨sets, hsets,
    bind_eq_ok.2 ⟨ties, hties, bind_eq_ok.2 ⟨events, hevents, rfl⟩⟩⟩⟩⟩⟩

end Traces.Noted

namespace ParseTables

variable {g : Grammar} {p : ParseTables} {i : Nat}

/-- A parse that is never told to stop comes to its end, and one that comes to its end has no other
result. -/
theorem parse_ok (hg : g.Proper) (hp : ofGrammar g = .ok p) (hi : i < g.rules.size)
    (tokens : TokenStream) :
    ∃ x c u m n t, p.Parsed i tokens x c u m n t ∧ (p.parse i tokens).run none = .ok (x, none) ∧
      ∀ granted y left, (p.parse i tokens).run granted = .ok (y, left) → y = x := by
  obtain ⟨c, u, m, n, t, hstaged⟩ := exists_staged hg hp hi tokens
  obtain ⟨x, hx⟩ := (hstaged.noted hg hp hi).execution_ok
  have hparsed : p.Parsed i tokens x c u m n t := ⟨hstaged, hx⟩
  obtain ⟨rfl, -⟩ := ofGrammar_ok hp
  refine ⟨x, c, u, m, n, t, hparsed, run_of_parsed hparsed (Grammar.ruleAt_ok hi),
    fun granted y left hy => ?_⟩
  obtain ⟨c', u', m', n', t', hparsed'⟩ := parsed_of_run hy
  exact hparsed'.unique hparsed

/-- A parse succeeds just if its chart accepts the input. -/
theorem Parsed.succeeded_iff {tokens : TokenStream} {x : Execution} {c : Chart} {u : OrderedSet Visit}
    {m : Groups} {n : Counts} {t : Ties} (h : p.Parsed i tokens x c u m n t) :
    x.outcome = .succeeded ↔ c.isAccepted = true := by
  have hchart : (p.traces tokens u t).chart = c := h.chart_eq
  rw [(Traces.tells_of_execution h.execution).outcome, hchart]

/-- A parse succeeds just if its start rule derives the input, with or without the token that ends
it. -/
theorem Parsed.succeeded_iff_derives (hg : g.Proper) (hp : ofGrammar g = .ok p) {r : Rule}
    (hr : g.rules[i]? = some r) {tokens : TokenStream} {body : List String} {last : String}
    (htypes : tokens.types = body ++ [last]) {x : Execution} {c : Chart} {u : OrderedSet Visit}
    {m : Groups} {n : Counts} {t : Ties} (h : p.Parsed i tokens x c u m n t) :
    x.outcome = .succeeded ↔ g.network.Derives r body ∨ g.network.Derives r (body ++ [last]) := by
  obtain ⟨hindex, rfl, hrec⟩ := h.recognizes hg hp (Array.getElem?_eq_some_iff.1 hr).1
  rw [h.succeeded_iff]
  rw [htypes] at hrec
  rw [← hindex] at hr ⊢
  exact hrec.isAccepted_iff hr

end ParseTables

namespace TokenStream

/-- A stream of tokens of the given types. -/
def ofTypes (types : List String) : TokenStream where
  source := #[]
  body := (types.mapIdx fun i x => ⟨x, x, i, i, i, 1, i⟩).toArray
  finish := ⟨endOfInput, endOfInput, types.length, types.length, types.length, 1, types.length⟩

theorem types_ofTypes (types : List String) : (ofTypes types).types = types ++ [endOfInput] := by
  have hbody : (types.mapIdx fun i x => (⟨x, x, i, i, i, 1, i⟩ : Token)).map Token.type = types :=
    List.ext_getElem (by simp) fun k hk hk' => by simp
  simp only [TokenStream.types, tokens, ofTypes, Array.toList_push, List.map_append, hbody,
    List.map_cons, List.map_nil]

end TokenStream

end RuleNetwork
