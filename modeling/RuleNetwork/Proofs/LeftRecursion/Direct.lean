import RuleNetwork.Proofs.Grammar.Declarations
import RuleNetwork.Proofs.Layout.Compilation
import RuleNetwork.Proofs.LeftRecursion.Leftmost
import RuleNetwork.Proofs.LeftRecursion.Report

/-!
Direct left recursion in a built grammar. The leftmost calls listed of a rule are those in its own body
that a run comes to before it reads, over callees that match nothing. So a rule is found to recurse
directly just if its body can call it before anything is read. Without verification a walk passes no
call; what it finds is found with verification too.
-/

set_option autoImplicit false

namespace RuleNetwork

open Network Relation

/-- A run from the start state of a rule, entered at the position, is in the same invocation at a state
that calls the callee, with no token read and no call open. -/
def Network.CallsFirst (n : Network) (types : List String) (start : Int) (k : Nat) (callee : Int) : Prop :=
  ∃ ms s id t follow, n.run types (.enter start k) ms = some ⟨s, k, k, []⟩ ∧ n.Calls s id t callee follow

theorem Network.callsFirst_iff {n : Network} {types : List String} {start callee : Int} {k : Nat} :
    n.CallsFirst types start k callee ↔
      ∃ s id t follow, n.Skips start s ∧ n.Calls s id t callee follow := by
  constructor
  · rintro ⟨ms, s, id, t, follow, hms, hc⟩
    exact ⟨s, id, t, follow, skips_of_run hms, hc⟩
  · rintro ⟨s, id, t, follow, hs, hc⟩
    obtain ⟨ms, hms⟩ := hs.run types k k
    exact ⟨ms, s, id, t, follow, hms, hc⟩

namespace LeftRecursion

variable {a : LeftRecursion}

theorem isDirect_ok {r : Rule} {l : List Int} (hl : a.leftmostCalls r.index = .ok l) :
    a.isDirect r = .ok (l.contains r.index) := bind_eq_ok.2 ⟨l, hl, rfl⟩

/-- Without verification only calls are listed that a run comes to without reading. -/
theorem skips_of_plain {g : Grammar} (hg : g.Proper) {i : Nat} (hi : i < g.rules.size) :
    ∃ l, leftmostCalls ⟨g, false, ∅⟩ i = .ok l ∧ ∀ callee ∈ l,
      ∃ s id t follow, g.network.Skips (startState i) s ∧ g.network.Calls s id t callee follow := by
  obtain ⟨l, hl, -, hmem⟩ := leftmostCalls_ok (a := ⟨g, false, ∅⟩) hg hi
  refine ⟨l, hl, fun callee hcallee => ?_⟩
  obtain ⟨s, id, t, follow, hreach, hc⟩ := (hmem callee).1 hcallee
  have hnull : ∀ r, (∅ : OrderedSet Int).contains r = true → g.network.Null g.rules.size r :=
    fun r hr => by simp at hr
  have hskips : g.network.Skips (startState i) s :=
    skips_iff.2 (ReflTransGen.mono (fun _ _ => hg.network.silent_of_step hnull) _ _ hreach)
  exact ⟨s, id, t, follow, hskips, hc⟩

theorem isDirect_of_entry? {r : Rule} {e : LeftRecursiveRule} (h : a.entry? r = .ok (some e)) :
    a.isDirect r = .ok e.isDirect := by
  obtain ⟨direct, hdirect, h⟩ := bind_eq_ok.1 h
  obtain ⟨transformed, -, h⟩ := bind_eq_ok.1 h
  split at h
  · cases h
  · split at h
    · obtain ⟨levels, -, h⟩ := bind_eq_ok.1 h
      cases h
      exact hdirect
    · cases h
      exact hdirect

/-- An entry depends on verification only by whether the rule recurses directly. -/
theorem entry?_congr {p : LeftRecursion} (hgrammar : p.grammar = a.grammar) {r : Rule}
    (hdirect : p.isDirect r = a.isDirect r) : p.entry? r = a.entry? r := by
  have htransformed : p.isTransformed r = a.isTransformed r := by
    unfold isTransformed guardNumerals
    rw [hgrammar]
  have hlevels : p.levels r = a.levels r := by
    unfold levels guardNumerals
    rw [hgrammar]
  unfold entry?
  rw [hdirect, htransformed, hlevels]

theorem mem_rules_iff {report : LeftRecursionReport} (h : a.report = .ok report) {e : LeftRecursiveRule} :
    e ∈ report.rules ↔ ∃ r ∈ a.grammar.parserRules, a.entry? r = .ok (some e) := by
  obtain ⟨entries, hentries, h⟩ := bind_eq_ok.1 h
  obtain ⟨cycles, -, h⟩ := bind_eq_ok.1 h
  cases h
  rw [List.mem_filterMap]
  constructor
  · rintro ⟨e', he', rfl⟩
    exact (mem_of_mapM hentries).1 he'
  · exact fun he => ⟨some e, (mem_of_mapM hentries).2 he, rfl⟩

end LeftRecursion

namespace Builder

variable {g : Grammar} {b b' : Builder}

/-- Leftmost calls of a built grammar. With verification each rule has, without repetition, the callees
that a run of it comes to call before it reads anything, whatever the tokens and the position. A rule
recurses directly just if it is one of its own. What is found or reported to recurse directly without
verification is found and reported so with it. In both modes there is a report just if every level that a
guard names is short enough to be read. -/
theorem leftmostCalls_of_build (h : build.run.run b = (.ok g, b')) :
    ∃ a plain, LeftRecursion.ofGrammar g true = .ok a ∧ LeftRecursion.ofGrammar g false = .ok plain ∧
      (∀ r ∈ g.ruleList, ∃ calls direct plainly, a.leftmostCalls r.index = .ok calls ∧ calls.Nodup ∧
        (∀ types k callee, callee ∈ calls ↔ g.network.CallsFirst types r.start k callee) ∧
        a.isDirect r = .ok direct ∧
        (∀ types k, direct = true ↔ g.network.CallsFirst types r.start k r.index) ∧
        plain.isDirect r = .ok plainly ∧ (plainly = true → direct = true)) ∧
      (∀ verified, Reads (g.leftRecursion verified) g.NamesLevel) ∧
      ∀ plainReport, g.leftRecursion false = .ok plainReport → ∃ report,
        g.leftRecursion true = .ok report ∧
          ∀ e ∈ plainReport.rules, e.isDirect = true → e ∈ report.rules := by
  have hg := proper_of_build h
  have hsound := hg.sound fun n hn => (hasRule_of_build h n).trans ((build_ok h).2.2.1 n hn)
  obtain ⟨a, ha, hverified⟩ := hg.leftRecursion_ok
  have hplain : LeftRecursion.ofGrammar g false = .ok ⟨g, false, ∅⟩ := rfl
  have hrule : ∀ r ∈ g.ruleList, ∃ calls plainCalls, a.leftmostCalls r.index = .ok calls ∧
      calls.Nodup ∧ LeftRecursion.leftmostCalls ⟨g, false, ∅⟩ r.index = .ok plainCalls ∧
      (∀ types k callee, callee ∈ calls ↔ g.network.CallsFirst types r.start k callee) ∧
      ∀ callee ∈ plainCalls, callee ∈ calls := fun r hr => by
    obtain ⟨i, hi, -, hindex, hstart, -⟩ := hg.exists_rule hr
    obtain ⟨calls, hcalls, hnodup, hmem⟩ := hverified.leftmostCalls_skips hg hi
    obtain ⟨plainCalls, hplainCalls, hskips⟩ := LeftRecursion.skips_of_plain hg hi
    rw [hindex, hstart]
    exact ⟨calls, plainCalls, hcalls, hnodup, hplainCalls,
      fun types k callee => (hmem callee).trans callsFirst_iff.symm,
      fun callee hcallee => (hmem callee).2 (hskips callee hcallee)⟩
  obtain rfl := hverified.grammar
  refine ⟨a, _, ha, hplain, fun r hr => ?_, hsound.leftRecursion_reads, fun plainReport hreported => ?_⟩
  · obtain ⟨calls, plainCalls, hcalls, hnodup, hplainCalls, hmem, hsub⟩ := hrule r hr
    refine ⟨calls, _, _, hcalls, hnodup, hmem, LeftRecursion.isDirect_ok hcalls, fun types k => ?_,
      LeftRecursion.isDirect_ok hplainCalls, ?_⟩
    · rw [List.contains_iff_mem]
      exact hmem types k r.index
    · rw [List.contains_iff_mem, List.contains_iff_mem]
      exact hsub r.index
  · -- the levels are the same in both modes, so one report is there if the other one is
    obtain ⟨report, hreport⟩ := (hsound.leftRecursion_reads true).result
      ((hsound.leftRecursion_reads false).short _ hreported)
    have hfull : a.report = .ok report := by
      obtain ⟨a', ha', hreport'⟩ := bind_eq_ok.1 hreport
      cases ha.symm.trans ha'
      exact hreport'
    have hplainReport : LeftRecursion.report ⟨a.grammar, false, ∅⟩ = .ok plainReport := by
      obtain ⟨a', ha', hreport'⟩ := bind_eq_ok.1 hreported
      cases hplain.symm.trans ha'
      exact hreport'
    refine ⟨report, hreport, fun e he hdirect => ?_⟩
    obtain ⟨r, hr, he⟩ := (LeftRecursion.mem_rules_iff hplainReport).1 he
    obtain ⟨calls, plainCalls, hcalls, -, hplainCalls, -, hsub⟩ := hrule r (List.mem_of_mem_filter hr)
    have hp := LeftRecursion.isDirect_of_entry? he
    have hfound : plainCalls.contains r.index = true := by
      rw [LeftRecursion.isDirect_ok hplainCalls, hdirect] at hp
      exact Except.ok.inj hp
    have hsame : LeftRecursion.isDirect ⟨a.grammar, false, ∅⟩ r = a.isDirect r := by
      rw [hp, hdirect, LeftRecursion.isDirect_ok hcalls,
        List.contains_iff_mem.2 (hsub _ (List.contains_iff_mem.1 hfound))]
    rw [LeftRecursion.entry?_congr (p := ⟨a.grammar, false, ∅⟩) (a := a) rfl hsame] at he
    exact (LeftRecursion.mem_rules_iff hfull).2 ⟨r, hr, he⟩

/-- A rule that calls itself behind one that can match nothing. -/
def prefixed : Builder where
  name := "prefixed"
  rules := [
    { name := "a", kind := .parser,
      body := some (.choice [.sequence [.call "b", .call "a", .token ["'x'"]], .token ["'y'"]]) },
    { name := "b", kind := .parser, body := some (.option (.token ["'z'"])) }]

theorem prefixed_computed :
    (networkOf prefixed.bodies).run [] (.enter 0 0) [.along 10, .along 5, .along 0, .along 16, .along 14,
        .along 17, .back, .along 2] = some ⟨8, 0, 0, []⟩ ∧
      (∃ e ∈ (networkOf prefixed.bodies).arcs, e.source = 8 ∧ e.transition.call? = some (0, 9)) ∧
      ∀ e ∈ (networkOf prefixed.bodies).arcs, e.source ∈ ([0, 4, 6, 12] : List Int) →
        (isSilent (fun _ => false) e.transition = true → e.transition.next ∈ ([0, 4, 6, 12] : List Int)) ∧
          e.transition.call?.map Prod.fst ≠ some 0 := by
  decide +kernel

theorem prefixed_callsFirst (h : build.run.run prefixed = (.ok g, b')) :
    g.network.CallsFirst [] 0 0 0 := by
  obtain ⟨hrun, ⟨e, he, hsource, hcall⟩, -⟩ := prefixed_computed
  rw [← (build_ok h).2.1] at hrun he
  exact ⟨_, _, e.id, e.transition, 9, hrun, hsource ▸ (proper_of_build h).network.mem_arcs.1 he, hcall⟩

/-- Where no call is passed, a walk does not come to the call of the rule itself. -/
theorem prefixed_plain (h : build.run.run prefixed = (.ok g, b')) :
    ∃ l, LeftRecursion.leftmostCalls ⟨g, false, ∅⟩ 0 = .ok l ∧ 0 ∉ l := by
  have hg := proper_of_build h
  have hsize : 0 < g.rules.size := by
    cases h
    decide
  obtain ⟨-, -, hstays⟩ := prefixed_computed
  have hnone : (fun _ => false) = (∅ : OrderedSet Int).contains :=
    funext fun r => (OrderedSet.contains_empty r).symm
  rw [← (build_ok h).2.1, hnone] at hstays
  have hleaves : ∀ {s id : Int} {t : Transition}, s ∈ ([0, 4, 6, 12] : List Int) →
      g.network.Leaves s id t →
        (isSilent (∅ : OrderedSet Int).contains t = true → t.next ∈ ([0, 4, 6, 12] : List Int)) ∧
          t.call?.map Prod.fst ≠ some 0 :=
    fun {s id t} hs ht => hstays ⟨s, id, t⟩ (hg.network.mem_arcs.2 ht) hs
  obtain ⟨l, hl, -, hmem⟩ := LeftRecursion.leftmostCalls_ok (a := ⟨g, false, ∅⟩) hg hsize
  refine ⟨l, hl, fun hzero => ?_⟩
  obtain ⟨s, id, t, follow, hreach, ht, hcall⟩ := (hmem 0).1 hzero
  obtain ⟨-, hin⟩ := reflTransGen_inside (P := (· ∈ ([0, 4, 6, 12] : List Int)))
    (fun {a b} ha hstep => by
      obtain ⟨id, t, ht, hsilent, rfl⟩ := hg.network.step_silentSteps_iff.1 hstep
      exact ⟨hstep, (hleaves ha ht).1 hsilent⟩) (by decide) hreach
  exact (hleaves hin ht).2 (by rw [hcall]; rfl)

/-- The rule is found to recurse directly with verification only. -/
theorem prefixed_isDirect : ∃ g b' a plain, build.run.run prefixed = (.ok g, b') ∧
    LeftRecursion.ofGrammar g true = .ok a ∧ LeftRecursion.ofGrammar g false = .ok plain ∧
    ∃ r ∈ g.ruleList, r.index = 0 ∧ a.isDirect r = .ok true ∧ plain.isDirect r = .ok false := by
  obtain ⟨g, b', h⟩ : ∃ g b', build.run.run prefixed = (.ok g, b') := ⟨_, _, rfl⟩
  obtain ⟨a, plain, ha, hplain, hrules, -⟩ := leftmostCalls_of_build h
  obtain ⟨r, hr, hindex, hstart⟩ : ∃ r ∈ g.ruleList, r.index = 0 ∧ r.start = 0 := by
    cases h
    exact ⟨_, List.mem_cons_self .., rfl, rfl⟩
  obtain ⟨calls, direct, plainly, -, -, -, hdirect, hiff, -⟩ := hrules r hr
  have hfirst : direct = true := (hiff [] 0).2 (by rw [hindex, hstart]; exact prefixed_callsFirst h)
  obtain ⟨l, hl, hzero⟩ := prefixed_plain h
  rw [← hindex] at hl hzero
  cases hplain
  refine ⟨g, b', a, _, h, ha, rfl, r, hr, hindex, hfirst ▸ hdirect, ?_⟩
  rw [LeftRecursion.isDirect_ok hl]
  simpa using hzero

end Builder

end RuleNetwork
