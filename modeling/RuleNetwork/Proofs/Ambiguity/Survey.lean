import RuleNetwork.Proofs.Ambiguity.Coverage
import RuleNetwork.Proofs.Ambiguity.Engine
import RuleNetwork.Proofs.Parsing.Coverage
import RuleNetwork.Proofs.Validation.Sufficiency

/-!
The report on the runs of an engine. It does not matter in which order they came to an end; nothing that
they tell is lost in counting; a run that failed leaves no mark on what the others tell; and the report
on some runs can be put together from those on any two parts.
-/

set_option autoImplicit false

namespace RuleNetwork

namespace SampleRun

variable {runs runs' : List SampleRun}

theorem ordered_perm (runs : List SampleRun) : (ordered runs).Perm runs := List.mergeSort_perm ..

theorem pairwise_ordered (h : (runs.map index).Nodup) :
    (ordered runs).Pairwise fun x y => x.index < y.index := pairwise_lt_mergeSort h

/-- Runs with numbers of their own come in one order. -/
theorem ordered_eq_of_perm (h : runs.Perm runs') (hnodup : (runs.map index).Nodup) :
    ordered runs = ordered runs' :=
  eq_of_pairwise_lt (pairwise_ordered hnodup) (pairwise_ordered ((h.map index).nodup_iff.1 hnodup))
    fun run => by rw [(ordered_perm runs).mem_iff, (ordered_perm runs').mem_iff, h.mem_iff]

theorem ordered_filter (p : SampleRun → Bool) (hnodup : (runs.map index).Nodup) :
    ordered (runs.filter p) = (ordered runs).filter p := by
  have hkept : ((runs.filter p).map index).Nodup := hnodup.sublist (List.filter_sublist.map _)
  refine eq_of_pairwise_lt (pairwise_ordered hkept) ((pairwise_ordered hnodup).filter p) fun run => ?_
  rw [(ordered_perm _).mem_iff, List.mem_filter, List.mem_filter, (ordered_perm runs).mem_iff]

end SampleRun

namespace Ambiguity

instance : Std.TransCmp order :=
  inferInstanceAs (Std.TransCmp (compareLex (compareOn ruleName) <| compareLex (compareOn decision) <|
    compareLex (compareOn sample) (compareOn start)))

theorem precedes_trans (a b c : Ambiguity) (h : precedes a b = true) (h' : precedes b c = true) :
    precedes a c = true := Std.TransCmp.isLE_trans h h'

theorem precedes_total (a b : Ambiguity) : (precedes a b || precedes b a) = true := by
  have hswap : order b a = (order a b).swap := Std.OrientedCmp.eq_swap
  unfold precedes
  rw [hswap]
  cases order a b <;> rfl

/-- Ambiguities that are not told apart are of one sample. -/
theorem sample_eq_of_sameRank {a b : Ambiguity} (h : SameRank precedes a b = true) :
    a.sample = b.sample := by
  obtain ⟨hab, hba⟩ := Bool.and_eq_true_iff.1 h
  have heq : order a b = .eq := Std.OrientedCmp.isLE_antisymm hab hba
  simp only [order, compareLex_eq_eq] at heq
  exact Std.LawfulEqCmp.eq_of_compare heq.2.2.1

end Ambiguity

/-- What the runs found of one rank is found by the run of that sample. -/
theorem SampleRun.filter_found_of_perm {name : Int → String → String} {runs runs' : List SampleRun}
    (h : runs.Perm runs') (hnodup : (runs.map index).Nodup) (b : Ambiguity) :
    (runs.flatMap fun run => run.found name).filter (SameRank Ambiguity.precedes b) =
      (runs'.flatMap fun run => run.found name).filter (SameRank Ambiguity.precedes b) := by
  have hnone : ∀ run : SampleRun, decide (run.index = b.sample) = false →
      (run.found name).filter (SameRank Ambiguity.precedes b) = [] := fun run hne =>
    List.filter_eq_nil_iff.2 fun c hc hrank => of_decide_eq_false hne
      ((sample_of_mem_found hc).symm.trans (Ambiguity.sample_eq_of_sameRank hrank).symm)
  rw [List.filter_flatMap, List.filter_flatMap, ← flatMap_filter_eq hnone runs,
    ← flatMap_filter_eq hnone runs', filter_key_eq_of_perm h hnodup]

namespace Tally

theorem sum_countPerRule (l : List Ambiguity) :
    ((countPerRule l).map Prod.snd).sum = l.length := by
  have key : ∀ m : OrderedMap String Nat, ((l.foldl countRule m).values.map id).sum =
      (m.values.map id).sum + l.length := by
    induction l with
    | nil => exact fun m => rfl
    | cons b l ih =>
      intro m
      have hput := m.sum_values_put id b.ruleName ((m.get? b.ruleName).getD 0 + 1)
      rw [List.foldl_cons, ih, List.length_cons, countRule]
      simp only [Option.map_id_fun, id_eq] at hput
      simp only [List.map_id_fun, id_eq] at hput ⊢
      omega
  have hsum := key ∅
  rw [List.map_id] at hsum
  exact (((List.mergeSort_perm _ _).map Prod.snd).sum_nat).trans (hsum.trans (Nat.zero_add _))

/-- Every rule with ambiguities is listed with their number. -/
theorem mem_countPerRule {l : List Ambiguity} {n : String} {k : Nat} : (n, k) ∈ countPerRule l ↔
    n ∈ l.map Ambiguity.ruleName ∧ k = l.countP fun b => b.ruleName = n := by
  have hgroups : OrderedMap.Groups Ambiguity.ruleName (fun _ => 0) (fun k _ => k + 1) countRule :=
    fun _ _ => rfl
  rw [countPerRule, List.mem_mergeSort, ← OrderedMap.get?_eq_some_iff, hgroups.get?_foldl_empty,
    List.foldl_add_const, Nat.zero_add, Nat.one_mul, ← List.countP_eq_length_filter]
  simp only [Option.ite_none_right_eq_some, Option.some.injEq]
  exact and_congr_right fun _ => eq_comm

end Tally

namespace AmbiguityReport

/-- The profile of a decision, if there is one. -/
def profile? (r : AmbiguityReport) (d : Int) : Option DecisionProfile :=
  r.profiles.find? fun p => p.decision == d

/-- Every run is accounted for, as parsed or as failed, and the ambiguities of the samples, of the rules
and of the decisions are all that there are. -/
structure Balanced (runs : List SampleRun) (r : AmbiguityReport) : Prop where
  total : r.total = runs.length
  parsed : r.parsed = runs.countP fun run => !run.isFailed
  failed : r.failed = runs.countP SampleRun.isFailed
  ended : r.total = r.parsed + r.failed
  results : r.samples.map SampleResult.sample = (SampleRun.ordered runs).map SampleRun.index
  samples : (r.samples.map SampleResult.ambiguities).sum = r.ambiguities.length
  rules : (r.perRule.map Prod.snd).sum = r.ambiguities.length
  profiles : (r.profiles.map DecisionProfile.ambiguities).sum = r.ambiguities.length
  decisions : (r.profiles.map DecisionProfile.decision).Nodup

/-- A report that tells all that the runs found, and nothing else: the ambiguities in order, how many of
them each rule has, how each run ended, the sums of what was observed at each decision that was met, and
what was covered. -/
structure Tells (g : Grammar) (name : Int → String → String) (runs : List SampleRun)
    (r : AmbiguityReport) : Prop where
  ambiguities : r.ambiguities.Perm (runs.flatMap fun run => run.found name)
  sorted : r.ambiguities.Pairwise fun a b => a.precedes b = true
  perRule : ∀ n k, (n, k) ∈ r.perRule ↔
    n ∈ r.ambiguities.map Ambiguity.ruleName ∧ k = r.ambiguities.countP fun b => b.ruleName = n
  samples : r.samples = (SampleRun.ordered runs).map fun run => run.summary name
  met : ∀ d, (∃ p, r.profile? d = some p) ↔
    d ∈ (runs.flatMap SampleRun.stats).map DecisionStats.decision
  profiles : ∀ d p, r.profile? d = some p → p.Sums name runs d
  coverage : r.coverage.Covers g runs

/-- The same is told of the grammar; only the samples may differ. -/
structure SameFindings (r r' : AmbiguityReport) : Prop where
  ambiguities : r.ambiguities = r'.ambiguities
  perRule : r.perRule = r'.perRule
  profiles : r.profiles = r'.profiles
  coverage : r.coverage = r'.coverage

/-- A report put together from two: their ambiguities sorted together, the profiles of each decision
added up, and the union of what they cover. -/
structure Joins (g : Grammar) (r r₁ r₂ : AmbiguityReport) : Prop where
  ambiguities : r.ambiguities = (r₁.ambiguities ++ r₂.ambiguities).mergeSort Ambiguity.precedes
  profiles : ∀ d, r.profile? d = Option.merge DecisionProfile.join (r₁.profile? d) (r₂.profile? d)
  coverage : r.coverage.Joins g r₁.coverage r₂.coverage

end AmbiguityReport

namespace Tally

variable {name : Int → String → String} {g : Grammar} {startRule : String} {t t' : Tally}
  {runs : List SampleRun}

/-- A profile is found in the report as it is in the tally. -/
theorem profile?_report {n : Nat} (h : t.Gathers name runs) (hcovered : ∀ run ∈ runs, run.Covered name)
    (d : Int) : (t.report g startRule n).profile? d = t.profiles.get? d := by
  have hm : Profiled name runs t.profiles := h.profiles ▸ profiled hcovered
  have hvalues := List.mergeSort_perm t.profiles.values DecisionProfile.precedes
  have hnodup := (hvalues.map DecisionProfile.decision).nodup_iff.2 hm.nodup_decisions
  refine Option.ext fun p => (find?_eq_some_iff_of_nodup hnodup fun _ => beq_iff_eq).trans ?_
  rw [hvalues.mem_iff, OrderedMap.values, List.mem_map, OrderedMap.get?_eq_some_iff]
  constructor
  · rintro ⟨⟨e, he, rfl⟩, rfl⟩
    rwa [hm.decision_of_mem he]
  · exact fun he => ⟨⟨_, he, rfl⟩, hm.decision_of_mem he⟩

theorem Gathers.balanced (h : t.Gathers name (SampleRun.ordered runs))
    (hcovered : ∀ run ∈ runs, run.Covered name) :
    (t.report g startRule runs.length).Balanced runs := by
  have hperm := SampleRun.ordered_perm runs
  have hm : Profiled name (SampleRun.ordered runs) t.profiles :=
    h.profiles ▸ profiled fun run hrun => hcovered run (hperm.mem_iff.1 hrun)
  have hparsed : t.parsed = runs.countP fun run => !run.isFailed := h.parsed.trans (hperm.countP_eq _)
  have hfailed : t.failed = runs.countP SampleRun.isFailed := h.failed.trans (hperm.countP_eq _)
  have hlength : (t.ambiguities.mergeSort Ambiguity.precedes).length = t.ambiguities.length :=
    List.length_mergeSort _
  have hvalues := List.mergeSort_perm t.profiles.values DecisionProfile.precedes
  refine ⟨rfl, hparsed, hfailed, ?_, ?_, ?_, sum_countPerRule _, ?_, ?_⟩
  · have hsplit := List.length_eq_countP_add_countP (l := runs) SampleRun.isFailed
    simp only [Bool.not_eq_true, Bool.decide_eq_false] at hsplit
    simp only [report, hparsed, hfailed]
    omega
  · simp only [report, h.samples, List.map_map, Function.comp_def, SampleRun.sample_summary]
  · refine Eq.trans ?_ hlength.symm
    simp only [report, h.samples, h.ambiguities, List.length_flatMap, List.map_map, Function.comp_def,
      SampleRun.ambiguities_summary]
  · refine (hvalues.map _).sum_nat.trans (hm.sum.trans ?_)
    rw [← h.ambiguities]
    exact hlength.symm
  · exact (hvalues.map DecisionProfile.decision).nodup_iff.2 hm.nodup_decisions

/-- A report tells what the runs found, whatever the order in which they were counted. -/
theorem Gathers.tells (hg : g.Sound) (hnames : (g.ruleList.map Rule.name).Nodup) {n : Nat}
    (h : t.Gathers name (SampleRun.ordered runs)) (hcovered : ∀ run ∈ runs, run.Covered name) :
    (t.report g startRule n).Tells g name runs := by
  have hperm := SampleRun.ordered_perm runs
  have hordered : ∀ run ∈ SampleRun.ordered runs, run.Covered name := fun run hrun =>
    hcovered run (hperm.mem_iff.1 hrun)
  have hm : Profiled name (SampleRun.ordered runs) t.profiles := h.profiles ▸ profiled hordered
  have hprofile : ∀ d, (t.report g startRule n).profile? d =
      if d ∈ (runs.flatMap SampleRun.stats).map DecisionStats.decision then
        some (DecisionProfile.total name runs d) else none := fun d => by
    rw [profile?_report h hordered, hm.get?_eq, DecisionProfile.total_perm name hperm]
    exact if_congr ((hperm.flatMap_right _).map _).mem_iff rfl rfl
  refine ⟨?_, ?_, fun _ _ => mem_countPerRule, h.samples, fun d => ?_, fun d p hp => ?_,
    (h.covers hg hnames).of_perm hperm⟩
  · refine (List.mergeSort_perm _ _).trans ?_
    rw [h.ambiguities]
    exact hperm.flatMap_right _
  · exact List.pairwise_mergeSort Ambiguity.precedes_trans Ambiguity.precedes_total _
  · rw [hprofile]
    split
    · exact iff_of_true ⟨_, rfl⟩ ‹_›
    · exact iff_of_false (fun ⟨_, hp⟩ => nomatch hp) ‹_›
  · rw [hprofile] at hp
    split at hp
    · exact Option.some.inj hp ▸ DecisionProfile.sums_total name runs d
    · cases hp

/-- Runs that failed leave no mark on what is told of the grammar. -/
theorem Gathers.sameFindings {n n' : Nat} (h : t.Gathers name runs)
    (h' : t'.Gathers name (runs.filter fun run => !run.isFailed)) :
    (t'.report g startRule n').SameFindings (t.report g startRule n) := by
  have hkept : ∀ {β : Type} {f : SampleRun → List β}, (∀ run, run.isFailed = true → f run = []) →
      (runs.filter fun run => !run.isFailed).flatMap f = runs.flatMap f := fun hf =>
    flatMap_filter_eq (fun run hrun => hf run (by simpa using hrun)) runs
  have hambiguities : t'.ambiguities = t.ambiguities := by
    rw [h'.ambiguities, h.ambiguities, hkept fun run hrun => SampleRun.found_of_failed hrun name]
  have hprofiles : t'.profiles = t.profiles := by
    rw [h'.profiles, h.profiles, List.foldl_filter]
    refine List.foldl_ext _ _ _ fun m run _ => ?_
    split
    · rfl
    · rename_i hrun
      have hrun : run.isFailed = true := by simpa using hrun
      rw [observe, SampleRun.found_of_failed hrun, SampleRun.stats_of_failed hrun]
      rfl
  have hrules : t'.rules = t.rules := by
    rw [h'.rules, h.rules, hkept fun run => SampleRun.rules_of_failed]
  have halternatives : t'.alternatives = t.alternatives := by
    rw [h'.alternatives, h.alternatives, hkept fun run => SampleRun.taken_of_failed]
  constructor
  · simp only [report, hambiguities]
  · simp only [report, hambiguities]
  · simp only [report, hprofiles]
  · simp only [report, coverage, hrules, halternatives]

/-- What is told of some runs is put together from what is told of two parts. -/
theorem Gathers.joins (hg : g.Sound) (hnames : (g.ruleList.map Rule.name).Nodup)
    {first second : List SampleRun} {t₁ t₂ : Tally} {n n₁ n₂ : Nat} (h : t.Gathers name runs)
    (h₁ : t₁.Gathers name first) (h₂ : t₂.Gathers name second) (hperm : runs.Perm (first ++ second))
    (hnodup : (runs.map SampleRun.index).Nodup) (hcovered : ∀ run ∈ runs, run.Covered name) :
    (t.report g startRule n).Joins g (t₁.report g startRule n₁) (t₂.report g startRule n₂) := by
  have hfirst : ∀ run ∈ first, run.Covered name := fun run hrun =>
    hcovered run (hperm.mem_iff.2 (List.mem_append_left _ hrun))
  have hsecond : ∀ run ∈ second, run.Covered name := fun run hrun =>
    hcovered run (hperm.mem_iff.2 (List.mem_append_right _ hrun))
  refine ⟨?_, fun d => ?_, (h.covers hg hnames).joins hnames (h₁.covers hg hnames)
    (h₂.covers hg hnames) hperm⟩
  · simp only [report]
    rw [mergeSort_append_mergeSort Ambiguity.precedes_trans Ambiguity.precedes_total, h.ambiguities,
      h₁.ambiguities, h₂.ambiguities, ← List.flatMap_append]
    exact mergeSort_eq_of_rank Ambiguity.precedes_trans Ambiguity.precedes_total fun b =>
      SampleRun.filter_found_of_perm hperm hnodup b
  · have hm : Profiled name runs t.profiles := h.profiles ▸ profiled hcovered
    have hm₁ : Profiled name first t₁.profiles := h₁.profiles ▸ profiled hfirst
    have hm₂ : Profiled name second t₂.profiles := h₂.profiles ▸ profiled hsecond
    have hmet : d ∈ (runs.flatMap SampleRun.stats).map DecisionStats.decision ↔
        d ∈ (first.flatMap SampleRun.stats).map DecisionStats.decision ∨
          d ∈ (second.flatMap SampleRun.stats).map DecisionStats.decision := by
      rw [((hperm.flatMap_right _).map _).mem_iff, List.flatMap_append, List.map_append,
        List.mem_append]
    have htotal := (DecisionProfile.total_perm name hperm d).trans
      (DecisionProfile.total_append name first second d)
    rw [profile?_report h hcovered, profile?_report h₁ hfirst, profile?_report h₂ hsecond, hm.get?_eq,
      hm₁.get?_eq, hm₂.get?_eq, htotal]
    simp only [hmet]
    -- a part that did not meet the decision has observed nothing at it
    refine ite_or_eq_merge (fun _ _ => rfl) (fun _ hd => ?_) fun hd _ => ?_
    · rw [total_eq_fresh hsecond hd, (DecisionProfile.of_total name first d).join_fresh]
    · rw [total_eq_fresh hfirst hd, (DecisionProfile.of_total name second d).fresh_join]

end Tally

theorem Tally.report_nothing (g : Grammar) (startRule : String) :
    ({} : Tally).report g startRule 0 =
      { startRule := startRule, coverage := { declared := g.rules.size } } := by
  have hnamed : ∀ {α : Type}, named g.ruleNames ([] : List (Int × α)) = [] := by
    intro α
    rw [named, List.mergeSort_nil, List.filterMap_nil]
  have hcoverage : ({} : Tally).coverage g = { declared := g.rules.size } := by
    change (⟨(named g.ruleNames []).map Prod.fst, .ofList (named g.ruleNames []), g.rules.size⟩ :
      Coverage) = _
    rw [hnamed, hnamed]
    rfl
  have hcounts : countPerRule [] = [] := List.mergeSort_nil
  have hvalues : (∅ : OrderedMap Int DecisionProfile).values = [] := rfl
  simp only [report, hcoverage, List.mergeSort_nil, hcounts, hvalues]

namespace Grammar

variable {g : Grammar}

/-- Where decisions have names, the report is made of the tally of the runs by their numbers. -/
theorem ambiguityReport_eq {a : Attribution} {name : Int → String → String}
    (ha : Attribution.ofGrammar g = .ok a) (hname : a.Names name) (startRule : String)
    (runs : List SampleRun) :
    ∃ t : Tally, g.ambiguityReport startRule runs = .ok (t.report g startRule runs.length) ∧
      t.Gathers name (SampleRun.ordered runs) := by
  obtain ⟨t, ht, hgathers⟩ := Tally.foldlM_addRun hname (SampleRun.ordered runs)
  exact ⟨t, bind_eq_ok.2 ⟨a, ha, bind_eq_ok.2 ⟨t, ht, rfl⟩⟩, hgathers⟩

/-- The report does not depend on the order in which the runs came to an end. -/
theorem ambiguityReport_perm {runs runs' : List SampleRun} (h : runs.Perm runs')
    (hnodup : (runs.map SampleRun.index).Nodup) (startRule : String) :
    g.ambiguityReport startRule runs = g.ambiguityReport startRule runs' := by
  unfold ambiguityReport
  rw [SampleRun.ordered_eq_of_perm h hnodup, h.length_eq]

/-- A survey is the report on runs of an engine, one for each sample, where a parse may be cut short. -/
theorem survey_eq (hg : g.Sound) {patterns : PatternEngine} {startRule : String} {samples : List String}
    {budget : Seconds} {attempt : Int → Nat → String → Attempt}
    (hattempt : ∀ rule i text, attempt rule i text = .stalled ∨
      attempt rule i text = .ofPrepared (Prepared.ofGrammar patterns g) rule i text) {r : AmbiguityReport}
    (h : g.surveyWith startRule samples budget attempt = .ok r) :
    ∃ runs, (∀ run ∈ runs, SampleRun.Made g run) ∧
      runs.map SampleRun.index = List.range samples.length ∧ g.ambiguityReport startRule runs = .ok r := by
  unfold surveyWith at h
  obtain ⟨rule, -, hrest⟩ := bind_eq_ok.1 h
  simp only at hrest
  split at hrest
  · rename_i hempty
    obtain rfl := List.isEmpty_iff.1 hempty
    obtain rfl := pure_eq_ok.1 hrest
    obtain ⟨a, -, ha, -⟩ := hg.exists_names
    refine ⟨[], fun _ hrun => absurd hrun List.not_mem_nil, rfl, bind_eq_ok.2 ⟨a, ha, ?_⟩⟩
    rw [SampleRun.ordered, List.mergeSort_nil]
    exact bind_eq_ok.2 ⟨{}, rfl, congrArg Except.ok (Tally.report_nothing g startRule)⟩
  · obtain ⟨runs, hruns, hreport⟩ := bind_eq_ok.1 hrest
    refine ⟨runs, fun run hrun => ?_, ?_, hreport⟩
    · obtain ⟨e, -, he⟩ := (mem_of_mapM hruns).1 hrun
      exact (Attempt.made_of_run (hattempt ..) he).1
    · have hindex := (mapM_eq_ok.1 hruns).imp fun e run he =>
        (Attempt.made_of_run (hattempt rule e.1 e.2) he).2.symm
      have hnumbers : (samples.mapIdx fun i text => (i, text)).map Prod.fst =
          runs.map SampleRun.index := by
        rw [← List.forall₂_eq_eq_eq, List.forall₂_map_left_iff, List.forall₂_map_right_iff]
        exact hindex
      rw [← hnumbers]
      exact List.ext_getElem (by simp) (by simp)

/-- What is reported of the runs of an engine: all that they found and nothing else, the same in whatever
order they came to an end, with nothing lost in counting; the same findings without the runs that failed;
and for runs in two parts what is reported of the parts, put together. Decisions are told of under the
names of the rules that they belong to. -/
theorem runs_aggregate {v : Validation} (hv : g.validation = .ok v) (hfatal : v.fatal = [])
    (startRule : String) {runs : List SampleRun} (hmade : ∀ run ∈ runs, SampleRun.Made g run)
    (hnodup : (runs.map SampleRun.index).Nodup) :
    ∃ r, (∀ runs', runs'.Perm runs → g.ambiguityReport startRule runs' = .ok r) ∧
      (∃ a name, Attribution.ofGrammar g = .ok a ∧ a.Names name ∧ r.Tells g name runs) ∧
      r.Balanced runs ∧
      (∃ kept, g.ambiguityReport startRule (runs.filter fun run => !run.isFailed) = .ok kept ∧
        kept.SameFindings r) ∧
      ∀ first second, runs.Perm (first ++ second) → ∃ r₁ r₂,
        g.ambiguityReport startRule first = .ok r₁ ∧ g.ambiguityReport startRule second = .ok r₂ ∧
          r.Joins g r₁ r₂ := by
  have hclean := (Validation.fatal_eq_nil_iff hv).1 hfatal
  have hg := sound_of_clean hclean
  have hnames := nodup_names_of_clean hclean
  obtain ⟨a, name, ha, hname⟩ := hg.exists_names
  have hreport := ambiguityReport_eq ha hname startRule
  have hperm := SampleRun.ordered_perm runs
  have hcovered : ∀ run ∈ runs, run.Covered name := fun run hrun => (hmade run hrun).covered name
  obtain ⟨t, ht, hgathers⟩ := hreport runs
  refine ⟨t.report g startRule runs.length, fun runs' hruns' => ?_,
    ⟨a, name, ha, hname, hgathers.tells hg hnames hcovered⟩, hgathers.balanced hcovered, ?_,
    fun first second hsplit => ?_⟩
  · rw [← ht]
    exact (ambiguityReport_perm hruns'.symm hnodup startRule).symm
  · obtain ⟨t', ht', hgathers'⟩ := hreport (runs.filter fun run => !run.isFailed)
    rw [SampleRun.ordered_filter _ hnodup] at hgathers'
    exact ⟨_, ht', hgathers.sameFindings hgathers'⟩
  · obtain ⟨t₁, ht₁, hgathers₁⟩ := hreport first
    obtain ⟨t₂, ht₂, hgathers₂⟩ := hreport second
    have hparts : (SampleRun.ordered runs).Perm (SampleRun.ordered first ++ SampleRun.ordered second) :=
      (hperm.trans hsplit).trans
        ((SampleRun.ordered_perm first).append (SampleRun.ordered_perm second)).symm
    exact ⟨_, _, ht₁, ht₂, hgathers.joins hg hnames hgathers₁ hgathers₂ hparts
      ((hperm.map _).nodup_iff.2 hnodup) fun run hrun => hcovered run (hperm.mem_iff.1 hrun)⟩

end Grammar

/-- No error is found in the grammar of rows of letters. -/
theorem Builder.clean_letters {g : Grammar} {b' : Builder}
    (h : build.run.run letters = (.ok g, b')) : Grammar.Clean g.structuralFindings := by
  have hnodup : (g.ruleList.map Rule.name).Nodup := by
    cases h
    decide
  have hnone : g.structuralFindings = [] := by
    unfold Grammar.structuralFindings
    rw [Grammar.duplicateFindings_eq_nil hnodup]
    cases h
    decide +kernel
  rw [hnone]
  exact fun _ hf => absurd hf List.not_mem_nil

theorem Builder.letters_tokens {g : Grammar} {b' : Builder} (h : build.run.run letters = (.ok g, b')) :
    ∃ l tokens, Lexer.ofGrammar .builtIn g = .ok l ∧
      l.tokenize "aa" (some (0 : Nat)) = .ok tokens ∧
      tokens.types = ["'a'", "'a'"] ++ [endOfInput] := by
  have htypes : ((Lexer.ofGrammar .builtIn g).toOption.bind fun l =>
      (l.tokenize "aa" (some (0 : Nat))).toOption.map TokenStream.types) =
        some (["'a'", "'a'"] ++ [endOfInput]) := by
    cases h
    decide +kernel
  obtain ⟨l, hl, htypes⟩ := Option.bind_eq_some_iff.1 htypes
  obtain ⟨tokens, htokens, htypes⟩ := Option.map_eq_some_iff.1 htypes
  exact ⟨l, tokens, toOption_eq_some.1 hl, toOption_eq_some.1 htokens, htypes⟩

/-- One of two samples is parsed; the other one failed, and ended first. -/
theorem letters_aggregated : ∃ g b' v parsed failed r r₁ r₂,
    Builder.build.run.run Builder.letters = (.ok g, b') ∧ g.validation = .ok v ∧ v.fatal = [] ∧
      SampleRun.Made g parsed ∧ SampleRun.Made g failed ∧ parsed.index = 0 ∧ failed.index = 1 ∧
      parsed.isFailed = false ∧ failed.isFailed = true ∧
      g.ambiguityReport "row" [failed, parsed] = .ok r ∧ g.ambiguityReport "row" [parsed, failed] = .ok r ∧
      r.total = 2 ∧ r.parsed = 1 ∧ r.failed = 1 ∧ g.ambiguityReport "row" [parsed] = .ok r₁ ∧
      g.ambiguityReport "row" [failed] = .ok r₂ ∧ r₁.SameFindings r ∧ r.Joins g r₁ r₂ := by
  have hb : Builder.build.run.run Builder.letters = (.ok _, _) := rfl
  have hg := Builder.proper_of_build hb
  have hclean := Builder.clean_letters hb
  obtain ⟨v, hv⟩ := Grammar.validation_of_writable (Grammar.sound_of_clean hclean).writable
  have hfatal := (Validation.fatal_eq_nil_iff hv).2 hclean
  obtain ⟨p, hp⟩ := ParseTables.exists_tables hg
  obtain ⟨l, tokens, hl, htokens, htypes⟩ := Builder.letters_tokens hb
  obtain ⟨x, c, u, m, n, t, hparsed, hrun, -⟩ := ParseTables.parse_ok (i := 0) hg hp (by decide) tokens
  have hsucceeded : x.outcome = .succeeded :=
    (hparsed.succeeded_iff_derives hg hp rfl htypes).2 (.inl (Builder.letters_derives hb rfl))
  have hprepared : Prepared.ofGrammar .builtIn _ = .ok ⟨l, p⟩ :=
    bind_eq_ok.2 ⟨l, hl, bind_eq_ok.2 ⟨p, hp, rfl⟩⟩
  have hmade := SampleRun.Made.parsed hprepared htokens hrun
  have hkept : SampleRun.isFailed ⟨0, .ok ⟨tokens, x⟩⟩ = false := by
    rw [SampleRun.isFailed, SampleRun.parsed?_of_ok rfl, if_neg (by rw [hsucceeded]; decide)]
    rfl
  -- the second sample is a letter that the grammar has no token for
  obtain ⟨e, he⟩ : ∃ e, e =
      (Fault.noToken "b" { sample := some 1, line := some 1, column := some 0 }).entry := ⟨_, rfl⟩
  have hboth : ∀ run ∈ [⟨1, .error e⟩, ⟨0, .ok ⟨tokens, x⟩⟩], SampleRun.Made _ run := fun run hrun => by
    simp only [List.mem_cons, List.not_mem_nil, or_false] at hrun
    obtain rfl | rfl := hrun
    · exact .failed 1 e
    · exact hmade
  obtain ⟨r, hr, -, hbalanced, ⟨kept, hrkept, hsame⟩, hsplit⟩ :=
    Grammar.runs_aggregate hv hfatal "row" hboth (by simp)
  obtain ⟨r₁, r₂, hr₁, hr₂, hjoins⟩ := hsplit [⟨0, .ok ⟨tokens, x⟩⟩] [⟨1, .error e⟩] (.swap ..)
  have hparsed : r.parsed = 1 := by
    rw [hbalanced.parsed, List.countP_cons, List.countP_singleton, hkept]
    rfl
  have hfailed : r.failed = 1 := by
    rw [hbalanced.failed, List.countP_cons, List.countP_singleton, hkept]
    rfl
  rw [List.filter_cons, List.filter_singleton, hkept] at hrkept
  obtain rfl : r₁ = kept := Except.ok.inj (hr₁.symm.trans hrkept)
  exact ⟨_, _, v, _, _, r, r₁, r₂, hb, hv, hfatal, hmade, .failed 1 e, rfl, rfl, hkept, rfl, hr _ (.refl _),
    hr _ (.swap ..), hbalanced.total, hparsed, hfailed, hr₁, hr₂, hsame, hjoins⟩

end RuleNetwork
