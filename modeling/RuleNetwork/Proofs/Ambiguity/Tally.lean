import RuleNetwork.Ambiguity.Survey
import RuleNetwork.Proofs.Yield

/-!
What runs add up to. A run that failed leaves its result behind and nothing else; what a parsed sample
tells is put after what has been told before it. So a tally is known from its runs, one after the other.
-/

set_option autoImplicit false

namespace RuleNetwork

/-- Entries that give nothing may be left out. -/
theorem flatMap_filter_eq {α β : Type} {p : α → Bool} {f : α → List β}
    (h : ∀ a, p a = false → f a = []) (l : List α) : (l.filter p).flatMap f = l.flatMap f := by
  induction l with
  | nil => rfl
  | cons a l ih =>
    rw [List.filter_cons, List.flatMap_cons, ← ih]
    cases hp : p a with
    | true => rfl
    | false => rw [h a hp, List.nil_append, if_neg Bool.false_ne_true]

namespace SampleRun

variable (run : SampleRun)

/-- The sample, if it was parsed at least in part. -/
def parsed? : Option ParsedSample :=
  match run.result with
  | .error _ => none
  | .ok s => if s.execution.outcome = .failedFatal then none else some s

/-- A run that ended with an error or came to nothing. -/
def isFailed : Bool := run.parsed?.isNone

/-- What is told of a sample that was parsed; of one that failed there is nothing to tell. -/
def told {β : Type} (f : ParsedSample → List β) : List β := run.parsed?.elim [] f

def stats : List DecisionStats := run.told fun s => s.execution.decisions

def rules : List Int := run.told fun s => s.execution.visitedRules

def taken : List (Int × List Int) := run.told fun s => s.execution.visitedAlternatives

/-- The ambiguities of a run, where decisions have names. -/
def found (name : Int → String → String) : List Ambiguity :=
  run.told fun s => s.execution.events.map fun e =>
    .ofEvent (name e.decision e.ruleName) run.index s.tokens e

/-- What is told of how a run ended. -/
def summary (name : Int → String → String) : SampleResult :=
  match run.result with
  | .error e => { sample := run.index, error := some e }
  | .ok s =>
    { sample := run.index
      outcome := some s.execution.outcome
      tokenCount := s.execution.tokenCount
      ambiguities := (run.found name).length
      error := s.execution.errorMessage.map fun m => { kind := .parse, message := m } }

variable {run}

theorem sample_summary (name : Int → String → String) : (run.summary name).sample = run.index := by
  unfold summary
  cases run.result <;> rfl

theorem parsed?_of_ok {s : ParsedSample} (h : run.result = .ok s) :
    run.parsed? = if s.execution.outcome = .failedFatal then none else some s := by
  unfold parsed?
  rw [h]

theorem told_of_failed (h : run.isFailed = true) {β : Type} (f : ParsedSample → List β) :
    run.told f = [] := by
  unfold told
  rw [Option.isNone_iff_eq_none.1 h]
  rfl

theorem found_of_failed (h : run.isFailed = true) (name : Int → String → String) :
    run.found name = [] := told_of_failed h _

theorem stats_of_failed (h : run.isFailed = true) : run.stats = [] := told_of_failed h _

theorem rules_of_failed (h : run.isFailed = true) : run.rules = [] := told_of_failed h _

theorem taken_of_failed (h : run.isFailed = true) : run.taken = [] := told_of_failed h _

theorem ambiguities_summary (name : Int → String → String) :
    (run.summary name).ambiguities = (run.found name).length := by
  unfold summary
  cases hr : run.result with
  | ok s => rfl
  | error e =>
    have hfailed : run.isFailed = true := by
      rw [isFailed, parsed?, hr]
      rfl
    rw [found_of_failed hfailed]
    rfl

theorem sample_of_mem_found {name : Int → String → String} {b : Ambiguity} (h : b ∈ run.found name) :
    b.sample = run.index := by
  unfold found told at h
  cases hs : run.parsed? with
  | none =>
    rw [hs] at h
    cases h
  | some s =>
    rw [hs] at h
    obtain ⟨e, -, rfl⟩ := List.mem_map.1 h
    rfl

end SampleRun

/-- The profile of a decision that nothing has been observed of. -/
def DecisionProfile.fresh (name : Int → String → String) (d : Int) : DecisionProfile :=
  { decision := d, ruleName := name d "" }

namespace Tally

/-- Adds what was observed at a decision to its profile, which may be a new one. -/
def record (name : Int → String → String) (m : OrderedMap Int DecisionProfile) (s : DecisionStats) :
    OrderedMap Int DecisionProfile :=
  m.put s.decision (((m.get? s.decision).getD (.fresh name s.decision)).add s)

/-- What a run makes of the profiles. -/
def observe (name : Int → String → String) (m : OrderedMap Int DecisionProfile) (run : SampleRun) :
    OrderedMap Int DecisionProfile :=
  (run.found name).foldl count (run.stats.foldl (record name) m)

end Tally

/-- Every decision has a name, whatever a parse called its rule. -/
def Attribution.Names (a : Attribution) (name : Int → String → String) : Prop :=
  ∀ d told, a.ruleName d told = .ok (name d told)

namespace Tally

variable {a : Attribution} {name : Int → String → String}

/-- What one run does to a tally. -/
structure Adds (name : Int → String → String) (run : SampleRun) (t t' : Tally) : Prop where
  ambiguities : t'.ambiguities = t.ambiguities ++ run.found name
  samples : t'.samples = t.samples ++ [run.summary name]
  profiles : t'.profiles = observe name t.profiles run
  rules : t'.rules = t.rules.insertAll run.rules
  alternatives : t'.alternatives = run.taken.foldl addAlternatives t.alternatives
  parsed : t'.parsed = t.parsed + if run.isFailed then 0 else 1
  failed : t'.failed = t.failed + if run.isFailed then 1 else 0

/-- A failed run counts as failed and changes nothing else but the list of results. -/
theorem adds_failed {run : SampleRun} (h : run.isFailed = true) (t : Tally) {r : SampleResult}
    (hr : r = run.summary name) : Adds name run t (t.addFailed r) := by
  constructor
  · rw [SampleRun.found_of_failed h, List.append_nil]
    rfl
  · rw [← hr]
    rfl
  · rw [observe, SampleRun.found_of_failed h, SampleRun.stats_of_failed h]
    rfl
  · rw [SampleRun.rules_of_failed h]
    rfl
  · rw [SampleRun.taken_of_failed h]
    rfl
  · rw [h]
    rfl
  · rw [h]
    rfl

theorem addStats_eq (ha : a.Names name) (m : OrderedMap Int DecisionProfile) (s : DecisionStats) :
    a.addStats m s = .ok (record name m s) := by
  unfold Attribution.addStats record
  cases m.get? s.decision with
  | some p => rfl
  | none =>
    rw [ha]
    rfl

theorem adds_parsed (ha : a.Names name) {run : SampleRun} {s : ParsedSample}
    (h : run.parsed? = some s) (t : Tally) {r : SampleResult} (hsample : r.sample = run.index)
    (hr : { r with ambiguities := (run.found name).length } = run.summary name) :
    ∃ t', t.addParsed a s r = .ok t' ∧ Adds name run t t' := by
  have htold : ∀ {β : Type} (f : ParsedSample → List β), run.told f = f s := fun f => by
    rw [SampleRun.told, h]
    rfl
  have hfailed : run.isFailed = false := by
    rw [SampleRun.isFailed, h]
    rfl
  have hfound : s.execution.events.mapM (a.ambiguity r.sample s.tokens) = .ok (run.found name) := by
    rw [SampleRun.found, htold, hsample]
    refine mapM_eq_map fun e _ => ?_
    rw [Attribution.ambiguity, ha]
    rfl
  have hstats : s.execution.decisions.foldlM a.addStats t.profiles =
      .ok (run.stats.foldl (record name) t.profiles) := by
    rw [SampleRun.stats, htold]
    exact foldlM_eq_foldl fun m s _ => addStats_eq ha m s
  unfold addParsed
  rw [hfound, hstats]
  refine ⟨_, rfl, rfl, congrArg (fun r => t.samples ++ [r]) hr, rfl, ?_, ?_, ?_, ?_⟩
  · rw [SampleRun.rules, htold]
  · rw [SampleRun.taken, htold]
  · rw [hfailed]
    rfl
  · rw [hfailed]
    rfl

/-- Any run can be added. -/
theorem addRun_ok (ha : a.Names name) (t : Tally) (run : SampleRun) :
    ∃ t', t.addRun a run = .ok t' ∧ Adds name run t t' := by
  unfold addRun
  cases hr : run.result with
  | error e =>
    refine ⟨_, rfl, adds_failed ?_ t ?_⟩
    · rw [SampleRun.isFailed, SampleRun.parsed?, hr]
      rfl
    · rw [SampleRun.summary, hr]
  | ok s =>
    simp only
    split
    · rename_i hfatal
      have hfailed : run.isFailed = true := by
        rw [SampleRun.isFailed, SampleRun.parsed?_of_ok hr, if_pos hfatal]
        rfl
      refine ⟨_, rfl, adds_failed hfailed t ?_⟩
      rw [SampleRun.summary, hr, SampleRun.found_of_failed hfailed]
      rfl
    · rename_i hfatal
      refine adds_parsed ha ?_ t rfl ?_
      · rw [SampleRun.parsed?_of_ok hr, if_neg hfatal]
      · rw [SampleRun.summary, hr]

/-- The tally of some runs. -/
structure Gathers (name : Int → String → String) (runs : List SampleRun) (t : Tally) : Prop where
  ambiguities : t.ambiguities = runs.flatMap fun run => run.found name
  samples : t.samples = runs.map fun run => run.summary name
  profiles : t.profiles = runs.foldl (observe name) ∅
  rules : t.rules = .ofList (runs.flatMap SampleRun.rules)
  alternatives : t.alternatives = (runs.flatMap SampleRun.taken).foldl addAlternatives ∅
  parsed : t.parsed = runs.countP fun run => !run.isFailed
  failed : t.failed = runs.countP SampleRun.isFailed

theorem gathers_nil : Gathers name [] {} := ⟨rfl, rfl, rfl, rfl, rfl, rfl, rfl⟩

/-- One more run. -/
theorem Gathers.snoc {runs : List SampleRun} {run : SampleRun} {t t' : Tally}
    (h : Gathers name runs t) (hadds : Adds name run t t') : Gathers name (runs ++ [run]) t' := by
  constructor
  · rw [hadds.ambiguities, h.ambiguities, List.flatMap_append, List.flatMap_singleton]
  · rw [hadds.samples, h.samples, List.map_append, List.map_singleton]
  · rw [hadds.profiles, h.profiles, List.foldl_append]
    rfl
  · rw [hadds.rules, h.rules, List.flatMap_append, List.flatMap_singleton, OrderedSet.ofList,
      OrderedSet.ofList, OrderedSet.insertAll, OrderedSet.insertAll, OrderedSet.insertAll,
      List.foldl_append]
  · rw [hadds.alternatives, h.alternatives, List.flatMap_append, List.flatMap_singleton,
      List.foldl_append]
  · rw [hadds.parsed, h.parsed, List.countP_append, List.countP_singleton]
    cases run.isFailed <;> rfl
  · rw [hadds.failed, h.failed, List.countP_append, List.countP_singleton]

/-- Runs added one after the other. -/
theorem foldlM_addRun (ha : a.Names name) (runs : List SampleRun) :
    ∃ t, runs.foldlM (addRun a) {} = .ok t ∧ Gathers name runs t := by
  -- what has been gathered before is the invariant
  have key : ∀ {before : List SampleRun} {t : Tally}, Gathers name before t →
      ∃ t', runs.foldlM (addRun a) t = .ok t' ∧ Gathers name (before ++ runs) t' := by
    induction runs with
    | nil =>
      intro before t h
      exact ⟨t, rfl, by rwa [List.append_nil]⟩
    | cons run runs ih =>
      intro before t h
      obtain ⟨t', ht', hadds⟩ := addRun_ok ha t run
      obtain ⟨t'', ht'', h''⟩ := ih (h.snoc hadds)
      rw [List.append_assoc, List.singleton_append] at h''
      exact ⟨t'', foldlM_cons_eq_ok.2 ⟨t', ht', ht''⟩, h''⟩
  exact key gathers_nil

end Tally

end RuleNetwork
