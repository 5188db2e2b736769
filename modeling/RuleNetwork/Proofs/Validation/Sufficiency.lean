import RuleNetwork.Parsing.Engine
import RuleNetwork.Proofs.Layout.Compilation
import RuleNetwork.Proofs.LeftRecursion.Report
import RuleNetwork.Proofs.Validation.Parse

/-!
A check without errors is enough. Checking a grammar comes to a result unless an integer in it that is
to be told of is too long to be written out; and once no error is found, no analysis of the grammar and
no parse with it looks anything up in vain.
-/

set_option autoImplicit false

namespace RuleNetwork

/-- A look-up that found nothing where the program takes it that there is something. -/
def Fault.isMiss : Fault → Bool
  | .dangling _ | .stated .internal _ _ | .missingKey _ | .listPosition | .tuplePosition => true
  | _ => false

namespace Validation

/-- The errors of a check are those among its structural findings. -/
theorem fatal_eq {g : Grammar} {v : Validation} (h : g.validation = .ok v) :
    v.fatal = g.structuralFindings.filter Finding.isFatal := by
  unfold Grammar.validation at h
  simp only at h
  split at h
  · cases h
  split at h
  · cases h
    rfl
  · obtain ⟨graph, -, h⟩ := bind_eq_ok.1 h
    obtain rfl := pure_eq_ok.1 h
    -- the warnings of rules that nothing reaches are no errors
    have hwarn : (graph.unreachableRules.map Finding.unreachableRule).filter Finding.isFatal = [] := by
      rw [List.filter_eq_nil_iff]
      intro f hf
      obtain ⟨n, -, rfl⟩ := List.mem_map.1 hf
      exact Bool.false_ne_true
    unfold fatal
    rw [List.filter_append, hwarn, List.append_nil]

theorem fatal_eq_nil_iff {g : Grammar} {v : Validation} (h : g.validation = .ok v) :
    v.fatal = [] ↔ Grammar.Clean g.structuralFindings := by
  simp [fatal_eq h, List.filter_eq_nil_iff, Grammar.Clean]

end Validation

theorem Grammar.duplicateFindings_eq_nil {g : Grammar} (h : (g.ruleList.map Rule.name).Nodup) :
    g.duplicateFindings = [] := by
  refine List.filterMap_eq_nil_iff.2 fun n _ => ?_
  rw [if_neg (Nat.not_lt.2 (List.nodup_iff_count_le_one.1 h n))]

/-- Where no error is found, no two rules bear one name. -/
theorem Grammar.nodup_names_of_clean {g : Grammar} (h : Clean g.structuralFindings) :
    (g.ruleList.map Rule.name).Nodup := by
  refine List.nodup_iff_count_le_one.2 fun n => Nat.le_of_not_lt fun hn => ?_
  have hfound : Finding.duplicateRule n ((g.ruleList.map Rule.name).count n) ∈ g.duplicateFindings :=
    List.mem_filterMap.2 ⟨n, (OrderedSet.mem_toList_ofList ..).2
      (List.count_pos_iff.1 (Nat.zero_lt_of_lt hn)), if_pos hn⟩
  have hin : Finding.duplicateRule n ((g.ruleList.map Rule.name).count n) ∈ g.structuralFindings := by
    unfold structuralFindings
    simp only [List.mem_append]
    exact .inl (.inl (.inl hfound))
  cases h _ hin

namespace Grammar

theorem mem_structuralFindings_of_index {g : Grammar} {i : Nat} {r : Rule} (hr : g.rules[i]? = some r)
    (hi : r.index ≠ i) : .misplacedRule r.name r.index i ∈ g.structuralFindings := by
  have hfound := mem_ruleFindings hr (f := .misplacedRule r.name r.index i) (by simp [hi])
  unfold structuralFindings
  simp only [List.mem_append]
  exact .inl (.inl (.inr hfound))

/-- Every integer that the findings tell of can be written out. -/
def Writable (g : Grammar) : Prop :=
  ∀ f ∈ g.structuralFindings, ∀ i ∈ f.numbers, g.canWrite i = true

/-- A check comes to a result if its findings can be put into words. -/
theorem validation_of_writable {g : Grammar} (h : g.Writable) : ∃ v, g.validation = .ok v := by
  have hall : (g.structuralFindings.all fun f => f.numbers.all g.canWrite) = true := by
    simpa [Writable, List.all_eq_true] using h
  refine Yields.result (P := fun _ => True) ?_
  unfold validation
  simp only [hall, Bool.not_true, Bool.false_eq_true, if_false]
  refine .ite (fun _ => .ok trivial) fun hclean => ?_
  have hg : g.Sound := sound_of_clean fun f hf => by
    simpa using fun h => hclean (List.any_eq_true.2 ⟨f, hf, h⟩)
  have hnone : ∀ name ∈ [], g.hasRule name = true := fun _ hn => absurd hn List.not_mem_nil
  exact (hg.ruleGraph_yields hnone).bind fun _ _ => .ok trivial

theorem validation_of_not_writable {g : Grammar} (h : ¬ g.Writable) :
    g.validation = .error .longNumber := by
  have hall : (g.structuralFindings.all fun f => f.numbers.all g.canWrite) = false := by
    rw [Bool.eq_false_iff]
    exact fun hall => h (by simpa [Writable, List.all_eq_true] using hall)
  unfold validation
  simp only [hall, Bool.not_false, if_true]
  rfl

theorem canWrite_of_has {g : Grammar} {s : Int} (h : g.network.Has s) : g.canWrite s = true := by
  rw [canWrite, hasState_iff.2 h]
  rfl

theorem canWrite_of_ruleAt {g : Grammar} {i : Int} {r : Rule} (h : g.ruleAt i = .ok r) :
    g.canWrite i = true := by
  rw [canWrite, ruleAt_eq_ok.1 h, Option.isSome_some, Bool.or_true, Bool.true_or]

namespace Sound

variable {g : Grammar} (hg : g.Sound)
include hg

theorem canWrite_boundFinding {r : Rule} (hr : r ∈ g.ruleList) {b : Bound} {f : Finding}
    (hf : g.boundFinding? r b = some f) : ∀ i ∈ f.numbers, g.canWrite i = true := by
  have hhas : g.network.Has (b.stateOf r) := by
    cases b with
    | start => exact hg.start r hr
    | stop => exact hg.stop r hr
  obtain ⟨st, hst⟩ := hhas
  obtain ⟨owner, howner⟩ := (hg.state hst).owner
  simp only [boundFinding?, Network.state_eq_ok.1 hst] at hf
  split at hf
  · cases hf
  · cases hf
    simp only [Finding.numbers, List.mem_cons, List.not_mem_nil, or_false]
    rintro i (rfl | rfl)
    · exact canWrite_of_has ⟨st, hst⟩
    · exact canWrite_of_ruleAt howner

/-- What can be found of a transition that leads somewhere tells of its source alone. -/
theorem canWrite_transitionFindings {s : Int} {st : State} (hs : g.network.state s = .ok st)
    {owner : Rule} {t : Transition} (ht : t.Resolves g) {f : Finding}
    (hf : f ∈ g.transitionFindings st owner t) : ∀ i ∈ f.numbers, g.canWrite i = true := by
  have hid : g.canWrite st.id = true := canWrite_of_has ⟨st, (hg.state hs).id.symm ▸ hs⟩
  unfold transitionFindings at hf
  rw [if_neg (by simp [hasState_iff.2 ht.target])] at hf
  split at hf
  · rename_i hk
    obtain ⟨callee, follow, r, hcall, hr, hstart, hfollow⟩ := ht.call hk
    obtain ⟨-, hrule, hback⟩ := Transition.of_call? hcall
    simp only [callFindings, hrule, hback, Option.bind_some, ruleAt_eq_ok.1 hr, hstart,
      Option.any_some, hasState_iff.2 hfollow, if_true, List.append_nil, List.not_mem_nil] at hf
  · obtain hf | hf := List.mem_append.1 hf
    · split at hf
      · rw [List.mem_singleton.1 hf]
        simpa [Finding.numbers] using hid
      · cases hf
    · obtain ⟨name, -, rfl⟩ := List.mem_map.1 hf
      simp [Finding.numbers]
  · cases hf

theorem canWrite_stateFindings {f : Finding} (hf : f ∈ g.stateFindings) :
    ∀ i ∈ f.numbers, g.canWrite i = true := by
  obtain ⟨l, hl, hf⟩ := List.mem_flatten.1 hf
  obtain ⟨k, hk, rfl⟩ := List.mem_mapIdx.1 hl
  have hget : g.network.states[k]? = some (g.network.states.toList[k]) := by
    rw [← Array.getElem?_toList]
    exact List.getElem?_eq_getElem hk
  have hs := Network.state_eq_ok.2 (Position.forward?_eq_some.2 ⟨k, rfl, hget⟩)
  generalize g.network.states.toList[k] = st at hs hf
  have hst := hg.state hs
  obtain ⟨owner, howner⟩ := hst.owner
  rw [if_pos hst.id, List.nil_append, ruleAt_eq_ok.1 howner] at hf
  obtain hf | hf := List.mem_append.1 hf
  · split at hf
    · rw [List.mem_singleton.1 hf]
      simpa [Finding.numbers] using canWrite_of_has ⟨st, hst.id.symm ▸ hs⟩
    · cases hf
  · obtain ⟨id, hid, hf⟩ := List.mem_flatMap.1 hf
    obtain ⟨t, ht, hresolves⟩ := hst.transitions id hid
    rw [Network.transition_eq_ok.1 ht] at hf
    exact hg.canWrite_transitionFindings hs hresolves hf

/-- Where every reference leads somewhere, findings tell of places only. -/
theorem writable : g.Writable := by
  intro f hf
  unfold structuralFindings at hf
  simp only [List.mem_append] at hf
  obtain ((hf | hf) | hf) | hf := hf
  · obtain ⟨n, -, hf⟩ := List.mem_filterMap.1 hf
    split at hf
    · cases hf
      simp [Finding.numbers]
    · cases hf
  · obtain ⟨l, hl, hf⟩ := List.mem_flatten.1 hf
    obtain ⟨k, hk, rfl⟩ := List.mem_mapIdx.1 hl
    have hget : g.rules[k]? = some (g.ruleList[k]) := by
      rw [← Array.getElem?_toList]
      exact List.getElem?_eq_getElem hk
    rw [if_pos (hg.index hget), List.nil_append] at hf
    obtain ⟨b, -, hf⟩ := List.mem_filterMap.1 hf
    exact hg.canWrite_boundFinding (List.getElem_mem hk) hf
  · obtain ⟨n, -, rfl⟩ := List.mem_map.1 hf
    simp [Finding.numbers]
  · exact hg.canWrite_stateFindings hf

end Sound

/-- The check of a grammar whose rules differ in name finds no error if its other parts find none. -/
theorem exists_validation {g : Grammar} (hnames : (g.ruleList.map Rule.name).Nodup)
    (h : (g.ruleFindings ++ g.entryFindings ++ g.stateFindings).all (fun f => !f.isFatal) = true) :
    ∃ v, g.validation = .ok v ∧ v.fatal = [] := by
  have hclean : Clean g.structuralFindings := fun f hf => by
    unfold structuralFindings at hf
    rw [duplicateFindings_eq_nil hnames, List.nil_append] at hf
    simpa using List.all_eq_true.1 h f hf
  obtain ⟨v, hv⟩ := validation_of_writable (sound_of_clean hclean).writable
  exact ⟨v, hv, (Validation.fatal_eq_nil_iff hv).2 hclean⟩

end Grammar

theorem Lexer.isMiss_of_error {patterns : PatternEngine} {g : Grammar} {f : Fault}
    (h : Lexer.ofGrammar patterns g = .error f) : f.isMiss = false := by
  have hone : ∀ t : TokenType, ∀ f, Matcher.ofToken patterns t = .error f → f.isMiss = false := by
    intro t f hf
    unfold Matcher.ofToken at hf
    split at hf
    · cases hf
    · split at hf
      · cases hf
      · rename_i e _
        cases hf
        cases e <;> rfl
  unfold ofGrammar at h
  cases hm : g.tokens.mapM (Matcher.ofToken patterns) with
  | ok l =>
    rw [hm] at h
    cases h
  | error f' =>
    rw [hm] at h
    cases h
    obtain ⟨t, -, ht⟩ := exists_error_of_mapM hm
    exact hone t f ht

namespace Engine

/-- What is kept under a handle is what is prepared of the grammar. -/
def Keeps (e : Engine) (handle : Nat) (g : Grammar) : Prop :=
  ∀ p, (handle, p) ∈ e.prepared → Prepared.ofGrammar e.patterns g = .ok p

/-- An engine finds what is prepared of a grammar, or prepares it. -/
theorem prepare_eq {e : Engine} {handle : Nat} {g : Grammar} (h : e.Keeps handle g) :
    ((prepare handle g).run.run e).1 = Prepared.ofGrammar e.patterns g := by
  cases hfind : e.prepared.find? fun x => x.1 == handle with
  | some x =>
    have hrun : (prepare handle g).run.run e = (.ok x.2, e.keep handle x.2) := by
      unfold prepare
      rw [ExceptT.run_bind, StateT.run_bind]
      change StateT.run (ExceptT.run _) e = _
      simp only [hfind]
      rfl
    have hkey := List.find?_some hfind
    rw [← beq_iff_eq.1 hkey] at h
    rw [hrun]
    exact (h x.2 (List.mem_of_find?_eq_some hfind)).symm
  | none =>
    have hrun : (prepare handle g).run.run e =
        (Prepared.ofGrammar e.patterns g,
          (Prepared.ofGrammar e.patterns g).toOption.elim e (e.keep handle)) := by
      unfold prepare
      rw [ExceptT.run_bind, StateT.run_bind]
      change StateT.run (ExceptT.run _) e = _
      simp only [hfind]
      cases Prepared.ofGrammar e.patterns g <;> rfl
    rw [hrun]

/-- A parse by an engine is one with what is prepared of the grammar, kept or not. -/
theorem parse_eq {e : Engine} {handle : Nat} {g : Grammar} (h : e.Keeps handle g) (rule : Int)
    (tokens : TokenStream) (granted : Option Nat) :
    ((Engine.parse handle g rule tokens granted).run.run e).1 = (do
      let p ← Prepared.ofGrammar e.patterns g
      ((p.tables.parse rule tokens).run granted).map Prod.fst) := by
  have hp := prepare_eq h
  unfold Engine.parse
  rw [ExceptT.run_bind, StateT.run_bind]
  cases hr : (prepare handle g).run.run e with
  | mk r e' =>
    rw [hr] at hp
    rw [← hp]
    cases r with
    | error f => rfl
    | ok p =>
      simp only [bind, Except.bind]
      cases (p.tables.parse rule tokens).run granted <;> rfl

end Engine

/-- Only a token whose pattern cannot be compiled keeps a grammar from being prepared. -/
theorem Prepared.ofGrammar_eq {g : Grammar} {p : ParseTables} (hp : ParseTables.ofGrammar g = .ok p)
    (patterns : PatternEngine) :
    ofGrammar patterns g = (Lexer.ofGrammar patterns g).map fun l => ⟨l, p⟩ := by
  unfold ofGrammar
  rw [hp]
  cases Lexer.ofGrammar patterns g <;> rfl

/-- A check of a grammar comes to a result just if the integers that its findings tell of can be written
out, and fails with nothing else than that. A check that finds no error is enough: the rule graph and the
lookahead are reported, and so are the decisions of every rule; the report on left recursion can fail only
for a level too long to be read, the complexity only for a mean that is too large, an engine only for a
token that it cannot look for; and no parse from a rule, whatever the tokens, looks anything up in vain. -/
theorem Grammar.validation_suffices (g : Grammar) :
    (g.Writable → ∃ v, g.validation = .ok v) ∧ (¬ g.Writable → g.validation = .error .longNumber) ∧
    ∀ v, g.validation = .ok v → v.fatal = [] →
      (∃ graph, g.ruleGraph [] = .ok graph) ∧
      (∀ f, g.complexity [] = .error f → f = .quotientTooLarge) ∧
      (∀ firstOnly, ∃ report, g.lookahead none [] firstOnly = .ok report) ∧
      (∀ verified, Reads (g.leftRecursion verified) g.NamesLevel) ∧
      (∀ name, g.hasRule name = true → (∃ graphs, g.ruleDecisions name = .ok graphs) ∧
        ∀ firstOnly, ∃ report, g.lookahead (some name) [] firstOnly = .ok report) ∧
      (∃ p, ParseTables.ofGrammar g = .ok p ∧ ∀ r ∈ g.ruleList, ∀ tokens,
        ∃ x, (p.parse r.index tokens).run none = .ok (x, none)) ∧
      ∀ (e : Engine) (handle : Nat), e.Keeps handle g → ∀ r ∈ g.ruleList, ∀ tokens f,
        ((Engine.parse handle g r.index tokens none).run.run e).1 = .error f →
          Lexer.ofGrammar e.patterns g = .error f ∧ f.isMiss = false := by
  refine ⟨validation_of_writable, validation_of_not_writable, fun v hv hfatal => ?_⟩
  have hg := sound_of_clean ((Validation.fatal_eq_nil_iff hv).1 hfatal)
  have hnone : ∀ name ∈ ([] : List String), g.hasRule name = true := fun _ hn =>
    absurd hn List.not_mem_nil
  obtain ⟨p, hp, hsound, rfl⟩ := ParseTables.ofGrammar_yields hg
  have hparse : ∀ r ∈ p.grammar.ruleList, ∀ tokens,
      ∃ x, (p.parse r.index tokens).run none = .ok (x, none) := fun r hr tokens =>
    ParseTables.parse_result hsound ⟨r, hr, rfl⟩ tokens
  refine ⟨(hg.ruleGraph_yields hnone).result, fun f => hg.complexity_error hnone,
    fun firstOnly => (hg.lookahead_yields (fun _ h => by cases h) hnone firstOnly).result,
    hg.leftRecursion_reads,
    fun name hn => ⟨(hg.ruleDecisions_yields hn).result, fun firstOnly =>
      (hg.lookahead_yields (fun _ h => by cases h; exact hn) hnone firstOnly).result⟩,
    ⟨p, hp, hparse⟩, fun e handle hkeeps r hr tokens f hf => ?_⟩
  rw [Engine.parse_eq hkeeps, Prepared.ofGrammar_eq hp] at hf
  cases hl : Lexer.ofGrammar e.patterns p.grammar with
  | error f' =>
    rw [hl] at hf
    cases hf
    exact ⟨rfl, Lexer.isMiss_of_error hl⟩
  | ok l =>
    obtain ⟨x, hx⟩ := hparse r hr tokens
    rw [hl] at hf
    simp only [Except.map, bind, Except.bind] at hf
    rw [hx] at hf
    cases hf

/-- One rule, with a number too long to be written out. -/
def Grammar.remote : Grammar where
  name := "remote"
  rules := #[⟨Int.ofNat (10 ^ Number.digitLimit), "r", .parser, 1, 0, 0, none⟩]
  network := {}
  tokens := []

/-- No error is found in brackets, so they can be parsed from any rule on any tokens. The number of the
remote rule keeps a check from coming to a result. -/
theorem brackets_validated : (∃ g b' v, Builder.build.run.run Builder.brackets = (.ok g, b') ∧
    g.validation = .ok v ∧ v.fatal = [] ∧ ∃ p, ParseTables.ofGrammar g = .ok p ∧
      ∀ r ∈ g.ruleList, ∀ tokens, ∃ x, (p.parse r.index tokens).run none = .ok (x, none)) ∧
    Grammar.remote.validation = .error .longNumber := by
  have hclean : ∀ g b', Builder.build.run.run Builder.brackets = (.ok g, b') →
      g.structuralFindings = [] := by
    intro g b' h
    have hnodup : (g.ruleList.map Rule.name).Nodup := by
      cases h
      decide
    unfold Grammar.structuralFindings
    rw [Grammar.duplicateFindings_eq_nil hnodup]
    cases h
    decide +kernel
  obtain ⟨g, b', hb⟩ : ∃ g b', Builder.build.run.run Builder.brackets = (.ok g, b') := ⟨_, _, rfl⟩
  have hwritable : g.Writable := fun f hf => by
    rw [hclean g b' hb] at hf
    cases hf
  obtain ⟨hresult, -, hsuffices⟩ := Grammar.validation_suffices g
  obtain ⟨v, hv⟩ := hresult hwritable
  have hfatal : v.fatal = [] := by
    rw [Validation.fatal_eq_nil_iff hv, hclean g b' hb]
    exact fun _ hf => absurd hf List.not_mem_nil
  obtain ⟨-, -, -, -, -, hparse, -⟩ := hsuffices v hv hfatal
  refine ⟨⟨g, b', v, hb, hv, hfatal, hparse⟩, ?_⟩
  obtain ⟨-, hlong, -⟩ := Grammar.validation_suffices Grammar.remote
  refine hlong fun h => ?_
  have hlarge : Int.ofNat (10 ^ Number.digitLimit) ≠ (0 : Nat) :=
    Int.ofNat_ne_zero.2 (Nat.ne_of_gt (Nat.pow_pos (Nat.succ_pos 9)))
  have hfound := Grammar.mem_structuralFindings_of_index (g := Grammar.remote) (i := 0) rfl hlarge
  exact absurd (h _ hfound _ (List.mem_singleton_self _)) (by decide +kernel)

end RuleNetwork
