import RuleNetwork.Proofs.Grammar.Declarations
import RuleNetwork.Proofs.Layout.Compilation
import RuleNetwork.Proofs.Validation.Sufficiency

/-!
Checking a built grammar. A build refuses rules and tokens that are not declared, so the one error that
a check can find is a token set without a name in a parser rule, which a build lets pass.
-/

set_option autoImplicit false

namespace RuleNetwork

open Network

namespace Grammar

variable {g : Grammar}

/-- An error in the terminals of a parser rule. -/
def TerminalError (g : Grammar) (f : Finding) : Prop :=
  ∃ s st r id t, g.network.state s = .ok st ∧ g.ruleAt st.rule = .ok r ∧ r.kind = .parser ∧
    id ∈ st.transitions ∧ g.network.transition id = .ok t ∧ t.kind = .terminal ∧
    f ∈ g.terminalFindings st r t

namespace Proper

variable (hg : g.Proper)
include hg

theorem ruleFindings_eq_nil : g.ruleFindings = [] := by
  refine List.flatten_eq_nil_iff.2 fun l hl => ?_
  obtain ⟨i, hi, rfl⟩ := List.mem_mapIdx.1 hl
  have hi' : i < g.rules.size := by simpa [ruleList] using hi
  have hget : g.rules[i]? = some (g.ruleList[i]) := by
    rw [← Array.getElem?_toList]
    exact List.getElem?_eq_getElem hi
  generalize g.ruleList[i] = r at hget
  obtain ⟨hindex, hstart, hstop⟩ := hg.rule hget
  obtain ⟨st, hst, hrule, hkind⟩ := hg.network.start i hi'
  obtain ⟨st', hst', hrule', hkind'⟩ := hg.network.stop i hi'
  have hbound : ∀ b : Bound, g.boundFinding? r b = none := fun b => by
    cases b with
    | start =>
      simp only [boundFinding?, Bound.stateOf, hstart, state_eq_ok.1 hst, Bound.kind, hkind, hrule,
        hindex, Int.ofNat_eq_natCast, and_self, if_true]
    | stop =>
      simp only [boundFinding?, Bound.stateOf, hstop, state_eq_ok.1 hst', Bound.kind, hkind', hrule',
        hindex, Int.ofNat_eq_natCast, and_self, if_true]
  rw [if_pos hindex, List.nil_append]
  exact List.filterMap_eq_nil_iff.2 fun b _ => hbound b

theorem transitionFindings_eq {s id : Int} {st : State} {t : Transition} (r : Rule)
    (hs : g.network.state s = .ok st) (hid : id ∈ st.transitions)
    (ht : g.network.transition id = .ok t) :
    g.transitionFindings st r t =
      if t.kind = .terminal ∧ r.kind = .parser then g.terminalFindings st r t else [] := by
  obtain ⟨t', ht', hfits⟩ := (hg.network.state hs).fits id hid
  rw [ht] at ht'
  cases ht'
  obtain ⟨hk, hin⟩ | ⟨callee, follow, hlt, hcall, htarget, hin⟩ := hfits
  · have hstate : g.hasState t.target = true := hasState_iff.2 hin.has
    unfold transitionFindings
    rw [if_neg (by simp [hstate])]
    cases hkind : t.kind <;> cases hr : r.kind <;> simp_all
  · obtain ⟨hk, hrule, hfollow⟩ := Transition.of_call? hcall
    have hstate : g.hasState t.target = true :=
      hasState_iff.2 (htarget ▸ (hg.network.owns_start hlt).has)
    have hcallee := ruleAt_eq_ok.1 (ruleAt_ok hlt)
    have hstart := (hg.rule (Array.getElem?_eq_getElem hlt)).2.1
    unfold transitionFindings
    rw [if_neg (by simp [hstate]), hk]
    simp only [callFindings, hrule, hfollow, Option.bind_some, hcallee, hstart, htarget,
      Option.any_some, hasState_iff.2 hin.has, if_true, List.append_nil, reduceCtorEq, false_and,
      if_false]

/-- The errors that a check can find in a proper grammar lie in the terminals of its parser rules. -/
theorem fatal_iff (hentry : ∀ name ∈ g.entryRules, g.hasRule name = true)
    (hnames : (g.ruleList.map Rule.name).Nodup) {f : Finding} :
    f ∈ g.structuralFindings ∧ f.isFatal = true ↔ g.TerminalError f := by
  have hentries : g.entryFindings = [] := by
    rw [entryFindings, List.map_eq_nil_iff, List.filter_eq_nil_iff]
    exact fun name hn => by simp [hentry name hn]
  unfold structuralFindings
  rw [duplicateFindings_eq_nil hnames, hg.ruleFindings_eq_nil, hentries, List.nil_append,
    List.nil_append, List.nil_append]
  constructor
  · rintro ⟨hf, hfatal⟩
    obtain ⟨l, hl, hf⟩ := List.mem_flatten.1 hf
    obtain ⟨i, hi, rfl⟩ := List.mem_mapIdx.1 hl
    have hget : g.network.states[i]? = some (g.network.states.toList[i]) := by
      rw [← Array.getElem?_toList]
      exact List.getElem?_eq_getElem hi
    have hs := state_eq_ok.2 (Position.forward?_eq_some.2 ⟨i, rfl, hget⟩)
    generalize g.network.states.toList[i] = st at hs hf
    have hproper := hg.network.state hs
    obtain ⟨j, hj, hrule⟩ := hproper.rule
    have howner : g.ruleAt st.rule = .ok g.rules[j] := by
      rw [hrule]
      exact ruleAt_ok hj
    rw [if_pos hproper.id, List.nil_append, ruleAt_eq_ok.1 howner] at hf
    obtain hf | hf := List.mem_append.1 hf
    · -- a decision with one alternative is no error
      split at hf
      · rw [List.mem_singleton.1 hf] at hfatal
        cases hfatal
      · cases hf
    · obtain ⟨id, hid, hf⟩ := List.mem_flatMap.1 hf
      obtain ⟨t, ht, -⟩ := hproper.fits id hid
      rw [transition_eq_ok.1 ht] at hf
      simp only [hg.transitionFindings_eq _ hs hid ht] at hf
      split at hf
      · rename_i hk
        exact ⟨i, st, _, id, t, hs, howner, hk.2, hid, ht, hk.1, hf⟩
      · cases hf
  · rintro ⟨s, st, r, id, t, hs, howner, hr, hid, ht, hk, hf⟩
    obtain ⟨i, rfl, hi⟩ := Position.forward?_eq_some.1 (state_eq_ok.1 hs)
    refine ⟨mem_stateFindings hi ?_, ?_⟩
    · rw [ruleAt_eq_ok.1 howner]
      refine List.mem_append_right _ (mem_ownedFindings hid ?_)
      rw [transition_eq_ok.1 ht]
      simp only [hg.transitionFindings_eq r hs hid ht, hk, hr, and_self, if_true, hf]
    · obtain hf | hf := List.mem_append.1 hf
      · split at hf
        · rw [List.mem_singleton.1 hf]
          rfl
        · cases hf
      · obtain ⟨name, -, rfl⟩ := List.mem_map.1 hf
        rfl

end Proper

end Grammar

/-- A check refuses a grammar for the first error that it finds. -/
theorem Grammar.ensureValid_eq {g : Grammar} {v : Validation} (h : g.validation = .ok v) :
    g.ensureValid = match v.fatal with
      | [] => .ok ()
      | f :: _ => .error f.fault := by
  unfold ensureValid
  rw [h]
  simp only [bind, Except.bind]
  cases v.fatal <;> rfl

theorem tokenSets_rename {ρ σ : Type} (f : ρ → σ) (e : Element ρ) :
    (e.rename f).tokenSets = e.tokenSets := by
  have hall : ∀ l : List (Element ρ), (∀ e ∈ l, (e.rename f).tokenSets = e.tokenSets) →
      allTokenSets (renameAll f l) = allTokenSets l := by
    intro l hl
    induction l with
    | nil => rfl
    | cons e r ih =>
      rw [renameAll, allTokenSets, allTokenSets, hl e (List.mem_cons_self ..),
        ih fun e he => hl e (List.mem_cons_of_mem _ he)]
  induction e using Element.induction with
  | token names => rfl
  | call r => rfl
  | guard text => rfl
  | empty => rfl
  | unknown => rfl
  | sequence items ih => exact hall items ih
  | choice options ih => exact hall options ih
  | star body ih => exact ih
  | plus body ih => exact ih
  | option body ih => exact ih

namespace Builder

variable {b b' : Builder} {g : Grammar}

/-- The rules of a built grammar are the declared ones, each with the terminals of its body. -/
theorem shows_of_build (h : build.run.run b = (.ok g, b')) {r : Int} {names : List String} :
    g.network.Shows r names ↔
      ∃ (i : Nat) (d : Declaration), b.rules[i]? = some d ∧ r = (i : Int) ∧
        g.ruleAt i = .ok (ruleOf i d) ∧ names ∈ (bodyOf d).tokenSets := by
  obtain ⟨hrules, hnet, -⟩ := build_ok h
  have hrule : ∀ {i : Nat} {d : Declaration}, b.rules[i]? = some d →
      g.ruleAt i = .ok (ruleOf i d) := fun {i d} hd =>
    Grammar.ruleAt_eq_ok.2 (Position.forward?_eq_some.2 ⟨i, rfl, by simp [hrules, hd]⟩)
  rw [hnet, shows_networkOf]
  constructor
  · rintro ⟨i, e, he, rfl, hn⟩
    simp only [bodies, List.getElem?_map, Option.map_eq_some_iff] at he
    obtain ⟨d, hd, rfl⟩ := he
    exact ⟨i, d, hd, rfl, hrule hd, by rwa [tokenSets_rename] at hn⟩
  · rintro ⟨i, d, hd, rfl, -, hn⟩
    exact ⟨i, (bodyOf d).rename b.number, by simp [bodies, hd], rfl, by rwa [tokenSets_rename]⟩

/-- The errors in the terminals of a grammar built from a builder in order: sets without a name, each
in a parser rule. -/
theorem terminalError_of_build (hb : b.Ordered) (h : build.run.run b = (.ok g, b')) {f : Finding}
    (hf : g.TerminalError f) :
    ∃ d ∈ b.rules, d.kind = .parser ∧ [] ∈ (bodyOf d).tokenSets ∧ ∃ s, f = .emptyTerminal d.name s := by
  obtain ⟨s, st, r, id, t, hs, hr, hparser, hid, ht, hk, hf⟩ := hf
  obtain ⟨i, d, hd, hi, hrule, hn⟩ := (shows_of_build h).1 ⟨s, st, id, t, hs, rfl, hid, ht, hk, rfl⟩
  rw [hi, hrule] at hr
  cases hr
  have hmem := List.mem_of_getElem? hd
  have hknown := mem_vocabulary_of_build hb.body h d hmem hparser _ hn
  obtain hf | hf := List.mem_append.1 hf
  · split at hf
    · rename_i hempty
      rw [List.isEmpty_iff.1 hempty] at hn
      exact ⟨d, hmem, hparser, hn, st.id, List.mem_singleton.1 hf⟩
    · cases hf
  · obtain ⟨name, hname, -⟩ := List.mem_map.1 hf
    obtain ⟨hname, hunknown⟩ := List.mem_filter.1 hname
    rw [List.contains_iff_mem.2 (hknown name hname)] at hunknown
    cases hunknown

theorem exists_terminalError (h : build.run.run b = (.ok g, b')) {d : Declaration}
    (hd : d ∈ b.rules) (hparser : d.kind = .parser) (hn : [] ∈ (bodyOf d).tokenSets) :
    ∃ s, g.TerminalError (.emptyTerminal d.name s) := by
  obtain ⟨i, hi⟩ := List.mem_iff_getElem?.1 hd
  obtain ⟨hrules, -⟩ := build_ok h
  have hrule : g.ruleAt i = .ok (ruleOf i d) :=
    Grammar.ruleAt_eq_ok.2 (Position.forward?_eq_some.2 ⟨i, rfl, by simp [hrules, hi]⟩)
  obtain ⟨s, st, id, t, hs, hr, hid, ht, hk, hnone⟩ := (shows_of_build h).2 ⟨i, d, hi, rfl, hrule, hn⟩
  refine ⟨st.id, s, st, ruleOf i d, id, t, hs, by rw [hr]; exact hrule, hparser, hid, ht, hk, ?_⟩
  unfold Grammar.terminalFindings
  rw [hnone]
  exact List.mem_append_left _ (List.mem_singleton_self _)

/-- What is built from declarations can be checked, and the one kind of error that is found then is a
token set without a name in a parser rule. The check passes just if there is none. -/
theorem validation_of_build {name : String} {entryRules : List String} {steps : List Step}
    (h : build.run.run (afterAll { name, entryRules } steps) = (.ok g, b')) :
    ∃ v, g.validation = .ok v ∧
      (∀ f ∈ v.fatal, ∃ d ∈ (afterAll { name, entryRules } steps).rules, d.kind = .parser ∧
        [] ∈ (bodyOf d).tokenSets ∧ ∃ s, f = .emptyTerminal d.name s) ∧
      (∀ d ∈ (afterAll { name, entryRules } steps).rules, d.kind = .parser →
        [] ∈ (bodyOf d).tokenSets → ∃ s, .emptyTerminal d.name s ∈ v.fatal) ∧
      (g.ensureValid = .ok () ↔ ∀ d ∈ (afterAll { name, entryRules } steps).rules,
        d.kind = .parser → [] ∉ (bodyOf d).tokenSets) := by
  have hordered := ordered_afterAll (ordered_new name entryRules) steps
  generalize afterAll { name, entryRules } steps = b at *
  obtain ⟨-, -, hentry, -⟩ := build_ok h
  have hnames := hordered.nodup_of_build h
  have hsound := (proper_of_build h).sound fun n hn => (hasRule_of_build h n).trans (hentry n hn)
  obtain ⟨v, hv⟩ := Grammar.validation_of_writable hsound.writable
  have hfatal : ∀ f, f ∈ v.fatal ↔ g.TerminalError f := fun f => by
    rw [Validation.fatal_eq hv, List.mem_filter]
    exact (proper_of_build h).fatal_iff
      (fun name hn => by rw [hasRule_of_build h]; exact hentry name hn) hnames
  have hfound : ∀ f ∈ v.fatal, ∃ d ∈ b.rules, d.kind = .parser ∧ [] ∈ (bodyOf d).tokenSets ∧
      ∃ s, f = .emptyTerminal d.name s := fun f hf => terminalError_of_build hordered h ((hfatal f).1 hf)
  have hmissing : ∀ d ∈ b.rules, d.kind = .parser → [] ∈ (bodyOf d).tokenSets →
      ∃ s, .emptyTerminal d.name s ∈ v.fatal := fun d hd hparser hn =>
    (exists_terminalError h hd hparser hn).imp fun s hs => (hfatal _).2 hs
  refine ⟨v, hv, hfound, hmissing, ?_⟩
  rw [Grammar.ensureValid_eq hv]
  cases hl : v.fatal with
  | nil =>
    refine ⟨fun _ d hd hparser hn => ?_, fun _ => rfl⟩
    obtain ⟨s, hs⟩ := hmissing d hd hparser hn
    rw [hl] at hs
    cases hs
  | cons f l =>
    refine ⟨(nomatch ·), fun hnone => ?_⟩
    obtain ⟨d, hd, hparser, hn, -⟩ := hfound f (hl ▸ List.mem_cons_self ..)
    exact absurd hn (hnone d hd hparser)

/-- A rule over a token set without a name is built, and refused by the check. -/
theorem nameless_refused : ∃ g b' v, build.run.run (afterAll { name := "nameless", entryRules := [] }
      [.rule "s" (.token []) none]) = (.ok g, b') ∧ g.validation = .ok v ∧
    (∃ s, .emptyTerminal "s" s ∈ v.fatal) ∧ g.ensureValid ≠ .ok () := by
  have hb : build.run.run (afterAll { name := "nameless", entryRules := [] }
      [.rule "s" (.token []) none]) = (.ok _, _) := rfl
  obtain ⟨v, hv, -, hmissing, hvalid⟩ := validation_of_build hb
  have hd : (⟨"s", .parser, some (.token []), none, none⟩ : Declaration) ∈
      (afterAll { name := "nameless", entryRules := [] } [.rule "s" (.token []) none]).rules :=
    List.mem_singleton_self _
  have hn : [] ∈ (bodyOf ⟨"s", .parser, some (.token []), none, none⟩).tokenSets :=
    List.mem_singleton_self _
  exact ⟨_, _, v, hb, hv, hmissing _ hd rfl hn, fun hok => hvalid.1 hok _ hd rfl hn⟩

end Builder

end RuleNetwork
