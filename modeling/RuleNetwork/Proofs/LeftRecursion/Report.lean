import RuleNetwork.LeftRecursion.Report
import RuleNetwork.Proofs.RuleGraph.Table

/-!
The report on left recursion of a sound grammar, with and without verification. It is made just if every
numeral by which a guard of a parser rule names a level is short enough to be read.
-/

set_option autoImplicit false

namespace RuleNetwork

open Network

/-- Work that reads numerals: it comes to a result only if all of them are short enough to be read, and it
fails only for one that is too long. -/
structure Reads {α : Type} (x : Except Fault α) (numerals : List Char → Prop) : Prop where
  short : ∀ a, x = .ok a → ∀ d, numerals d → d.length ≤ Number.digitLimit
  long : ∀ f, x = .error f → ∃ d, numerals d ∧ Number.digitLimit < d.length ∧ f = .longNumeral d.length

namespace Reads

variable {α β : Type} {x : Except Fault α} {P : α → Prop} {numerals : List Char → Prop}

theorem of_yields (h : Yields x P) (hnone : ∀ d, ¬ numerals d) : Reads x numerals := by
  obtain ⟨a, rfl, -⟩ := h
  exact ⟨fun _ _ d hd => absurd hd (hnone d), fun f hf => (nomatch hf)⟩

theorem result (h : Reads x numerals) (hshort : ∀ d, numerals d → d.length ≤ Number.digitLimit) :
    ∃ a, x = .ok a := by
  cases x with
  | ok a => exact ⟨a, rfl⟩
  | error f =>
    obtain ⟨d, hd, hlong, -⟩ := h.long f rfl
    exact absurd (hshort d hd) (Nat.not_le.2 hlong)

theorem congr {numerals' : List Char → Prop} (h : Reads x numerals)
    (heq : ∀ d, numerals d ↔ numerals' d) : Reads x numerals' := by
  simp only [← funext fun d => propext (heq d)]
  exact h

/-- Reading after work that comes to a result. -/
theorem after {f : α → Except Fault β} (hx : Yields x P) (h : ∀ a, P a → Reads (f a) numerals) :
    Reads (x >>= f) numerals := by
  obtain ⟨a, rfl, ha⟩ := hx
  exact h a ha

/-- Work on what has been read. -/
theorem andThen {f : α → Except Fault β} {R : β → Prop} (h : Reads x numerals)
    (hf : ∀ a, Yields (f a) R) : Reads (x >>= f) numerals := by
  cases x with
  | error e =>
    refine ⟨fun _ hb => (nomatch hb), fun f' hf' => h.long f' ?_⟩
    cases hf'
    rfl
  | ok a =>
    refine ⟨fun _ _ => h.short a rfl, fun f' hf' => ?_⟩
    obtain ⟨b, hb, -⟩ := hf a
    cases hf'.symm.trans hb

theorem mapM {f : α → Except Fault β} {l : List α} {numerals : α → List Char → Prop}
    (h : ∀ a ∈ l, Reads (f a) (numerals a)) : Reads (l.mapM f) fun d => ∃ a ∈ l, numerals a d := by
  refine ⟨fun r hr d ⟨a, ha, hd⟩ => ?_, fun e he => ?_⟩
  · obtain ⟨b, -, hb⟩ := exists_of_mapM hr ha
    exact (h a ha).short b hb d hd
  · obtain ⟨a, ha, he⟩ := exists_error_of_mapM he
    obtain ⟨d, hd, hlong, rfl⟩ := (h a ha).long e he
    exact ⟨d, ⟨a, ha, hd⟩, hlong, rfl⟩

end Reads

/-- A level is read off its numeral. -/
theorem Precedence.level_reads (digits : List Char) : Reads (level digits) (· = digits) := by
  unfold level
  split
  · rename_i hlong
    exact ⟨fun _ h => (nomatch h), fun f hf => ⟨digits, rfl, hlong, (Except.error.inj hf).symm⟩⟩
  · rename_i hshort
    exact ⟨fun _ _ d hd => hd ▸ Nat.not_lt.1 hshort, fun _ h => (nomatch h)⟩

/-- A guard of a parser rule names a level by this numeral. -/
def Grammar.NamesLevel (g : Grammar) (digits : List Char) : Prop :=
  ∃ r ∈ g.parserRules, ∃ l, g.transitionsOf r.index = .ok l ∧ ∃ t ∈ l, t.kind = .predicate ∧
    digits ∈ Precedence.numerals (t.predicate.getD "")

namespace LeftRecursion

variable {a : LeftRecursion} (hg : a.grammar.Sound)
include hg

theorem leftmostCalls_yields {i : Int} (hi : a.grammar.Numbers i) :
    Yields (a.leftmostCalls i) fun _ => True := by
  refine (hg.ruleAt_yields hi).bind fun r hr => ?_
  refine (hg.silentWalk_yields _ _ (hg.start r hr)).bind fun met hmet => ?_
  exact (Yields.mapM fun s hs => hg.edges_yields (hmet s hs)).bind fun _ _ => .ok trivial

theorem isDirect_yields {r : Rule} (hr : r ∈ a.grammar.ruleList) :
    Yields (a.isDirect r) fun _ => True :=
  (leftmostCalls_yields hg ⟨r, hr, rfl⟩).bind fun _ _ => .ok trivial

theorem guardNumerals_yields {r : Rule} (hr : r ∈ a.grammar.ruleList) :
    Yields (a.guardNumerals r) fun numerals => ∀ d, d ∈ numerals ↔
      ∃ l, a.grammar.transitionsOf r.index = .ok l ∧ ∃ t ∈ l, t.kind = .predicate ∧
        d ∈ Precedence.numerals (t.predicate.getD "") := by
  obtain ⟨l, hl, -⟩ := hg.transitionsOf_yields ⟨r, hr, rfl⟩
  refine ⟨_, bind_eq_ok.2 ⟨l, hl, rfl⟩, fun d => ?_⟩
  simp [hl, and_assoc]

/-- The entry of a rule reads the numerals of its guards. -/
theorem entry?_reads {r : Rule} (hr : r ∈ a.grammar.ruleList) :
    Reads (a.entry? r) fun d => ∃ l, a.grammar.transitionsOf r.index = .ok l ∧ ∃ t ∈ l,
      t.kind = .predicate ∧ d ∈ Precedence.numerals (t.predicate.getD "") := by
  obtain ⟨numerals, hnumerals, hmem⟩ := guardNumerals_yields hg hr
  refine Reads.congr ?_ hmem
  have htransformed : a.isTransformed r = .ok !numerals.isEmpty := bind_eq_ok.2 ⟨numerals, hnumerals, rfl⟩
  have hlevels : Reads (a.levels r) (· ∈ numerals) := by
    have hread : Reads (numerals.mapM Precedence.level) (· ∈ numerals) :=
      (Reads.mapM fun d _ => Precedence.level_reads d).congr fun d => by simp
    unfold levels
    rw [hnumerals]
    exact hread.andThen fun _ => .ok (P := fun _ => True) trivial
  unfold entry?
  rw [htransformed]
  refine .after (isDirect_yields hg hr) fun direct _ => ?_
  cases numerals with
  | nil => cases direct <;> exact .of_yields (.ok (P := fun _ => True) trivial) (by simp)
  | cons d l =>
    cases direct <;> exact hlevels.andThen fun _ => .ok (P := fun _ => True) trivial

omit hg in
theorem numbers_of_parserRules {i : Int} (hi : i ∈ a.grammar.parserRules.map Rule.index) :
    a.grammar.Numbers i := by
  obtain ⟨r, hr, rfl⟩ := List.mem_map.1 hi
  exact ⟨r, List.mem_of_mem_filter hr, rfl⟩

theorem graph_yields : Yields (a.graph (a.grammar.parserRules.map Rule.index)) fun _ => True := by
  have hrows : Yields ((a.grammar.parserRules.map Rule.index).mapM fun i => do
      return (i, ← a.calleesOf (a.grammar.parserRules.map Rule.index) i)) fun _ => True := by
    refine (Yields.mapM (R := fun _ _ => True) fun i hi => ?_).mono fun _ _ => trivial
    have hcallees : Yields (a.calleesOf (a.grammar.parserRules.map Rule.index) i) fun _ => True :=
      (leftmostCalls_yields hg (numbers_of_parserRules hi)).bind fun _ _ => .ok trivial
    exact hcallees.bind fun _ _ => .ok trivial
  unfold graph
  refine .ite (fun _ => hrows.bind fun _ _ => .ok trivial) fun _ => ?_
  exact hg.callTable_yields.bind fun _ _ => .ok trivial

/-- The report reads the numerals of all guards of parser rules. -/
theorem report_reads : Reads a.report a.grammar.NamesLevel := by
  have hindirect : Yields a.indirect fun _ => True :=
    (graph_yields hg).bind fun _ _ => .ok trivial
  refine (Reads.mapM fun r hr => entry?_reads hg (List.mem_of_mem_filter hr)).andThen
    (R := fun _ => True) fun _ => ?_
  exact hindirect.bind fun _ _ => .ok trivial

end LeftRecursion

theorem LeftRecursion.ofGrammar_yields {g : Grammar} (hg : g.Sound) (verified : Bool) :
    Yields (LeftRecursion.ofGrammar g verified) fun a => a.grammar = g := by
  exact .ite (fun _ => hg.nullable_yields.bind fun _ _ => .ok rfl) fun _ => .ok rfl

theorem Grammar.Sound.leftRecursion_reads {g : Grammar} (hg : g.Sound) (verified : Bool) :
    Reads (g.leftRecursion verified) g.NamesLevel :=
  .after (LeftRecursion.ofGrammar_yields hg verified) fun a ha => by
    obtain rfl := ha
    exact LeftRecursion.report_reads hg

end RuleNetwork
