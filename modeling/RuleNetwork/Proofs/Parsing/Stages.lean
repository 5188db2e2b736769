import RuleNetwork.Parsing.Parse
import RuleNetwork.Proofs.Attempt

/-!
What a parse that comes to its end has gone through: its chart, the useful visits, the ties that it
noted, and the execution told from them.
-/

set_option autoImplicit false

namespace RuleNetwork

namespace Cancellable

variable {α β : Type}

theorem bind_ok {x : Cancellable α} {f : α → Cancellable β} {s s' : Option Nat} {b : β}
    (h : (x >>= f).run s = .ok (b, s')) :
    ∃ a s₁, x.run s = .ok (a, s₁) ∧ (f a).run s₁ = .ok (b, s') := by
  simp only [StateT.run_bind] at h
  cases hx : x.run s with
  | error e => rw [hx] at h; cases h
  | ok p =>
    rw [hx] at h
    exact ⟨p.1, p.2, rfl, h⟩

theorem lift_ok {x : Except Fault α} {s s' : Option Nat} {a : α}
    (h : (liftM x : Cancellable α).run s = .ok (a, s')) : x = .ok a ∧ s' = s := by
  cases x with
  | error e => cases h
  | ok b => cases h; exact ⟨rfl, rfl⟩

theorem run_bind_of_ok {x : Cancellable α} {f : α → Cancellable β} {s s' : Option Nat} {a : α}
    (h : x.run s = .ok (a, s')) : (x >>= f).run s = (f a).run s' := by
  rw [StateT.run_bind, h]
  rfl

theorem run_lift_of_ok {x : Except Fault α} {a : α} (s : Option Nat) (h : x = .ok a) :
    (liftM x : Cancellable α).run s = .ok (a, s) := by
  subst h
  rfl

end Cancellable

theorem Stage.run_of_result {α : Type} {s : Stage α} {a : α} (h : s.result = .ok a) :
    s.run.run none = .ok (a, none) := by
  change s.run none = _
  rw [Stage.run_none, h]
  rfl

theorem Stage.result_of_run {α : Type} {s : Stage α} {granted left : Option Nat} {a : α}
    (h : s.run.run granted = .ok (a, left)) : s.result = .ok a := by
  have key : ∀ {x : Except Fault α} {o : Option Nat},
      (do return (← x, o) : Except Fault (α × Option Nat)) = .ok (a, left) → x = .ok a := by
    intro x o hx
    cases x with
    | error e => cases hx
    | ok b => cases hx; rfl
  change s.run granted = .ok (a, left) at h
  unfold Stage.run at h
  split at h
  · exact key h
  · split at h
    · cases h
    · exact key h

open Cancellable

/-- The stages of a parse up to its ties. -/
structure ParseTables.Staged (p : ParseTables) (rule : Int) (tokens : TokenStream)
    (c : Chart) (u : OrderedSet Visit) (g : Groups) (n : Counts) (t : Ties) : Prop where
  chart : (Chart.recognize p.index tokens.types rule).result = .ok c
  useful : (c.useful c.seeds).result = .ok u
  groups : c.groups u = .ok g
  counts : (c.counts (some g) u).result = .ok n
  ties : u.toList.foldlM Ties.note
    ⟨c, u, g, n, if c.isAccepted then none else some c.furthest, ∅, ∅, ∅⟩ = .ok t

/-- The traces that the stages leave behind. -/
def ParseTables.traces (p : ParseTables) (tokens : TokenStream) (u : OrderedSet Visit) (t : Ties) :
    Traces :=
  ⟨p, tokens, t, u.toList.mergeSort Visit.precedes⟩

/-- The stages that a parse has been through. -/
structure ParseTables.Parsed (p : ParseTables) (rule : Int) (tokens : TokenStream) (x : Execution)
    (c : Chart) (u : OrderedSet Visit) (g : Groups) (n : Counts) (t : Ties) : Prop
    extends p.Staged rule tokens c u g n t where
  execution : (p.traces tokens u t).execution = .ok x

theorem ParseTables.parsed_of_run {p : ParseTables} {rule : Int} {tokens : TokenStream}
    {x : Execution} {granted left : Option Nat}
    (h : (p.parse rule tokens).run granted = .ok (x, left)) :
    ∃ chart useful groups counts ties, p.Parsed rule tokens x chart useful groups counts ties := by
  unfold ParseTables.parse at h
  obtain ⟨r, s₁, hr, h⟩ := bind_ok h
  obtain ⟨chart, s₂, hchart, h⟩ := bind_ok h
  obtain ⟨useful, s₃, huseful, h⟩ := bind_ok h
  obtain ⟨ties, s₄, hties, h⟩ := bind_ok h
  unfold Ties.ofChart at hties
  obtain ⟨groups, s₅, hgroups, hties⟩ := bind_ok hties
  obtain ⟨counts, s₆, hcounts, hties⟩ := bind_ok hties
  exact ⟨chart, useful, groups, counts, ties, ⟨Stage.result_of_run hchart,
    Stage.result_of_run huseful, (lift_ok hgroups).1, Stage.result_of_run hcounts,
    (lift_ok hties).1⟩, (lift_ok h).1⟩

theorem Ties.ofChart_run {c : Chart} {u : OrderedSet Visit} {m : Groups} {n : Counts} {t : Ties}
    (hgroups : c.groups u = .ok m) (hcounts : (c.counts (some m) u).result = .ok n)
    (hties : u.toList.foldlM Ties.note
      ⟨c, u, m, n, if c.isAccepted then none else some c.furthest, ∅, ∅, ∅⟩ = .ok t) :
    (Ties.ofChart c u).run none = .ok (t, none) := by
  unfold Ties.ofChart
  rw [run_bind_of_ok (run_lift_of_ok none hgroups), run_bind_of_ok (Stage.run_of_result hcounts)]
  exact run_lift_of_ok none hties

theorem ParseTables.run_of_parsed {p : ParseTables} {rule : Int} {tokens : TokenStream}
    {x : Execution} {c : Chart} {u : OrderedSet Visit} {m : Groups} {n : Counts} {t : Ties}
    (h : p.Parsed rule tokens x c u m n t) {r : Rule} (hr : p.grammar.ruleAt rule = .ok r) :
    (p.parse rule tokens).run none = .ok (x, none) := by
  unfold ParseTables.parse
  rw [run_bind_of_ok (run_lift_of_ok none hr), run_bind_of_ok (Stage.run_of_result h.chart),
    run_bind_of_ok (Stage.run_of_result h.useful),
    run_bind_of_ok (Ties.ofChart_run h.groups h.counts h.ties)]
  exact run_lift_of_ok none h.execution

/-- A parse that comes to its end has one result. -/
theorem ParseTables.Parsed.unique {p : ParseTables} {rule : Int} {tokens : TokenStream}
    {x x' : Execution} {c c' : Chart} {u u' : OrderedSet Visit} {m m' : Groups} {n n' : Counts}
    {t t' : Ties} (h : p.Parsed rule tokens x c u m n t) (h' : p.Parsed rule tokens x' c' u' m' n' t') :
    x = x' := by
  obtain ⟨⟨hc, hu, hm, hn, ht⟩, hx⟩ := h
  obtain ⟨⟨hc', hu', hm', hn', ht'⟩, hx'⟩ := h'
  obtain rfl := Except.ok.inj (hc.symm.trans hc')
  obtain rfl := Except.ok.inj (hu.symm.trans hu')
  obtain rfl := Except.ok.inj (hm.symm.trans hm')
  obtain rfl := Except.ok.inj (hn.symm.trans hn')
  obtain rfl := Except.ok.inj (ht.symm.trans ht')
  exact Except.ok.inj (hx.symm.trans hx')

/-- What an execution tells of its traces. -/
structure Traces.Tells (x : Traces) (e : Execution) : Prop where
  outcome : e.outcome = .succeeded ↔ x.chart.isAccepted = true
  fatal : e.outcome = .failedFatal ↔ x.chart.isAccepted = false ∧ x.chart.furthest = 0
  errorToken : e.errorToken =
    if x.chart.isAccepted then none else some ((x.tokens.tokenAt x.chart.furthest).index : Int)
  events : ∃ found ties, x.decisionVisits = .ok found ∧ found.mapM x.tie? = .ok ties ∧
    x.events (ties.filterMap id) = .ok e.events
  coverage : x.rulesVisited = .ok e.visitedRules ∧ ∃ found, x.decisionVisits = .ok found ∧
    e.visitedAlternatives = x.alternatives e.visitedRules found

theorem Traces.tells_of_execution {x : Traces} {e : Execution} (h : x.execution = .ok e) :
    x.Tells e := by
  unfold execution at h
  obtain ⟨rules, hrules, h⟩ := bind_eq_ok.1 h
  obtain ⟨found, hfound, h⟩ := bind_eq_ok.1 h
  obtain ⟨sets, -, h⟩ := bind_eq_ok.1 h
  obtain ⟨ties, hties, h⟩ := bind_eq_ok.1 h
  obtain ⟨events, hevents, h⟩ := bind_eq_ok.1 h
  obtain rfl := pure_eq_ok.1 h
  refine ⟨?_, ?_, rfl, ⟨found, ties, hfound, hties, hevents⟩, hrules, found, hfound, rfl⟩
  all_goals
    by_cases ha : x.chart.isAccepted = true
    · simp [ha]
    · by_cases hf : 0 < x.chart.furthest
      · simp [ha, hf, Nat.ne_of_gt hf]
      · simp [ha, hf]
        try omega

namespace Ties

/-- The same chart with the same counts; what is noted of its calls may differ. -/
structure Alike (t t' : Ties) : Prop where
  chart : t'.chart = t.chart
  useful : t'.useful = t.useful
  groups : t'.groups = t.groups
  counts : t'.counts = t.counts
  openAt : t'.openAt = t.openAt

theorem Alike.refl (t : Ties) : t.Alike t := ⟨rfl, rfl, rfl, rfl, rfl⟩

theorem Alike.trans {t t' t'' : Ties} (h : t.Alike t') (h' : t'.Alike t'') : t.Alike t'' :=
  ⟨h'.chart.trans h.chart, h'.useful.trans h.useful, h'.groups.trans h.groups,
    h'.counts.trans h.counts, h'.openAt.trans h.openAt⟩

theorem alike_noteOpen (t : Ties) (i : Invocation) (v : Visit) : t.Alike (t.noteOpen i v) := by
  unfold noteOpen
  split
  · exact ⟨rfl, rfl, rfl, rfl, rfl⟩
  · exact .refl t

theorem alike_noteCalls (t : Ties) (v : Visit) (edges : List Transition) :
    t.Alike (edges.foldl (noteCall v) t) := by
  induction edges generalizing t with
  | nil => exact .refl t
  | cons e edges ih =>
    refine Alike.trans ?_ (ih (noteCall v t e))
    unfold noteCall
    split
    · exact ⟨rfl, rfl, rfl, rfl, rfl⟩
    · exact .refl _

theorem alike_note {t t' : Ties} {v : Visit} (h : t.note v = .ok t') : t.Alike t' := by
  unfold note at h
  obtain ⟨s, -, h⟩ := bind_eq_ok.1 h
  simp only at h
  split at h
  · obtain rfl := pure_eq_ok.1 h
    exact (t.alike_noteOpen _ v).trans ⟨rfl, rfl, rfl, rfl, rfl⟩
  · obtain ⟨edges, -, h⟩ := bind_eq_ok.1 h
    obtain rfl := pure_eq_ok.1 h
    exact (t.alike_noteOpen _ v).trans (alike_noteCalls _ v edges)

theorem alike_notes {t t' : Ties} {l : List Visit} (h : l.foldlM note t = .ok t') : t.Alike t' := by
  induction l generalizing t with
  | nil => cases h; exact .refl _
  | cons v l ih =>
    obtain ⟨t₁, hv, h⟩ := foldlM_cons_eq_ok.1 h
    exact (alike_note hv).trans (ih h)

end Ties

namespace ParseTables.Staged

variable {p : ParseTables} {rule : Int} {tokens : TokenStream} {c : Chart} {u : OrderedSet Visit}
  {m : Groups} {n : Counts} {t : Ties} (h : p.Staged rule tokens c u m n t)
include h

theorem chart_eq : (p.traces tokens u t).ties.chart = c := (Ties.alike_notes h.ties).chart

theorem useful_eq : (p.traces tokens u t).ties.useful = u := (Ties.alike_notes h.ties).useful

end ParseTables.Staged

end RuleNetwork
