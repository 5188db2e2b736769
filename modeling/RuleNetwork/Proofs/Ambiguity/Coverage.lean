import RuleNetwork.Proofs.Ambiguity.Tally
import RuleNetwork.Proofs.Container
import RuleNetwork.Proofs.Sorting
import RuleNetwork.Proofs.Validation.Walks

/-!
What runs cover, rule by rule: the rules that some parse visited are told in the order of their
declaration, and of each of them the alternatives that some parse took. So the coverage of some runs is
the union of those of any two parts.
-/

set_option autoImplicit false

namespace RuleNetwork

theorem Position.forward?_map {α β : Type} (f : α → β) (xs : Array α) (i : Int) :
    forward? (xs.map f) i = (forward? xs i).map f := by
  unfold forward?
  split
  · exact Array.getElem?_map
  · rfl

/-- Rules are in strict order of the numbers that they bear. -/
theorem Grammar.Sound.pairwise_index {g : Grammar} (hg : g.Sound) :
    g.ruleList.Pairwise fun r r' => r.index < r'.index := by
  refine List.pairwise_iff_getElem.2 fun i j hi hj hij => ?_
  have hindex : ∀ k (hk : k < g.ruleList.length), g.ruleList[k].index = k := fun k hk =>
    hg.index (by rw [← Array.getElem?_toList]; exact List.getElem?_eq_getElem hk)
  rw [hindex, hindex]
  exact Int.ofNat_lt.2 hij

theorem Grammar.Sound.forward?_eq_some {g : Grammar} (hg : g.Sound) {i : Int} {r : Rule} :
    Position.forward? g.rules i = some r ↔ r ∈ g.ruleList ∧ r.index = i := by
  rw [← ruleAt_eq_ok]
  constructor
  · exact hg.mem_of_ruleAt
  · rintro ⟨hr, rfl⟩
    exact hg.ruleAt_index hr

namespace Tally

variable {g : Grammar}

/-- What is listed by number, one entry for each, is told by name in the order of the rules. -/
theorem named_eq (hg : g.Sound) {α : Type} {l : List (Int × α)} (h : (l.map Prod.fst).Nodup)
    {find : Int → Option α} (hfind : ∀ i x, find i = some x ↔ (i, x) ∈ l) :
    named g.ruleNames l = g.ruleList.filterMap fun r => (find r.index).map fun x => (r.name, x) := by
  have hnumbers : (l.mergeSort fun a b => decide (a.1 ≤ b.1)).Pairwise fun a b => a.1 < b.1 :=
    pairwise_lt_mergeSort h
  -- names need not be in any order, so the rules themselves are put beside what is told of them
  have hsorted : ((l.mergeSort fun a b => decide (a.1 ≤ b.1)).filterMap fun e =>
      (Position.forward? g.rules e.1).map fun r => (r, e.2)).Pairwise
        fun x y => x.1.index < y.1.index := by
    refine hnumbers.filterMap _ fun e e' hlt x hx x' hx' => ?_
    obtain ⟨r, hr, rfl⟩ := Option.map_eq_some_iff.1 hx
    obtain ⟨r', hr', rfl⟩ := Option.map_eq_some_iff.1 hx'
    rwa [(hg.forward?_eq_some.1 hr).2, (hg.forward?_eq_some.1 hr').2]
  have hlisted : (g.ruleList.filterMap fun r => (find r.index).map fun x => (r, x)).Pairwise
      fun x y => x.1.index < y.1.index := by
    refine hg.pairwise_index.filterMap _ fun r r' hlt x hx x' hx' => ?_
    obtain ⟨e, -, rfl⟩ := Option.map_eq_some_iff.1 hx
    obtain ⟨e', -, rfl⟩ := Option.map_eq_some_iff.1 hx'
    exact hlt
  have hrules := eq_of_pairwise_lt hsorted hlisted fun x => by
    simp only [List.mem_filterMap, List.mem_mergeSort, Option.map_eq_some_iff]
    constructor
    · rintro ⟨e, he, r, hr, rfl⟩
      obtain ⟨hr, hindex⟩ := hg.forward?_eq_some.1 hr
      exact ⟨r, hr, e.2, (hfind _ _).2 (hindex ▸ he), rfl⟩
    · rintro ⟨r, hr, x, hx, rfl⟩
      exact ⟨(r.index, x), (hfind _ _).1 hx, r, hg.forward?_eq_some.2 ⟨hr, rfl⟩, rfl⟩
  have hnames := congrArg (List.map fun x : Rule × α => (x.1.name, x.2)) hrules
  simp only [List.map_filterMap, Option.map_map, Function.comp_def] at hnames
  rw [← hnames, named]
  refine List.filterMap_congr fun ⟨i, x⟩ _ => ?_
  simp only [Grammar.ruleNames, Position.forward?_map, Option.map_map, Function.comp_def]

theorem distinct_eq {l l' : List Int} (h : ∀ a, a ∈ l ↔ a ∈ l') : distinct l = distinct l' := by
  have hsorted : ∀ m : List Int, (distinct m).Pairwise fun a b => a < b := fun m =>
    pairwise_lt_mergeSort (by rw [List.map_id']; exact nodup_eraseDups m)
  refine eq_of_pairwise_lt (hsorted l) (hsorted l') fun a => ?_
  rw [distinct, distinct, List.mem_mergeSort, List.mem_mergeSort, List.mem_eraseDups,
    List.mem_eraseDups, h]

theorem mem_distinct {l : List Int} {a : Int} : a ∈ distinct l ↔ a ∈ l := by
  rw [distinct, List.mem_mergeSort, List.mem_eraseDups]

end Tally

/-- What some runs took of the alternatives of a rule. -/
def SampleRun.takenOf (runs : List SampleRun) (i : Int) : List Int :=
  ((runs.flatMap SampleRun.taken).filter fun e => e.1 = i).flatMap Prod.snd

theorem SampleRun.takenOf_eq_nil {runs : List SampleRun} {i : Int}
    (h : i ∉ (runs.flatMap SampleRun.taken).map Prod.fst) : takenOf runs i = [] := by
  rw [takenOf, List.filter_eq_nil_iff.2, List.flatMap_nil]
  exact fun e he hei => h (List.mem_map.2 ⟨e, he, of_decide_eq_true hei⟩)

/-- The coverage of some runs. -/
structure Coverage.Covers (g : Grammar) (runs : List SampleRun) (c : Coverage) : Prop where
  rules : c.rules = (g.ruleList.filter fun r => r.index ∈ runs.flatMap SampleRun.rules).map Rule.name
  alternatives : c.alternatives.entries =
    (g.ruleList.filter fun r => r.index ∈ (runs.flatMap SampleRun.taken).map Prod.fst).map fun r =>
      (r.name, Tally.distinct (SampleRun.takenOf runs r.index))
  declared : c.declared = g.rules.size

/-- It does not matter in which order the runs come. -/
theorem Coverage.Covers.of_perm {g : Grammar} {runs runs' : List SampleRun} {c : Coverage}
    (h : c.Covers g runs) (hperm : runs.Perm runs') : c.Covers g runs' := by
  have htaken := hperm.flatMap_right SampleRun.taken
  refine ⟨h.rules.trans ?_, h.alternatives.trans ?_, h.declared⟩
  · simp only [(hperm.flatMap_right SampleRun.rules).mem_iff]
  · simp only [(htaken.map Prod.fst).mem_iff]
    refine List.map_congr_left fun r _ => congrArg _ (Tally.distinct_eq fun a => ?_)
    exact ((htaken.filter _).flatMap_right _).mem_iff

theorem filterMap_ite {α β : Type} (p : α → Prop) [DecidablePred p] (f : α → β) (l : List α) :
    (l.filterMap fun a => if p a then some (f a) else none) = (l.filter fun a => p a).map f := by
  rw [← List.filterMap_eq_map, List.filterMap_filter]
  simp only [decide_eq_true_eq, Function.comp_apply]

namespace Tally

theorem get?_addAlternatives (runs : List SampleRun) (i : Int) :
    ((runs.flatMap SampleRun.taken).foldl addAlternatives ∅).get? i =
      if i ∈ (runs.flatMap SampleRun.taken).map Prod.fst then some (SampleRun.takenOf runs i)
      else none := by
  have hgroups : OrderedMap.Groups Prod.fst (fun _ => []) (fun l (e : Int × List Int) => l ++ e.2)
      addAlternatives := fun _ _ => rfl
  rw [hgroups.get?_foldl_empty, List.foldl_append_eq_append, List.nil_append, ← List.flatMap_def]
  rfl

/-- What a tally covers. -/
theorem Gathers.covers {g : Grammar} (hg : g.Sound) (hnames : (g.ruleList.map Rule.name).Nodup)
    {name : Int → String → String} {runs : List SampleRun} {t : Tally} (h : t.Gathers name runs) :
    (t.coverage g).Covers g runs := by
  refine ⟨?_, ?_, rfl⟩
  · have hnodup : ((t.rules.toList.map fun i => (i, ())).map Prod.fst).Nodup := by
      rw [List.map_map]
      simpa only [Function.comp_def, List.map_id'] using t.rules.nodup_toList
    have hfind : ∀ i u, (if i ∈ runs.flatMap SampleRun.rules then some () else none) = some u ↔
        (i, u) ∈ t.rules.toList.map fun i => (i, ()) := fun i u => by
      rw [h.rules]
      simp
    rw [coverage, named_eq hg hnodup hfind]
    simp only [apply_ite (Option.map _), Option.map_some, Option.map_none]
    rw [filterMap_ite, List.map_map]
    rfl
  · have hnodup : ((t.alternatives.entries.map fun e => (e.1, distinct e.2)).map Prod.fst).Nodup := by
      rw [List.map_map]
      exact t.alternatives.nodup
    have hfind : ∀ i l, (if i ∈ (runs.flatMap SampleRun.taken).map Prod.fst then
        some (distinct (SampleRun.takenOf runs i)) else none) = some l ↔
          (i, l) ∈ t.alternatives.entries.map fun e => (e.1, distinct e.2) := fun i l => by
      have hget := get?_addAlternatives runs i
      rw [← h.alternatives] at hget
      rw [← Option.map_some, ← Option.map_none, ← apply_ite (Option.map distinct), ← hget,
        Option.map_eq_some_iff, List.mem_map]
      simp only [OrderedMap.get?_eq_some_iff, Prod.exists, Prod.mk.injEq]
      constructor
      · rintro ⟨l', hl', rfl⟩
        exact ⟨i, l', hl', rfl, rfl⟩
      · rintro ⟨_, l', hl', rfl, rfl⟩
        exact ⟨l', hl', rfl⟩
    rw [coverage, named_eq hg hnodup hfind]
    simp only [apply_ite (Option.map _), Option.map_some, Option.map_none]
    rw [filterMap_ite]
    refine OrderedMap.entries_ofList ?_
    rw [List.map_map]
    exact hnames.sublist (List.filter_sublist.map _)

end Tally

/-- What is there if one test or the other holds, put together from what is there for each. -/
theorem ite_or_eq_merge {α : Type} {p q : Prop} [Decidable p] [Decidable q] {f : α → α → α} {a b c : α}
    (hboth : p → q → c = f a b) (hfirst : p → ¬ q → c = a) (hsecond : ¬ p → q → c = b) :
    (if p ∨ q then some c else none) =
      Option.merge f (if p then some a else none) (if q then some b else none) := by
  by_cases hp : p
  · by_cases hq : q
    · simp only [hp, hq, or_self, if_true, Option.merge_some_some, hboth hp hq]
    · simp only [hp, hq, or_false, if_true, if_false, Option.merge_none_right, hfirst hp hq]
  · by_cases hq : q
    · simp only [hp, hq, false_or, if_true, if_false, Option.merge_none_left, hsecond hp hq]
    · simp only [hp, hq, or_self, if_false, Option.merge_none_left]

/-- A coverage that is the union of two: of the rules that one or the other tells of, in the order of the
rules, each with the alternatives that one or the other has for it. -/
structure Coverage.Joins (g : Grammar) (c c₁ c₂ : Coverage) : Prop where
  rules : c.rules = g.ruleNames.toList.filter fun n => n ∈ c₁.rules ∨ n ∈ c₂.rules
  keys : c.alternatives.keys =
    g.ruleNames.toList.filter fun n => n ∈ c₁.alternatives.keys ∨ n ∈ c₂.alternatives.keys
  alternatives : ∀ n, c.alternatives.get? n = Option.merge (fun l l' => Tally.distinct (l ++ l'))
    (c₁.alternatives.get? n) (c₂.alternatives.get? n)
  declared : c.declared = c₁.declared ∧ c.declared = c₂.declared

namespace Coverage.Covers

variable {g : Grammar} (hnames : (g.ruleList.map Rule.name).Nodup) {runs : List SampleRun} {c : Coverage}
  (h : c.Covers g runs)

include hnames

/-- Rules that some test picks out, known by their names. -/
theorem name_mem_filter {r : Rule} (hr : r ∈ g.ruleList) (p : Rule → Bool) :
    r.name ∈ (g.ruleList.filter p).map Rule.name ↔ p r = true := by
  constructor
  · intro hn
    obtain ⟨r', hr', hname⟩ := List.mem_map.1 hn
    obtain ⟨hr', hp⟩ := List.mem_filter.1 hr'
    rwa [List.inj_on_of_nodup_map hnames hr' hr hname] at hp
  · exact fun hp => List.mem_map_of_mem (List.mem_filter.2 ⟨hr, hp⟩)

/-- Rules in their order, if each is picked out by one of two tests. -/
theorem map_filter_or {p p₁ p₂ : Rule → Bool} (hp : ∀ r, p r = true ↔ p₁ r = true ∨ p₂ r = true) :
    (g.ruleList.filter p).map Rule.name = g.ruleNames.toList.filter fun n =>
      n ∈ (g.ruleList.filter p₁).map Rule.name ∨ n ∈ (g.ruleList.filter p₂).map Rule.name := by
  have hlist : g.ruleNames.toList = g.ruleList.map Rule.name := Array.toList_map
  rw [hlist, List.filter_map]
  refine congrArg _ (List.filter_congr fun r hr => ?_)
  rw [Function.comp_apply, Bool.eq_iff_iff, hp, decide_eq_true_iff, name_mem_filter hnames hr,
    name_mem_filter hnames hr]

include h

/-- The alternatives told of a rule. -/
theorem get?_name {r : Rule} (hr : r ∈ g.ruleList) : c.alternatives.get? r.name =
    if r.index ∈ (runs.flatMap SampleRun.taken).map Prod.fst
    then some (Tally.distinct (SampleRun.takenOf runs r.index)) else none := by
  refine Option.ext fun l => ?_
  rw [OrderedMap.get?_eq_some_iff, h.alternatives, List.mem_map]
  simp only [List.mem_filter, decide_eq_true_eq, Option.ite_none_right_eq_some, Option.some.injEq,
    Prod.mk.injEq]
  constructor
  · rintro ⟨r', ⟨hr', hin⟩, hname, rfl⟩
    obtain rfl := List.inj_on_of_nodup_map hnames hr' hr hname
    exact ⟨hin, rfl⟩
  · rintro ⟨hin, rfl⟩
    exact ⟨r, ⟨hr, hin⟩, rfl, rfl⟩

omit hnames in
theorem get?_of_not_mem {n : String} (hn : n ∉ g.ruleList.map Rule.name) :
    c.alternatives.get? n = none := by
  refine Option.eq_none_iff_forall_ne_some.2 fun l hl => hn ?_
  rw [OrderedMap.get?_eq_some_iff, h.alternatives] at hl
  obtain ⟨r, hr, he⟩ := List.mem_map.1 hl
  cases he
  exact List.mem_map_of_mem (List.mem_of_mem_filter hr)

/-- The coverage of some runs is that of two parts taken together. -/
theorem joins {first second : List SampleRun} {c₁ c₂ : Coverage} (h₁ : c₁.Covers g first)
    (h₂ : c₂.Covers g second) (hperm : runs.Perm (first ++ second)) : c.Joins g c₁ c₂ := by
  have hmem : ∀ {β : Type} (f : SampleRun → List β) (x : β),
      x ∈ runs.flatMap f ↔ x ∈ first.flatMap f ∨ x ∈ second.flatMap f := fun f x => by
    rw [(hperm.flatMap_right f).mem_iff, List.flatMap_append, List.mem_append]
  have hkey : ∀ i, i ∈ (runs.flatMap SampleRun.taken).map Prod.fst ↔
      i ∈ (first.flatMap SampleRun.taken).map Prod.fst ∨
        i ∈ (second.flatMap SampleRun.taken).map Prod.fst := fun i => by
    simp only [List.mem_map, hmem, or_and_right, exists_or]
  have htaken : ∀ i a, a ∈ SampleRun.takenOf runs i ↔
      a ∈ SampleRun.takenOf first i ∨ a ∈ SampleRun.takenOf second i := fun i a => by
    simp only [SampleRun.takenOf, List.mem_flatMap, List.mem_filter, hmem, or_and_right, exists_or]
  have hkeys : ∀ {part : List SampleRun} {c' : Coverage}, c'.Covers g part → c'.alternatives.keys =
      (g.ruleList.filter fun r => r.index ∈ (part.flatMap SampleRun.taken).map Prod.fst).map Rule.name := by
    intro part c' h'
    rw [OrderedMap.keys, h'.alternatives, List.map_map]
    rfl
  refine ⟨?_, ?_, fun n => ?_, h.declared.trans h₁.declared.symm, h.declared.trans h₂.declared.symm⟩
  · rw [h.rules, h₁.rules, h₂.rules]
    refine map_filter_or hnames fun r => ?_
    simp only [decide_eq_true_eq, hmem]
  · rw [hkeys h, hkeys h₁, hkeys h₂]
    refine map_filter_or hnames fun r => ?_
    simp only [decide_eq_true_eq, hkey]
  · by_cases hn : n ∈ g.ruleList.map Rule.name
    · obtain ⟨r, hr, rfl⟩ := List.mem_map.1 hn
      rw [h.get?_name hnames hr, h₁.get?_name hnames hr, h₂.get?_name hnames hr]
      simp only [hkey]
      -- a part that tells of no alternatives of the rule has none to add
      refine ite_or_eq_merge (fun _ _ => ?_) (fun _ hsecond => ?_) fun hfirst _ => ?_
      · refine Tally.distinct_eq fun a => ?_
        rw [List.mem_append, Tally.mem_distinct, Tally.mem_distinct, htaken]
      · refine Tally.distinct_eq fun a => ?_
        rw [htaken, SampleRun.takenOf_eq_nil hsecond, or_iff_left List.not_mem_nil]
      · refine Tally.distinct_eq fun a => ?_
        rw [htaken, SampleRun.takenOf_eq_nil hfirst, or_iff_right List.not_mem_nil]
    · rw [h.get?_of_not_mem hn, h₁.get?_of_not_mem hn, h₂.get?_of_not_mem hn]
      rfl

end Coverage.Covers

end RuleNetwork
