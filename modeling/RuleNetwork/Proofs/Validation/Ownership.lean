import Mathlib.Order.Lattice.Nat
import RuleNetwork.Proofs.Grammar.Declarations
import RuleNetwork.Proofs.Validation.Sufficiency

/-!
The states of a rule. A walk lists what the start of the rule leads to by edges that stay in the rule,
nearest first. The start is one of the rule's own states, so all that is listed is, and no state is
listed for two rules: where transitions cross from one rule into another, the walk does not follow.
-/

set_option autoImplicit false

namespace RuleNetwork

open Network Relation

namespace Network

/-- A transition leads from one state to another of the same rule; a call is stepped over. -/
def Edge (n : Network) (s s' : Int) : Prop :=
  ∃ st id t st', n.state s = .ok st ∧ id ∈ st.transitions ∧ n.transition id = .ok t ∧ t.next = s' ∧
    n.state s' = .ok st' ∧ st'.rule = st.rule

theorem Edge.exists_next {n : Network} {s s' : Int} (h : n.Edge s s') :
    ∃ t ∈ n.transitions.toList, t.next = s' := by
  obtain ⟨st, id, t, st', -, -, ht, hnext, -⟩ := h
  obtain ⟨i, -, hi⟩ := Position.forward?_eq_some.1 (transition_eq_ok.1 ht)
  exact ⟨t, Array.mem_toList_iff.2 (Array.mem_of_getElem? hi), hnext⟩

/-- A number of edges, one after the other, leads from one state to another. -/
def Path (n : Network) (s : Int) : Nat → Int → Prop
  | 0, s' => s' = s
  | k + 1, s' => ∃ a, n.Path s k a ∧ n.Edge a s'

theorem exists_path_iff {n : Network} {s s' : Int} :
    (∃ k, n.Path s k s') ↔ ReflTransGen n.Edge s s' := by
  constructor
  · rintro ⟨k, hk⟩
    induction k generalizing s' with
    | zero =>
      obtain rfl : s' = s := hk
      exact .refl
    | succ k ih =>
      obtain ⟨a, ha, he⟩ := hk
      exact (ih ha).tail he
  · intro h
    induction h with
    | refl => exact ⟨0, rfl⟩
    | tail _ he ih =>
      obtain ⟨k, hk⟩ := ih
      exact ⟨k + 1, _, hk, he⟩

/-- The length of a shortest path, if there is one. -/
noncomputable def distance (n : Network) (s s' : Int) : Nat := sInf {k | n.Path s k s'}

theorem path_distance {n : Network} {s s' : Int} (h : ReflTransGen n.Edge s s') :
    n.Path s (n.distance s s') s' := Nat.sInf_mem (exists_path_iff.2 h)

theorem Path.distance_le {n : Network} {s s' : Int} {k : Nat} (h : n.Path s k s') :
    n.distance s s' ≤ k := Nat.sInf_le h

end Network

namespace Grammar

variable {g : Grammar}

/-- A check without errors finds the start of a rule among its states. -/
theorem ruleOf?_start (h : Clean g.structuralFindings) {r : Rule} (hr : r ∈ g.ruleList) :
    g.network.ruleOf? r.start = some r.index := by
  obtain ⟨i, hi⟩ := Array.mem_iff_getElem?.1 (Array.mem_toList_iff.1 hr)
  obtain ⟨st, hst⟩ := (sound_of_clean h).start r hr
  refine ruleOf?_eq_some.2 ⟨st, hst, ?_⟩
  by_contra hne
  have hfound : g.boundFinding? r .start = some (.badBound r.name r.start .start st.kind st.rule) := by
    simp only [boundFinding?, Bound.stateOf, state_eq_ok.1 hst]
    rw [if_neg fun hkind => hne hkind.2]
  have hmem := mem_ruleFindings hi (List.mem_append_right _
    (List.mem_filterMap.2 ⟨.start, List.mem_cons_self .., hfound⟩))
  have := h _ (List.mem_append_left _ (List.mem_append_left _ (List.mem_append_right _ hmem)))
  cases this

namespace Sound

variable (hg : g.Sound)
include hg

theorem step_iff {s s' : Int} : Search.Step g.network.steps s s' ↔ g.network.Edge s s' := by
  constructor
  · rintro ⟨l, hl, hmem⟩
    obtain ⟨row, hrow, hl⟩ := bind_eq_ok.1 hl
    obtain rfl := Except.ok.inj hl
    obtain ⟨out, hout, rfl⟩ := edges_eq hrow
    obtain ⟨e, he, rfl⟩ := List.mem_map.1 hmem
    obtain ⟨t, ht, rfl⟩ := List.mem_map.1 he
    obtain ⟨ht, hrule⟩ := List.mem_filter.1 ht
    obtain ⟨st, hst, hout⟩ := bind_eq_ok.1 hout
    obtain ⟨id, hid, ht⟩ := (mem_of_mapM hout).1 ht
    rw [ruleOf?_of_state hst, decide_eq_true_eq] at hrule
    obtain ⟨st', hst', hsame⟩ := ruleOf?_eq_some.1 hrule
    exact ⟨st, id, t, st', hst, hid, ht, rfl, hst', hsame⟩
  · rintro ⟨st, id, t, st', hst, hid, ht, rfl, hst', hsame⟩
    obtain ⟨row, hrow, -⟩ := hg.edges_yields ⟨st, hst⟩
    obtain ⟨out, hout, rfl⟩ := edges_eq hrow
    refine ⟨_, bind_eq_ok.2 ⟨_, hrow, rfl⟩, ?_⟩
    obtain ⟨st₀, hst₀, hout⟩ := bind_eq_ok.1 hout
    obtain rfl := Except.ok.inj (hst.symm.trans hst₀)
    have hin : t ∈ out := (mem_of_mapM hout).2 ⟨id, hid, ht⟩
    have hrule : g.network.ruleOf? t.next = g.network.ruleOf? s := by
      rw [ruleOf?_of_state hst, ruleOf?_of_state hst', hsame]
    exact List.mem_map_of_mem (f := Prod.snd) (List.mem_map_of_mem (f := fun t : Transition => (t, t.next))
      (List.mem_filter.2 ⟨hin, decide_eq_true hrule⟩))

theorem inSteps_iff {s s' : Int} {k : Nat} :
    Search.InSteps g.network.steps s k s' ↔ g.network.Path s k s' := by
  induction k generalizing s' with
  | zero => rfl
  | succ k ih => exact exists_congr fun a => and_congr ih hg.step_iff

theorem walksTo_iff {s s' : Int} : g.network.WalksTo s s' ↔ ReflTransGen g.network.Edge s s' := by
  unfold WalksTo
  rw [← Search.exists_inSteps_iff, ← exists_path_iff]
  exact exists_congr fun k => hg.inSteps_iff

theorem reachable_yields : Yields (g.reachable (g.ruleList.map Rule.index)) fun m =>
    ∀ r ∈ g.ruleList, ∃ l, g.walk r.index = .ok l ∧ OrderedMap.get? m r.index = some l := by
  obtain ⟨rows, hrows⟩ := exists_mapM (l := g.ruleList.map Rule.index)
    (f := fun i => do return (i, ← g.walk i)) fun i hi => by
      obtain ⟨r, hr, rfl⟩ := List.mem_map.1 hi
      obtain ⟨l, hl⟩ := (hg.walk_yields ⟨r, hr, rfl⟩).result
      exact ⟨_, bind_eq_ok.2 ⟨l, hl, rfl⟩⟩
  have hwalk : ∀ e ∈ rows, g.walk e.1 = .ok e.2 := fun e he => by
    obtain ⟨i, -, hi⟩ := (mem_of_mapM hrows).1 he
    obtain ⟨l, hl, he⟩ := bind_eq_ok.1 hi
    cases he
    exact hl
  refine ⟨_, bind_eq_ok.2 ⟨rows, hrows, rfl⟩, fun r hr => ?_⟩
  obtain ⟨l, hl⟩ := (hg.walk_yields ⟨r, hr, rfl⟩).result
  refine ⟨l, hl, (OrderedMap.get?_ofList_iff fun e he d hd hkey => ?_).2 ?_⟩
  · have hsame := hwalk e he
    rw [hkey, hwalk d hd] at hsame
    exact (Except.ok.inj hsame).symm
  · exact (mem_of_mapM hrows).2 ⟨r.index, List.mem_map_of_mem hr, bind_eq_ok.2 ⟨l, hl, rfl⟩⟩

/-- A walk lists what edges lead to from the start of the rule. -/
theorem mem_walk_iff_edges {r : Rule} (hr : r ∈ g.ruleList) {l : List Int}
    (hl : g.walk r.index = .ok l) {s : Int} : s ∈ l ↔ ReflTransGen g.network.Edge r.start s :=
  ((hg.mem_walk_iff hr).of_eq hl s).trans hg.walksTo_iff

end Sound

section Owners

variable (h : Clean g.structuralFindings)
include h

/-- All that the start of a rule leads to belongs to the rule. -/
theorem ruleOf?_of_edges {r : Rule} (hr : r ∈ g.ruleList) {s : Int}
    (hs : ReflTransGen g.network.Edge r.start s) : g.network.ruleOf? s = some r.index :=
  (WalksTo.ruleOf? ((sound_of_clean h).walksTo_iff.2 hs)).trans (ruleOf?_start h hr)

/-- With all walks at hand a state is found in the one that comes to it. -/
theorem owner?_iff {m : OrderedMap Int (List Int)} (hm : ∀ r ∈ g.ruleList,
      ∃ l, g.walk r.index = .ok l ∧ OrderedMap.get? m r.index = some l) {s i : Int} :
    g.owner? m s = some i ↔ ∃ r ∈ g.ruleList, r.index = i ∧ ReflTransGen g.network.Edge r.start s := by
  have hcontains : ∀ r ∈ g.ruleList, ((OrderedMap.get? m r.index).getD []).contains s = true ↔
      ReflTransGen g.network.Edge r.start s := fun r hr => by
    obtain ⟨l, hl, hget⟩ := hm r hr
    rw [hget, Option.getD_some, List.contains_iff_mem, (sound_of_clean h).mem_walk_iff_edges hr hl]
  unfold owner?
  rw [Option.map_eq_some_iff]
  constructor
  · rintro ⟨r, hfind, rfl⟩
    have hr := List.mem_of_find?_eq_some hfind
    have hin := List.find?_some hfind
    exact ⟨r, hr, rfl, (hcontains r hr).1 hin⟩
  · rintro ⟨r, hr, rfl, hs⟩
    -- the first rule found owns the state too, so it is the same one
    cases hfind : g.ruleList.find? fun r => ((OrderedMap.get? m r.index).getD []).contains s with
    | none => exact absurd ((hcontains r hr).2 hs) (List.find?_eq_none.1 hfind r hr)
    | some r' =>
      have hr' := List.mem_of_find?_eq_some hfind
      have hin := List.find?_some hfind
      have hs' := ruleOf?_of_edges h hr' ((hcontains r' hr').1 hin)
      exact ⟨r', rfl, Option.some.inj (hs'.symm.trans (ruleOf?_of_edges h hr hs))⟩

end Owners

end Grammar

/-- Whatever its transitions are, the walks of a grammar without errors are told by its edges: each
lists what they lead to from the start of the rule, once, nearest first, and all of it belongs to the
rule. So the walks have no state in common, and a state that a walk comes to is found with its rule. -/
theorem walks_of_validated {g : Grammar} {v : Validation} (hv : g.validation = .ok v)
    (hclean : v.fatal = []) :
    ∃ m, g.reachable (g.ruleList.map Rule.index) = .ok m ∧
      (∀ r ∈ g.ruleList, ∃ l, g.walk r.index = .ok l ∧ OrderedMap.get? m r.index = some l ∧ l.Nodup ∧
        (∀ s, s ∈ l ↔ ReflTransGen g.network.Edge r.start s) ∧
        (∀ s ∈ l, ∃ st, g.network.state s = .ok st ∧ st.rule = r.index) ∧
        l.Pairwise fun a b => g.network.distance r.start a ≤ g.network.distance r.start b) ∧
      (∀ r ∈ g.ruleList, ∀ r' ∈ g.ruleList, r ≠ r' → ∀ l l', OrderedMap.get? m r.index = some l →
        OrderedMap.get? m r'.index = some l' → l.Disjoint l') ∧
      (∀ s i, g.owner? m s = some i ↔
        ∃ r ∈ g.ruleList, r.index = i ∧ ReflTransGen g.network.Edge r.start s) ∧
      ∀ s st, g.network.state s = .ok st → g.owner? m s = some st.rule ∨ g.owner? m s = none := by
  have hfindings := (Validation.fatal_eq_nil_iff hv).1 hclean
  have hg := Grammar.sound_of_clean hfindings
  obtain ⟨m, hm, hrows⟩ := hg.reachable_yields
  have howned : ∀ r ∈ g.ruleList, ∀ l, OrderedMap.get? m r.index = some l →
      ∀ s ∈ l, g.network.ruleOf? s = some r.index := fun r hr l hget s hs => by
    obtain ⟨l', hl, hget'⟩ := hrows r hr
    obtain rfl := Option.some.inj (hget.symm.trans hget')
    exact Grammar.ruleOf?_of_edges hfindings hr ((hg.mem_walk_iff_edges hr hl).1 hs)
  refine ⟨m, hm, fun r hr => ?_, fun r hr r' hr' hne l l' hl hl' s hs hs' => ?_,
    fun s i => Grammar.owner?_iff hfindings hrows, fun s st hst => ?_⟩
  · obtain ⟨l, hl, hget⟩ := hrows r hr
    have horder := (hg.walk_breadth hr).of_eq hl
    refine ⟨l, hl, hget, horder.nodup, fun s => hg.mem_walk_iff_edges hr hl,
      fun s hs => ruleOf?_eq_some.1 (howned r hr l hget s hs), ?_⟩
    refine horder.nearer.imp_of_mem fun {a b} _ hb hnearer => ?_
    have hpath := path_distance ((hg.mem_walk_iff_edges hr hl).1 hb)
    obtain ⟨k, hk, ha⟩ := hnearer _ (hg.inSteps_iff.2 hpath)
    exact (hg.inSteps_iff.1 ha).distance_le.trans hk
  · have hindex := Option.some.inj
      ((howned r hr l hl s hs).symm.trans (howned r' hr' l' hl' s hs'))
    have hsame := hg.ruleAt_index hr
    rw [hindex, hg.ruleAt_index hr'] at hsame
    exact hne (Except.ok.inj hsame).symm
  · cases hfound : g.owner? m s with
    | none => exact .inr rfl
    | some i =>
      obtain ⟨r, hr, rfl, hs⟩ := (Grammar.owner?_iff hfindings hrows).1 hfound
      obtain ⟨st', hst', hrule⟩ := ruleOf?_eq_some.1 (Grammar.ruleOf?_of_edges hfindings hr hs)
      obtain rfl := Except.ok.inj (hst.symm.trans hst')
      exact .inl (congrArg some hrule.symm)

/-- Two rules. The first has a transition into the second, and a state that nothing leads to. -/
def Grammar.crossing : Grammar where
  name := "crossing"
  rules := #[{ index := 0, name := "a", start := 0, stop := 1 },
    { index := 1, name := "b", start := 2, stop := 3 }]
  network := {
    states := #[{ id := 0, rule := 0, kind := .ruleStart, transitions := [0, 1] },
      { id := 1, rule := 0, kind := .ruleStop },
      { id := 2, rule := 1, kind := .ruleStart, transitions := [2] },
      { id := 3, rule := 1, kind := .ruleStop },
      { id := 4, rule := 0, transitions := [1] }]
    transitions := #[{ kind := .epsilon, target := 2 }, { kind := .epsilon, target := 1 },
      { kind := .epsilon, target := 3 }] }

/-- The state across belongs to the second rule alone, and the state that nothing leads to is found with
no rule. -/
theorem crossing_walks : ∃ v m, Grammar.crossing.validation = .ok v ∧ v.fatal = [] ∧
    Grammar.crossing.reachable [0, 1] = .ok m ∧ Grammar.crossing.owner? m 2 = some 1 ∧
    Grammar.crossing.owner? m 4 = none ∧
    ∃ l, OrderedMap.get? m 0 = some l ∧ 2 ∉ l := by
  obtain ⟨v, hv, hclean⟩ := Grammar.exists_validation (g := Grammar.crossing) (by decide) (by decide +kernel)
  obtain ⟨m, hm, hwalks, -, howner, -⟩ := walks_of_validated hv hclean
  obtain ⟨l, -, hget, -, hmem, howned, -⟩ := hwalks _ (List.mem_cons_self ..)
  have hstart : ∀ r ∈ Grammar.crossing.ruleList, r.start ≠ 4 := by decide
  have hnext : ∀ t ∈ Grammar.crossing.network.transitions.toList, t.next ≠ 4 := by decide
  refine ⟨v, m, hv, hclean, hm, ?_, ?_, l, hget, fun h2 => ?_⟩
  · exact (howner 2 1).2 ⟨_, List.mem_cons_of_mem _ (List.mem_singleton_self _), rfl, .refl⟩
  · refine Option.eq_none_iff_forall_ne_some.2 fun i hi => ?_
    obtain ⟨r, hr, -, hreach⟩ := (howner 4 i).1 hi
    obtain hsame | ⟨s, -, hlast⟩ := hreach.cases_tail
    · exact hstart r hr hsame.symm
    · obtain ⟨t, ht, h4⟩ := hlast.exists_next
      exact hnext t ht h4
  · obtain ⟨st, hst, hrule⟩ := howned 2 h2
    cases hst
    cases hrule

end RuleNetwork
