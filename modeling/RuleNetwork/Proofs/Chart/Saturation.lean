import Mathlib.Data.ENat.Lattice
import RuleNetwork.Proofs.Chart.Outlines
import RuleNetwork.Proofs.Chart.Useful

/-!
Counts are numbers of outlines, as far as counts go. On visits that are walked back from one another
nothing is missed: an outline to a settled visit gives it a count, and two outlines, which part at
their starts, at an approach or further back, give it a count of two.
-/

set_option autoImplicit false

namespace RuleNetwork

open Network Relation

namespace Chart

variable {c : Chart} {i : Nat} {types : List String} {g : Option Groups} {m : Counts}
  {u : OrderedSet Visit}

/-- The counts of visits among which is all that precedes one of them, raised until all are settled. -/
structure Tallied (c : Chart) (i : Nat) (types : List String) (u : OrderedSet Visit)
    (g : Option Groups) (m : Counts) : Prop where
  recognizes : c.Recognizes i types
  contains : ∀ v ∈ u.toList, c.contains v = true
  closed : ∀ v ∈ u.toList, ∀ w, c.Precedes types v w → w ∈ u.toList
  raised : ReflTransGen (c.Raises g u.toList) ∅ m
  settled : ∀ v ∈ u.toList, c.Settled g m v

namespace Tallied

variable (h : c.Tallied i types u g m)
include h

theorem proper : c.network.Proper c.index.grammar.rules.size := h.recognizes.index.grammar.network

theorem le_two (v : Visit) : m.of v ≤ 2 := by
  have key : ∀ m, ReflTransGen (c.Raises g u.toList) ∅ m → m.of v ≤ 2 := by
    intro m hr
    induction hr with
    | refl => simp
    | @tail m _ _ hstep ih =>
      obtain ⟨w, -, k, hk, -, rfl⟩ := hstep
      rw [Counts.of_insert]
      split
      · exact incoming_le hk
      · exact ih
  exact key m h.raised

theorem mem_of_one_le {v : Visit} (hv : 1 ≤ m.of v) : v ∈ u.toList := by
  have key : ∀ m, ReflTransGen (c.Raises g u.toList) ∅ m → 1 ≤ m.of v → v ∈ u.toList := by
    intro m hr
    induction hr with
    | refl => simp
    | tail _ hstep ih =>
      obtain ⟨w, hw, k, -, -, rfl⟩ := hstep
      rw [Counts.of_insert]
      split
      · rename_i hwv
        exact fun _ => hwv ▸ hw
      · exact ih
  exact key m h.raised hv

theorem total_le {v : Visit} (hv : v ∈ u.toList) {j : Nat} (ho : c.network.Owns j v.state) :
    min (c.total g m j v) 2 ≤ m.of v := by
  obtain ⟨k, hk, hle⟩ := h.settled v hv
  rw [h.recognizes.incoming_ok g m (h.contains v hv) ho] at hk
  cases hk
  exact hle

theorem weight_le {v : Visit} (hv : v ∈ u.toList) {j : Nat} (ho : c.network.Owns j v.state)
    {a : Approach} (ha : a ∈ c.approaches v) : min (weight g m ⟨j, v.origin⟩ v a) 2 ≤ m.of v := by
  have htotal := h.total_le hv ho
  have hsum := List.le_sum_of_mem (List.mem_map_of_mem (f := weight g m ⟨j, v.origin⟩ v) ha)
  unfold total at htotal
  omega

/-- The start of a rule and an approach are two ways. -/
theorem two_le_of_start {v : Visit} (hv : v ∈ u.toList) {j : Nat} (ho : c.network.Owns j v.state)
    (hstart : startState j = v.state ∧ v.origin = v.position) {a : Approach}
    (ha : a ∈ c.approaches v) (hone : 1 ≤ weight g m ⟨j, v.origin⟩ v a) : 2 ≤ m.of v := by
  have htotal := h.total_le hv ho
  have hsum := List.le_sum_of_mem (List.mem_map_of_mem (f := weight g m ⟨j, v.origin⟩ v) ha)
  rw [total, if_pos hstart] at htotal
  omega

/-- Two approaches are two ways. -/
theorem two_le_of_ne {v : Visit} (hv : v ∈ u.toList) {j : Nat} (ho : c.network.Owns j v.state)
    {a b : Approach} (ha : a ∈ c.approaches v) (hb : b ∈ c.approaches v) (hne : a ≠ b)
    (hone : 1 ≤ weight g m ⟨j, v.origin⟩ v a) (hone' : 1 ≤ weight g m ⟨j, v.origin⟩ v b) :
    2 ≤ m.of v := by
  have htotal := h.total_le hv ho
  have hsum := add_le_sum_of_mem (w := weight g m ⟨j, v.origin⟩ v) ha hb hne
  unfold total at htotal
  omega

section Steps

variable {j : Nat} (hj : j < c.index.grammar.rules.size) {v : Visit} {q : List Move}
  (hq : c.network.Walks types j v q) {id : Int} {t : Transition} {k : Nat}
include hj hq

/-- Where a walk reads on to a visit, it leaves one that has been walked back to. -/
theorem mem_of_reads (ht : c.network.Leaves v.state id t) (hr : t.Reads types v.position k)
    (hv : ⟨t.target, v.origin, k⟩ ∈ u.toList) : v ∈ u.toList := by
  have hown := (h.proper.inside_of_reads ht (h.proper.owns_of_walks hj hq) hr).owns
  have hsite := h.recognizes.reaches_of_run (h.contains _ hv) hown (s := v.state) (l := []) hq
  exact h.closed _ hv _ (.read (a := ⟨⟨v.state, id, t⟩, v.position⟩) (h.proper.mem_arcs.2 ht)
    ⟨hr, rfl⟩ ((h.recognizes.contains _).2 hsite))

/-- Where a walk passes a call, both the visit that calls and the end of the callee have been walked
back to. -/
theorem mem_of_calls {callee : Nat} {follow : Int} {r : List Move}
    (hc : c.network.Calls v.state id t callee follow)
    (hr : c.network.run types (.enter t.target v.position) r =
      some ⟨stopState callee, v.position, k, []⟩)
    (hcallee : callee < c.index.grammar.rules.size) (hv : ⟨follow, v.origin, k⟩ ∈ u.toList) :
    v ∈ u.toList ∧ ⟨stopState callee, v.position, k⟩ ∈ u.toList := by
  obtain ⟨-, -, -, -, hin⟩ := h.proper.of_calls hc (h.proper.owns_of_walks hj hq)
  have hsite := h.recognizes.reaches_of_run (h.contains _ hv) hin.owns (s := v.state) (l := []) hq
  obtain ⟨hcaller, hinner⟩ := h.recognizes.precedes_of_call hsite hc hr (h.proper.ends_stop hcallee)
  exact ⟨h.closed _ hv _ hcaller, h.closed _ hv _ hinner⟩

/-- A count is carried over to where a transition reads on. -/
theorem le_of_reads (ht : c.network.Leaves v.state id t) (hr : t.Reads types v.position k)
    (hv : ⟨t.target, v.origin, k⟩ ∈ u.toList) : min (m.of v) 2 ≤ m.of ⟨t.target, v.origin, k⟩ := by
  have hin := h.proper.inside_of_reads ht (h.proper.owns_of_walks hj hq) hr
  have hle := h.weight_le hv hin.owns (h.recognizes.mem_approaches_of_reads ht hr)
  rwa [weight_of_reads hr] at hle

/-- The counts of a caller and its callee are carried over to where the call resumes. -/
theorem le_of_calls {callee x y : Nat} {follow : Int}
    (hc : c.network.Calls v.state id t callee follow) (hk : v.position ≤ k) (hx : x ≤ m.of v)
    (hy : y ≤ innerCount g ⟨j, v.origin⟩ ⟨callee, v.position⟩
      (m.of ⟨stopState callee, v.position, k⟩)) (hv : ⟨follow, v.origin, k⟩ ∈ u.toList) :
    min (x * y) 2 ≤ m.of ⟨follow, v.origin, k⟩ := by
  obtain ⟨-, -, -, -, hin⟩ := h.proper.of_calls hc (h.proper.owns_of_walks hj hq)
  have hle := h.weight_le hv hin.owns
    (h.recognizes.mem_approaches_of_calls hc (run_position hq).1 hk)
  rw [weight_of_calls hc] at hle
  exact (min_le_min_right 2 (Nat.mul_le_mul hx hy)).trans hle

end Steps

section Outlines

variable {shown : Invocation → Invocation → Bool} {j : Nat} {v : Visit} {ms ms' : List Move}
  {x x' : Outline} {a : Approach}

/-- A visit with an outline has a count. -/
theorem one_le (hj : j < c.index.grammar.rules.size) (hv : v ∈ u.toList)
    (hx : c.network.Outlines types shown j v ms x) : 1 ≤ m.of v := by
  have hp := h.proper
  induction hx with
  | start j o =>
    have htotal := h.total_le hv (hp.owns_start hj)
    simp only [total, and_self, if_true] at htotal
    omega
  | read hx ht hr ih =>
    have hq := hx.walks hp hj
    have hsite := ih hj (h.mem_of_reads hj hq ht hr hv)
    have hle := h.le_of_reads hj hq ht hr hv
    omega
  | call hx hc hin ih ihin =>
    have hq := hx.walks hp hj
    obtain ⟨hcallee, hrun⟩ := hx.walks_callee hp hj hc hin
    obtain ⟨hcaller, hend⟩ := h.mem_of_calls hj hq hc hrun hcallee hv
    exact h.le_of_calls hj hq hc (run_position hrun).1 (ih hj hcaller)
      (one_le_innerCount (ihin hcallee hend)) hv

/-- An approach with an outline has a weight. -/
theorem one_le_weight (hj : j < c.index.grammar.rules.size) (hv : v ∈ u.toList)
    (ho : c.network.Owns j v.state) (ha : a ∈ c.approaches v)
    (hx : x ∈ c.outlinesBy types shown j v a) : 1 ≤ weight g m ⟨j, v.origin⟩ v a := by
  have hp := h.proper
  obtain ⟨⟨s, id, t⟩, k⟩ := a
  obtain ⟨s', o, k'⟩ := v
  obtain ⟨hleaves, -, ⟨hnone, hr, rfl⟩ | ⟨callee, hcallee, hc⟩⟩ := h.recognizes.approach_cases ha ho
  · obtain ⟨y, ⟨q, hy⟩, -⟩ := (mem_outlinesBy_of_read hnone).1 hx
    have hsite := h.mem_of_reads hj (v := ⟨s, o, k⟩) (hy.walks hp hj) hleaves hr hv
    rw [weight_of_reads (v := ⟨s, o, k⟩) hr]
    exact h.one_le hj hsite hy
  · obtain ⟨y, ⟨q, hy⟩, z, ⟨r, hz⟩, -⟩ := (mem_outlinesBy_of_call hc).1 hx
    have hcall : c.network.Calls s id t callee s' := ⟨hleaves, hc⟩
    obtain ⟨-, hrun⟩ := hy.walks_callee hp hj hcall hz
    obtain ⟨hcaller, hend⟩ :=
      h.mem_of_calls hj (v := ⟨s, o, k⟩) (hy.walks hp hj) hcall hrun hcallee hv
    rw [weight_of_calls (v := ⟨s, o, k⟩) hcall]
    exact Nat.mul_le_mul (h.one_le hj hcaller hy) (one_le_innerCount (h.one_le hcallee hend hz))

/-- An outline by an approach and one that is not by it make a count of two. -/
theorem two_le_of_other (hj : j < c.index.grammar.rules.size) (hv : v ∈ u.toList)
    (ho : c.network.Owns j v.state) (ha : a ∈ c.approaches v)
    (hx : x ∈ c.outlinesBy types shown j v a) (hx' : x' ∈ c.outlines types shown j v)
    (hnot : x' ∉ c.outlinesBy types shown j v a) : 2 ≤ m.of v := by
  have hweight := h.one_le_weight hj hv ho ha hx
  obtain ⟨-, hstart⟩ | ⟨b, hb, hby⟩ := h.recognizes.exists_outlinesBy hj hx'
  · exact h.two_le_of_start hv ho (by rw [hstart]; exact ⟨rfl, rfl⟩) ha hweight
  · exact h.two_le_of_ne hv ho ha hb (fun heq => hnot (heq ▸ hby)) hweight
      (h.one_le_weight hj hv ho hb hby)

/-- A visit with two outlines has a count of two. -/
theorem two_le (hj : j < c.index.grammar.rules.size) (hv : v ∈ u.toList)
    (hx : c.network.Outlines types (opens g) j v ms x)
    (hx' : c.network.Outlines types (opens g) j v ms' x') (hne : x ≠ x') : 2 ≤ m.of v := by
  have hp := h.proper
  induction hx generalizing ms' x' with
  | start j o =>
    obtain ⟨heq, -⟩ | ⟨a, ha, hby⟩ := h.recognizes.exists_outlinesBy hj ⟨ms', hx'⟩
    · exact absurd heq.symm hne
    · exact h.two_le_of_other hj hv (hp.owns_start hj) ha hby ⟨[], .start j o⟩
        start_not_mem_outlinesBy
  | @read j w id t k q y hy ht hr ih =>
    have hq := hy.walks hp hj
    have hnone : t.call? = none := hr.call?_eq_none
    by_cases hby : x' ∈ c.outlinesBy types (opens g) j ⟨t.target, w.origin, k⟩
        ⟨⟨w.state, id, t⟩, w.position⟩
    · obtain ⟨y', ⟨q', hy'⟩, rfl⟩ := (mem_outlinesBy_of_read hnone).1 hby
      have htwo := ih hj (h.mem_of_reads hj hq ht hr hv) hy' fun heq => hne (by rw [heq])
      have hle := h.le_of_reads hj hq ht hr hv
      omega
    · exact h.two_le_of_other hj hv (hp.inside_of_reads ht (hp.owns_of_walks hj hq) hr).owns
        (h.recognizes.mem_approaches_of_reads ht hr)
        ((mem_outlinesBy_of_read hnone).2 ⟨y, ⟨q, hy⟩, rfl⟩) ⟨ms', hx'⟩ hby
  | @call j callee w id follow t k q r y z hy hc hz ih ihin =>
    have hq := hy.walks hp hj
    obtain ⟨hcallee, hrun⟩ := hy.walks_callee hp hj hc hz
    obtain ⟨hcaller, hend⟩ := h.mem_of_calls hj hq hc hrun hcallee hv
    by_cases hby : x' ∈ c.outlinesBy types (opens g) j ⟨follow, w.origin, k⟩
        ⟨⟨w.state, id, t⟩, w.position⟩
    · obtain ⟨y', ⟨q', hy'⟩, z', ⟨r', hz'⟩, rfl⟩ := (mem_outlinesBy_of_call hc.2).1 hby
      by_cases hyy : y = y'
      · subst hyy
        -- the call is shown, or the callee would make no difference
        have hopen : opens g ⟨j, w.origin⟩ ⟨callee, w.position⟩ = true := by
          by_contra hclosed
          exact hne (by rw [Outline.past, Outline.past, if_neg hclosed, if_neg hclosed])
        have htwo : 2 ≤ innerCount g ⟨j, w.origin⟩ ⟨callee, w.position⟩
            (m.of ⟨stopState callee, w.position, k⟩) := by
          rw [innerCount_eq, if_pos hopen]
          exact ihin hcallee hend hz' fun heq => hne (by rw [heq])
        exact h.le_of_calls hj hq hc (run_position hrun).1 (h.one_le hj hcaller hy) htwo hv
      · exact h.le_of_calls hj hq hc (run_position hrun).1 (ih hj hcaller hy' hyy)
          (one_le_innerCount (h.one_le hcallee hend hz)) hv
    · obtain ⟨-, -, -, -, hin⟩ := hp.of_calls hc (hp.owns_of_walks hj hq)
      exact h.two_le_of_other hj hv hin.owns
        (h.recognizes.mem_approaches_of_calls hc (run_position hq).1 (run_position hrun).1)
        ((mem_outlinesBy_of_call hc.2).2 ⟨y, ⟨q, hy⟩, z, ⟨r, hz⟩, rfl⟩) ⟨ms', hx'⟩ hby

end Outlines

/-- A count is the number of outlines, as far as counts go. -/
theorem of_eq_min (honce : c.network.CallsOnce) {j : Nat} (hj : j < c.index.grammar.rules.size)
    {v : Visit} (hv : v ∈ u.toList) (ho : c.network.Owns j v.state) :
    (m.of v : ℕ∞) = min 2 (c.outlines types (opens g) j v).encard := by
  have hle := h.recognizes.le_encard (opens g) h.contains (fun h => h)
    (fun _ => honce) h.raised hj ho
  refine le_antisymm (le_min (by exact_mod_cast h.le_two v) hle) ?_
  by_cases hone : (c.outlines types (opens g) j v).encard ≤ 1
  · obtain hempty | ⟨x, ms, hx⟩ := (c.outlines types (opens g) j v).eq_empty_or_nonempty
    · simp [hempty]
    · refine (min_le_right _ _).trans (hone.trans ?_)
      exact_mod_cast h.one_le hj hv hx
  · obtain ⟨x, x', ⟨ms, hx⟩, ⟨ms', hx'⟩, hne⟩ := Set.one_lt_encard_iff.1 (not_le.1 hone)
    refine (min_le_left _ _).trans ?_
    exact_mod_cast h.two_le hj hv hx hx' hne

end Tallied

/-- The end of an input that is derived as a whole is useful. -/
theorem Recognizes.stop_mem_useful (h : c.Recognizes i types)
    (hu : (c.useful c.seeds).result = .ok u)
    (hstop : c.network.Reaches types (startState i) ⟨stopState i, 0, types.length⟩) :
    ⟨stopState i, 0, types.length⟩ ∈ u.toList := by
  have hcontains := (h.contains _).2 hstop
  have haccept : c.accept? = some types.length := by
    unfold accept?
    rw [h.input, h.goal, List.size_toArray, List.find?_cons, hcontains]
  obtain ⟨u', hu', -, hmem⟩ := h.useful_ok c.nodup_seeds fun _ => contains_of_mem_seeds
  obtain rfl := Except.ok.inj (hu.symm.trans hu')
  exact (hmem _).2 ⟨_, by rw [h.mem_seeds_iff, haccept], .refl⟩

/-- Counting on visits among which is all that precedes one of them. -/
theorem Recognizes.exists_tallied (h : c.Recognizes i types) (g : Option Groups)
    (hcontains : ∀ v ∈ u.toList, c.contains v = true)
    (hclosed : ∀ v ∈ u.toList, ∀ w, c.Precedes types v w → w ∈ u.toList) :
    ∃ m, (c.counts g u).result = .ok m ∧ c.Tallied i types u g m := by
  obtain ⟨m, hm, hr, hs⟩ := h.counts_ok g hcontains
  exact ⟨m, hm, h, hcontains, hclosed, hr, hs⟩

/-- There are as many outlines that open all calls as there are walks. -/
theorem encard_outlines (hp : c.network.Proper c.index.grammar.rules.size) {j : Nat}
    (hj : j < c.index.grammar.rules.size) (v : Visit) :
    (c.outlines types (fun _ _ => true) j v).encard = {ms | c.network.Walks types j v ms}.encard := by
  refine le_antisymm ?_ ?_
  · have hwalk : ∀ x ∈ c.outlines types (fun _ _ => true) j v,
        ∃ ms, c.network.Outlines types (fun _ _ => true) j v ms x := fun _ hx => hx
    choose! walk hwalk using hwalk
    refine Set.encard_le_encard_of_injOn (f := walk) (fun x hx => (hwalk x hx).walks hp hj) ?_
    exact fun x hx y hy hxy => (hwalk x hx).unique hp hj (hxy ▸ hwalk y hy)
  · have houtline : ∀ ms, c.network.Walks types j v ms →
        ∃ x, c.network.Outlines types (fun _ _ => true) j v ms x := fun _ hms =>
      hms.exists_outlines hp _ hj
    choose! outline houtline using houtline
    refine Set.encard_le_encard_of_injOn (f := outline) (fun ms hms => ⟨ms, houtline ms hms⟩) ?_
    exact fun ms hms ms' hms' heq => (houtline ms hms).walk_unique (heq ▸ houtline ms' hms')

end Chart

/-- Counting the ways to the useful visits of a chart, accepted or not. It comes to an end, where one
more round raises nothing. Without groups the count of a visit is the number of walks to it from the
start of its rule, or two if there are more. With the left-recursive groups it is the number of
outlines of these walks, in which a call counts as one step unless caller and callee are of one group;
every walk has one such outline. -/
theorem counts_exact {b b' : Builder} {g : Grammar} (hb : Builder.build.run.run b = (.ok g, b'))
    {i : Nat} {r : Rule} (hr : g.rules[i]? = some r) (types : List String) :
    ∃ ix c u groups m m', ChartIndex.ofGrammar g = .ok ix ∧
      (Chart.recognize ix types i).result = .ok c ∧ (c.useful c.seeds).result = .ok u ∧
      c.groups u = .ok groups ∧
      (c.counts none u).result = .ok m ∧ c.countRound none u.toList m = .ok (m, false) ∧
      (c.counts (some groups) u).result = .ok m' ∧
      c.countRound (some groups) u.toList m' = .ok (m', false) ∧
      ∀ v ∈ u.toList, ∃ j < g.rules.size, g.network.Owns j v.state ∧
        (m.of v : ℕ∞) = min 2 {ms | g.network.Walks types j v ms}.encard ∧
        (∀ ms, g.network.Walks types j v ms →
          ∃! x, g.network.Outlines types groups.together j v ms x) ∧
        (m'.of v : ℕ∞) =
          min 2 {x | ∃ ms, g.network.Outlines types groups.together j v ms x}.encard := by
  have hg := Builder.proper_of_build hb
  have hi := (Array.getElem?_eq_some_iff.1 hr).1
  have honce := Builder.callsOnce_of_build hb
  obtain ⟨ix, hix, rfl, hproper⟩ := ChartIndex.ofGrammar_ok hg
  obtain ⟨c, hc, rfl, hrec⟩ := Chart.recognize_ok hproper hi types
  obtain ⟨u, hu, hcontains, hmem⟩ := hrec.useful_ok c.nodup_seeds fun _ => Chart.contains_of_mem_seeds
  obtain ⟨groups, hgroups, -⟩ := hrec.groups_ok hcontains
  have hclosed : ∀ v ∈ u.toList, ∀ w, c.Precedes types v w → w ∈ u.toList := fun v hv w hw => by
    obtain ⟨s, hs, hsv⟩ := (hmem v).1 hv
    exact (hmem w).2 ⟨s, hs, hsv.tail hw⟩
  obtain ⟨m, hm, htallied⟩ := hrec.exists_tallied none hcontains hclosed
  obtain ⟨m', hm', htallied'⟩ := hrec.exists_tallied (some groups) hcontains hclosed
  refine ⟨c.index, c, u, groups, m, m', hix, hc, hu, hgroups, hm,
    Chart.countRound_of_settled htallied.settled, hm', Chart.countRound_of_settled htallied'.settled,
    fun v hv => ?_⟩
  obtain ⟨j, hj, ho, -⟩ := hrec.invocation_ok (hcontains v hv)
  refine ⟨j, hj, ho, ?_, fun ms hms => ?_, htallied'.of_eq_min honce hj hv ho⟩
  · rw [← Chart.encard_outlines htallied.proper hj]
    exact htallied.of_eq_min honce hj hv ho
  · obtain ⟨x, hx⟩ := hms.exists_outlines hg.network groups.together hj
    exact ⟨x, hx, fun y hy => hy.unique hg.network hj hx⟩

/-- A rule that may call itself and nothing else. -/
def Builder.turning : Builder where
  name := "turning"
  rules := [{ name := "turn", kind := .parser, body := some (.choice [.call "turn", .token ["'a'"]]) }]

/-- A letter is come to at once, or after a further call. -/
theorem Builder.turning_walks {g : Grammar} {b' : Builder}
    (h : build.run.run turning = (.ok g, b')) :
    1 < {ms | g.network.Walks ["'a'"] 0 ⟨stopState 0, 0, 1⟩ ms}.encard := by
  cases h
  refine Set.one_lt_encard_iff.2 ⟨[.along 6, .along 4, .along 3, .along 5, .along 7],
    [.along 6, .along 1, .along 0, .along 6, .along 4, .along 3, .along 5, .along 7, .back, .along 2,
      .along 7], ?_, ?_, by decide⟩
  all_goals
    change Network.run _ _ _ _ = _
    decide +kernel

/-- A rule that may call itself before it reads has more than one derivation of its letter. -/
theorem turning_counted : ∃ g b' ix c u groups m m',
    Builder.build.run.run Builder.turning = (.ok g, b') ∧ ChartIndex.ofGrammar g = .ok ix ∧
      (Chart.recognize ix ["'a'"] (0 : Nat)).result = .ok c ∧
      (c.useful c.seeds).result = .ok u ∧ c.groups u = .ok groups ∧
      (c.counts none u).result = .ok m ∧ (c.counts (some groups) u).result = .ok m' ∧
      ⟨stopState 0, 0, 1⟩ ∈ u.toList ∧ m.of ⟨stopState 0, 0, 1⟩ = 2 := by
  obtain ⟨g, b', hb⟩ : ∃ g b', Builder.build.run.run Builder.turning = (.ok g, b') := ⟨_, _, rfl⟩
  have hg := Builder.proper_of_build hb
  have hrules := (Builder.build_ok hb).1
  have hsize : g.rules.size = 1 := by rw [hrules]; rfl
  obtain ⟨ix, c, u, groups, m, m', hix, hc, hu, hgroups, hm, -, hm', -, hcounts⟩ :=
    counts_exact hb (i := 0) (by rw [hrules]; rfl) ["'a'"]
  have hwalks := Builder.turning_walks hb
  have hgoal : ⟨stopState 0, 0, 1⟩ ∈ u.toList := by
    obtain ⟨ix', hix', rfl, hproper⟩ := ChartIndex.ofGrammar_ok hg
    obtain rfl := Except.ok.inj (hix.symm.trans hix')
    obtain ⟨c', hc', rfl, hrec⟩ := Chart.recognize_ok hproper (i := 0) (by omega) ["'a'"]
    obtain rfl := Except.ok.inj (hc.symm.trans hc')
    obtain ⟨ms, -, hms, -⟩ := Set.one_lt_encard_iff.1 hwalks
    exact hrec.stop_mem_useful hu ⟨ms, [], hms⟩
  obtain ⟨j, hj, -, hcount, -⟩ := hcounts _ hgoal
  obtain rfl : j = 0 := by omega
  have htwo := Order.add_one_le_of_lt hwalks
  rw [one_add_one_eq_two] at htwo
  rw [min_eq_left htwo] at hcount
  exact ⟨g, b', ix, c, u, groups, m, m', hb, hix, hc, hu, hgroups, hm, hm', hgoal, by
    exact_mod_cast hcount⟩

end RuleNetwork
