import RuleNetwork.Proofs.Chart.Before
import RuleNetwork.Proofs.Graph.Search
import RuleNetwork.Proofs.Run.Walk

/-!
The useful visits of a chart are those on a derivation. Where one derivation passes a visit, the walk
up to it can be exchanged for any other walk to it, so whatever precedes the visit is on a derivation
too; and a derivation read backwards goes from a visit to one that precedes it.
-/

set_option autoImplicit false

namespace RuleNetwork

open Network

namespace Chart

variable {c : Chart} {i K : Nat} {types : List String}

/-- All visits of a chart, column by column. -/
def visits (c : Chart) : List Visit :=
  c.columns.toList.zipIdx.flatMap fun e => e.1.items.toList.map fun a => ⟨a.state, a.origin, e.2⟩

theorem length_visits : c.visits.length = c.itemCount := by
  unfold visits itemCount
  simp only [List.length_flatMap, List.length_map, OrderedSet.length_toList]
  have hfst := congrArg (List.map fun d : Column => d.items.size)
    (List.zipIdx_map_fst 0 c.columns.toList)
  rw [List.map_map] at hfst
  exact congrArg List.sum hfst

theorem mem_visits_iff {v : Visit} : v ∈ c.visits ↔ c.contains v = true := by
  unfold visits contains
  rw [List.mem_flatMap, Option.any_eq_true]
  constructor
  · rintro ⟨⟨d, k⟩, hd, hv⟩
    obtain ⟨a, ha, rfl⟩ := List.mem_map.1 hv
    have hget := List.mk_mem_zipIdx_iff_getElem?.1 hd
    exact ⟨d, by simpa using hget, (OrderedSet.contains_iff _ _).2 ha⟩
  · rintro ⟨d, hd, hv⟩
    refine ⟨(d, v.position), List.mk_mem_zipIdx_iff_getElem?.2 (by simpa using hd), ?_⟩
    exact List.mem_map.2 ⟨_, (OrderedSet.contains_iff _ _).1 hv, rfl⟩

theorem nodup_seeds (c : Chart) : c.seeds.Nodup := by
  unfold seeds
  split
  · exact List.nodup_singleton _
  · refine (OrderedSet.nodup_toList _).map fun a b hab => ?_
    obtain ⟨hs, ho, -⟩ := Visit.mk.inj hab
    exact congrArg₂ Item.mk hs ho

theorem contains_of_mem_seeds {v : Visit} (hv : v ∈ c.seeds) : c.contains v = true := by
  unfold seeds at hv
  cases haccept : c.accept? with
  | some k =>
    rw [haccept] at hv
    rw [List.mem_singleton.1 hv]
    have hfound := List.find?_some haccept
    exact hfound
  | none =>
    rw [haccept] at hv
    obtain ⟨i, hi, rfl⟩ := List.mem_map.1 hv
    unfold contains
    cases hd : c.columns[c.furthest]? with
    | none =>
      rw [hd] at hi
      cases hi
    | some d =>
      rw [hd] at hi
      exact (OrderedSet.contains_iff _ _).2 hi

theorem Precedes.contains {u v : Visit} (h : c.Precedes types v u) : c.contains u = true := by
  cases h with
  | read ha hr hc => exact hc
  | site ha hr hc hs => exact hc
  | inner ha hr hc hs => exact hs

/-- The visits right before a visit, none if it cannot be walked back from. -/
def backs (c : Chart) (v : Visit) : List Visit :=
  match c.before v with
  | .ok l => l
  | .error _ => []

theorem descend_walkBack (seeds : List Visit) :
    Search.descend (fun v => (.ok (c.backs v) : Except Empty (List Visit))) c.failsBefore
      (seeds.length + c.itemCount + 1) seeds.reverse (.ofList seeds) [] = .ok (c.walkBack seeds) := by
  unfold walkBack
  simp only
  split
  assumption

namespace Recognizes

variable (h : c.Recognizes i types)
include h

theorem mem_backs_iff {v : Visit} (hv : c.contains v = true) {u : Visit} :
    u ∈ c.backs v ↔ c.Precedes types v u := by
  obtain ⟨l, hl, hm⟩ := h.before_ok hv
  unfold backs
  rw [hl]
  exact hm u

/-- From a visit of the chart both relations lead on alike. -/
theorem reach_backs_iff {a b : Visit} (ha : c.contains a = true) :
    Relation.ReflTransGen (fun x y => y ∈ c.backs x) a b ↔
      Relation.ReflTransGen (c.Precedes types) a b :=
  reflTransGen_iff_inside (fun _ hstep => hstep.contains) (fun hx => h.mem_backs_iff hx) ha

theorem mem_walkBack_iff {seeds : List Visit} (hnodup : seeds.Nodup)
    (hseeds : ∀ v ∈ seeds, c.contains v = true) {v : Visit} :
    v ∈ c.walkBack seeds ↔ ∃ s ∈ seeds, Relation.ReflTransGen (c.Precedes types) s v := by
  have huniv : Search.Universe (fun v => (.ok (c.backs v) : Except Empty (List Visit))) c.visits := by
    unfold Search.Universe
    rw [Search.step_pure]
    exact fun a ha b hb =>
      mem_visits_iff.2 ((h.mem_backs_iff (mem_visits_iff.1 ha)).1 hb).contains
  have hgoal : ∀ a ∈ c.visits, c.failsBefore a = false := by
    intro a ha
    obtain ⟨l, hl, -⟩ := h.before_ok (mem_visits_iff.1 ha)
    unfold failsBefore
    rw [hl]
    rfl
  have hstart : Search.Descent (fun v => (.ok (c.backs v) : Except Empty (List Visit))) c.visits
      seeds.reverse (.ofList seeds) [] := by
    refine ⟨fun a ha => ?_, by simpa using hnodup, by simp, fun a ha => absurd ha List.not_mem_nil⟩
    exact mem_visits_iff.2 (hseeds a (by simpa using ha))
  obtain ⟨-, hreach, hall⟩ := Search.descend_ok huniv hstart
    (by rw [length_visits]; omega) (fun a ha => (OrderedSet.mem_toList_ofList _ _).2 ha)
    (fun b hb => ⟨b, (OrderedSet.mem_toList_ofList _ _).1 hb, .refl⟩) (descend_walkBack seeds)
  rw [Search.step_pure] at hreach hall
  have hwalk : v ∈ c.walkBack seeds ↔
      ∃ s ∈ seeds, Relation.ReflTransGen (fun x y => y ∈ c.backs x) s v := by
    refine ⟨fun hv => (hreach v hv).2, fun hv => ?_⟩
    obtain ⟨a, ha, hfails⟩ | hall := hall
    · rw [hgoal a (hreach a ha).1] at hfails
      cases hfails
    · exact hall v hv
  rw [hwalk]
  exact exists_congr fun s => and_congr_right fun hs => h.reach_backs_iff (hseeds s hs)

/-- Walking back never fails, and finds all that precedes the seeds, step by step. -/
theorem useful_ok {seeds : List Visit} (hnodup : seeds.Nodup)
    (hseeds : ∀ v ∈ seeds, c.contains v = true) :
    ∃ u, (c.useful seeds).result = .ok u ∧ (∀ v ∈ u.toList, c.contains v = true) ∧
      ∀ v, v ∈ u.toList ↔ ∃ s ∈ seeds, Relation.ReflTransGen (c.Precedes types) s v := by
  have hmem : ∀ v, v ∈ c.walkBack seeds ↔ _ := fun v => h.mem_walkBack_iff hnodup hseeds
  have hcontains : ∀ v ∈ c.walkBack seeds, c.contains v = true := by
    intro v hv
    obtain ⟨s, hs, hsv⟩ := (hmem v).1 hv
    cases hsv with
    | refl => exact hseeds _ hs
    | tail _ hw => exact hw.contains
  refine ⟨.ofList (c.walkBack seeds), ?_, fun v hv =>
    hcontains v ((OrderedSet.mem_toList_ofList _ _).1 hv),
    fun v => by rw [OrderedSet.mem_toList_ofList, hmem]⟩
  unfold useful
  cases hlast : (c.walkBack seeds).getLast? with
  | none => simp only [hlast]; rfl
  | some last =>
    obtain ⟨l, hl, -⟩ := h.before_ok (hcontains last (List.mem_of_getLast? hlast))
    simp only [hlast, hl]
    rfl

/-- What is come to in an invocation of the chart is in the chart. -/
theorem reaches_of_run {j : Nat} {e : Visit} (he : c.contains e = true)
    (hj : c.network.Owns j e.state) {s : Int} {o k : Nat} {l : List Frame} {p : List Move}
    (hrun : c.network.run types (.enter (startState j) e.origin) p = some ⟨s, o, k, l⟩) :
    c.network.Reaches types (startState i) ⟨s, o, k⟩ := by
  obtain ⟨ms, l₀, hms⟩ := (h.contains _).1 he
  obtain ⟨j', -, p₀, -, -, -, hj', hentry⟩ := h.index.grammar.network.exists_walk h.rule (v := e) hms
  obtain rfl : j = j' := Int.ofNat.inj (hj.unique hj')
  exact ⟨_, _, run_trans hentry (run_under hrun l₀)⟩

section Entered

variable {j₀ k₀ : Nat} (hj₀ : j₀ < c.index.grammar.rules.size)
include hj₀

/-- A visit at which a call resumes can be come to by that call. -/
theorem exists_run_of_resumes {v : Visit} {l : List Frame} {p : List Move}
    (hrun : c.network.run types (.enter (startState j₀) k₀) p = some (v.config l)) {a : Approach}
    {r : Nat} (ha : a.arc ∈ c.network.arcs) (hr : a.Resumes v r)
    (hc : c.contains (a.origin v) = true)
    (hs : c.contains ⟨stopState r, a.position, v.position⟩ = true) :
    ∃ p' w, c.network.run types (.enter (startState j₀) k₀) p' = some ((a.origin v).config l) ∧
      c.network.run types ((a.origin v).config l) (.along a.arc.id :: w) =
        some ⟨stopState r, a.position, v.position, ⟨v.state, v.origin⟩ :: l⟩ ∧
      c.network.Ends (stopState r) := by
  have hp := h.index.grammar.network
  have hcall : c.network.Calls a.arc.source a.arc.id a.arc.transition r v.state :=
    ⟨hp.mem_arcs.1 ha, hr.1⟩
  obtain ⟨owner, hown⟩ := hcall.1.owned
  obtain ⟨r', hr', hrr, ht, hin⟩ := hp.of_calls hcall hown
  obtain rfl : r = r' := Int.ofNat.inj hrr
  obtain ⟨p', hp'⟩ := hp.exists_run_under h.rule hj₀ hrun ((h.contains _).1 hc) rfl hin.owns hown
  obtain ⟨ms, ls, hms⟩ := (h.contains _).1 hs
  obtain ⟨j, -, -, w, -, hw, hj, -⟩ := hp.exists_walk h.rule (v := ⟨stopState r, _, _⟩) hms
  obtain rfl : j = r := Int.ofNat.inj (hj.unique (hp.owns_stop hr'))
  rw [Walks, ← ht] at hw
  exact ⟨p', w, hp', run_into hcall hw l, hp.ends_stop hr'⟩

/-- What precedes a visit of a run is on a run to the same end too. -/
theorem along_of_precedes {e u v : Visit} (hv : c.network.Along types j₀ e v)
    (hu : c.Precedes types v u) : c.network.Along types j₀ e u := by
  have hp := h.index.grammar.network
  obtain ⟨l, ⟨p, hrun⟩, q, hrest⟩ := hv
  cases hu with
  | @read a ha hr hc =>
    have hleaves := hp.mem_arcs.1 ha
    obtain ⟨r, hown⟩ := hleaves.owned
    have hown' := (hp.inside_of_reads hleaves hown hr.1).owns
    rw [hr.2] at hown'
    obtain ⟨p', hp'⟩ :=
      hp.exists_run_under h.rule hj₀ hrun ((h.contains _).1 hc) rfl hown' hown
    have hstep : c.network.step types ((a.origin v).config l) (.along a.arc.id) =
        some ⟨a.arc.transition.target, v.origin, v.position, l⟩ := step_read hleaves hr.1
    rw [hr.2] at hstep
    exact ⟨l, ⟨p', hp'⟩, .along a.arc.id :: q, run_cons_iff.2 ⟨_, hstep, hrest⟩⟩
  | @site a r ha hr hc hs =>
    obtain ⟨p', w, hp', hw, hz⟩ := h.exists_run_of_resumes hj₀ hrun ha hr hc hs
    exact ⟨l, ⟨p', hp'⟩, _, run_trans (run_snoc hw (step_back hz)) hrest⟩
  | @inner a r ha hr hc hs =>
    obtain ⟨p', w, hp', hw, hz⟩ := h.exists_run_of_resumes hj₀ hrun ha hr hc hs
    exact ⟨_, ⟨_, run_trans hp' hw⟩, .back :: q, run_cons_iff.2 ⟨_, step_back hz, hrest⟩⟩

end Entered

/-- A call that a run makes, with the visit where it resumes. -/
theorem precedes_of_call {p id callee follow z : Int} {o j k : Nat} {t : Transition} {b : List Move}
    (hsite : c.network.Reaches types (startState i) ⟨p, o, j⟩)
    (hc : c.network.Calls p id t callee follow)
    (hb : c.network.run types (.enter t.target j) b = some ⟨z, j, k, []⟩)
    (hz : c.network.Ends z) :
    c.Precedes types ⟨follow, o, k⟩ ⟨p, o, j⟩ ∧ c.Precedes types ⟨follow, o, k⟩ ⟨z, j, k⟩ := by
  have hp := h.index.grammar.network
  obtain ⟨r, hown⟩ := hc.1.owned
  obtain ⟨i', hi', rfl, ht, -⟩ := hp.of_calls hc hown
  have hinner : c.network.Reaches types (startState i) ⟨z, j, k⟩ := by
    obtain ⟨a, l, ha⟩ := hsite
    exact ⟨_, _, run_trans ha (run_into hc hb l)⟩
  have hzown := hp.owns_of_run hb (by rw [ht]; exact hp.owns_start hi')
  obtain rfl := hp.eq_stop hzown hz
  have hoj : o ≤ j := (bounded_reaches hp h.rule _ hsite).2
  have hjk : j ≤ k := (bounded_reaches hp h.rule _ hinner).2
  have harc := hp.mem_arcs (a := ⟨p, id, t⟩) |>.2 hc.1
  exact ⟨.site (a := ⟨⟨p, id, t⟩, j⟩) harc ⟨hc.2, hoj, hjk⟩ ((h.contains _).2 hsite)
      ((h.contains _).2 hinner),
    .inner (a := ⟨⟨p, id, t⟩, j⟩) harc ⟨hc.2, hoj, hjk⟩ ((h.contains _).2 hsite)
      ((h.contains _).2 hinner)⟩

/-- A run in an invocation read backwards goes from a visit to one that precedes it. -/
theorem reach_of_along {e v : Visit} (he : c.contains e = true) {j : Nat}
    (hj : c.network.Owns j e.state) (hv : c.network.Along types j e v) :
    Relation.ReflTransGen (c.Precedes types) e v := by
  have hp := h.index.grammar.network
  obtain ⟨l, ⟨p, hrun⟩, q, hrest⟩ := hv
  induction hq : q.length using Nat.strongRecOn generalizing v l p q with
  | ind len ih =>
    subst hq
    obtain ⟨s, o, k⟩ := v
    cases q with
    | nil =>
      obtain ⟨s', o', k'⟩ := e
      rw [run_nil, Option.some.injEq, Visit.config, Visit.config, Config.mk.injEq] at hrest
      obtain ⟨rfl, rfl, rfl, -⟩ := hrest
      exact .refl
    | cons m q =>
      obtain ⟨d, hm, htail⟩ := run_cons_iff.1 hrest
      obtain ⟨id, t, j', rfl, ht, hj', rfl⟩ | ⟨id, t, callee, follow, rfl, hc, rfl⟩ |
        ⟨rfl, hz, f, l', hf, rfl⟩ := step_cases hm
      · have hnext := ih q.length (by simp) (v := ⟨t.target, o, j'⟩) l _ (run_snoc hrun hm) q htail rfl
        refine hnext.tail ?_
        exact .read (a := ⟨⟨s, id, t⟩, k⟩) (hp.mem_arcs.2 ht) ⟨hj', rfl⟩
          ((h.contains _).2 (h.reaches_of_run he hj hrun))
      · obtain ⟨b, z, o', k', q, rfl, hb, hz, htail⟩ :=
          exists_return (a := []) htail (by simp [Visit.config])
        obtain rfl := origin_of_run hb
        have hback := run_snoc (run_trans hrun (run_into hc hb l)) (step_back hz)
        have hnext := ih q.length (by simp; omega) (v := ⟨follow, o, k'⟩) l _ hback q htail rfl
        exact hnext.tail (h.precedes_of_call (h.reaches_of_run he hj hrun) hc hb hz).1
      · simp only [Visit.config] at hf hrun
        subst hf
        have hnext := ih q.length (by simp) (v := ⟨f.resume, f.origin, k⟩) l' _ (run_snoc hrun hm) q
          htail rfl
        obtain ⟨a, s', j', id, t, callee, b, rfl, ha, hc, hb⟩ :=
          exists_call (a := []) hrun (Nat.zero_le _) rfl
        obtain rfl := origin_of_run hb
        exact hnext.tail (h.precedes_of_call (h.reaches_of_run he hj ha) hc hb hz).2

/-- What leads back from a visit to another is a run from the one to the other. -/
theorem reach_iff_along {e v : Visit} (he : c.contains e = true) {j : Nat}
    (hj : c.network.Owns j e.state) :
    Relation.ReflTransGen (c.Precedes types) e v ↔ c.network.Along types j e v := by
  refine ⟨fun hv => ?_, h.reach_of_along he hj⟩
  obtain ⟨ms, l, hms⟩ := (h.contains _).1 he
  obtain ⟨j', hj', -, w, -, hw, hown, -⟩ :=
    h.index.grammar.network.exists_walk h.rule (v := e) hms
  obtain rfl := Int.ofNat.inj (hown.unique hj)
  induction hv with
  | refl => exact ⟨[], ⟨w, hw⟩, [], rfl⟩
  | tail _ hstep ih => exact h.along_of_precedes hj' ih hstep

/-- An accepted input has a derivation. -/
theorem exists_derivation (hK : c.accept? = some K) :
    ∃ ms, c.network.run types (.enter (startState i) 0) ms = some ⟨stopState i, 0, K, []⟩ := by
  have hcontains := List.find?_some hK
  rw [h.goal] at hcontains
  obtain ⟨r, hr⟩ : ∃ r, c.index.grammar.rules[i]? = some r := ⟨_, Array.getElem?_eq_getElem h.rule⟩
  obtain ⟨-, hstart, hstop⟩ := h.index.grammar.rule hr
  obtain ⟨ms, hms⟩ := (reaches_stop_iff h.index.grammar.network h.rule hstart hstop).1
    ((h.contains _).1 hcontains)
  rw [IsDerivation, hstart, hstop] at hms
  exact ⟨ms, hms⟩

/-- The seeds of an accepted input are its end, those of a rejected one all visits that are furthest. -/
theorem mem_seeds_iff {v : Visit} :
    v ∈ c.seeds ↔ match c.accept? with
      | some k => v = ⟨stopState i, 0, k⟩
      | none => c.contains v = true ∧ v.position = c.furthest := by
  unfold seeds
  cases c.accept? with
  | some k => rw [h.goal, List.mem_singleton]
  | none =>
    obtain ⟨s, o, k⟩ := v
    obtain ⟨⟨v, hv, hk⟩, -⟩ := h.furthest_spec
    have hlt := (mem_column_iff.1 ((h.contains v).2 hv)).1
    rw [hk] at hlt
    simp only [List.mem_map, mem_column_iff]
    constructor
    · rintro ⟨a, ha, heq⟩
      obtain ⟨rfl, rfl, rfl⟩ := Visit.mk.inj heq
      exact ⟨⟨hlt, ha⟩, rfl⟩
    · rintro ⟨⟨-, ha⟩, rfl⟩
      exact ⟨_, ha, rfl⟩

/-- The useful visits of an accepted input are those on a derivation. -/
theorem useful_iff (hK : c.accept? = some K) :
    ∃ u, (c.useful c.seeds).result = .ok u ∧ ∀ v, v ∈ u.toList ↔ c.network.Visits types i K v := by
  obtain ⟨u, hu, -, hmem⟩ := h.useful_ok c.nodup_seeds fun _ => contains_of_mem_seeds
  refine ⟨u, hu, fun v => ?_⟩
  have hgoal : (⟨stopState i, 0, K⟩ : Visit) ∈ c.seeds := by rw [h.mem_seeds_iff, hK]
  simp only [hmem, h.mem_seeds_iff, hK, exists_eq_left]
  exact h.reach_iff_along (contains_of_mem_seeds hgoal)
    (h.index.grammar.network.owns_stop h.rule)

/-- The useful visits of a rejected input are those on a run, within an invocation, to one of the
furthest visits of the chart. -/
theorem useful_iff_of_rejected (hK : c.accept? = none) :
    ∃ u, (c.useful c.seeds).result = .ok u ∧ ∀ v, v ∈ u.toList ↔
      ∃ e, c.network.Reaches types (startState i) e ∧ e.position = c.furthest ∧
        ∃ j : Nat, c.network.Owns j e.state ∧ c.network.Along types j e v := by
  obtain ⟨u, hu, -, hmem⟩ := h.useful_ok c.nodup_seeds fun _ => contains_of_mem_seeds
  refine ⟨u, hu, fun v => ?_⟩
  simp only [hmem, h.mem_seeds_iff, hK, h.contains, and_assoc]
  refine exists_congr fun e => and_congr_right fun he => and_congr_right fun _ => ?_
  obtain ⟨ms, l, hms⟩ := id he
  obtain ⟨j, -, -, -, -, -, hj, -⟩ :=
    h.index.grammar.network.exists_walk h.rule (v := e) hms
  have hiff := h.reach_iff_along (v := v) ((h.contains e).2 he) hj
  constructor
  · exact fun hv => ⟨j, hj, hiff.1 hv⟩
  · rintro ⟨j', hj', hv⟩
    exact (h.reach_iff_along ((h.contains e).2 he) hj').2 hv

end Recognizes

end Chart

end RuleNetwork
