import RuleNetwork.Chart.Useful
import RuleNetwork.Proofs.Attempt
import RuleNetwork.Proofs.Chart.Acceptance

/-!
What precedes a visit in a chart: the visits from which one token or none leads to it, and for a call
that resumes at it both the visit that made the call and the one that ended it.
-/

set_option autoImplicit false

namespace RuleNetwork

open Network

/-- An arc and the position from which it leads to a visit. -/
structure Approach where
  arc : Arc
  position : Nat

namespace Approach

/-- The arc reads its way to the visit. -/
def Reads (types : List String) (v : Visit) (a : Approach) : Prop :=
  a.arc.transition.Reads types a.position v.position ∧ a.arc.transition.target = v.state

/-- The arc makes a call that resumes at the visit. -/
def Resumes (v : Visit) (callee : Int) (a : Approach) : Prop :=
  a.arc.transition.call? = some (callee, v.state) ∧ v.origin ≤ a.position ∧ a.position ≤ v.position

/-- The visit that the arc leaves. -/
def origin (v : Visit) (a : Approach) : Visit := ⟨a.arc.source, v.origin, a.position⟩

end Approach

namespace Chart

variable {c : Chart} {i : Nat} {types : List String}

/-- A visit of the chart that has to be on every derivation by way of an approach. -/
inductive Precedes (c : Chart) (types : List String) (v : Visit) : Visit → Prop where
  | read {a : Approach} (ha : a.arc ∈ c.index.grammar.network.arcs) (hr : a.Reads types v)
      (hc : c.contains (a.origin v) = true) : Precedes c types v (a.origin v)
  | site {a : Approach} {r : Nat} (ha : a.arc ∈ c.index.grammar.network.arcs)
      (hr : a.Resumes v r) (hc : c.contains (a.origin v) = true)
      (hs : c.contains ⟨stopState r, a.position, v.position⟩ = true) :
      Precedes c types v (a.origin v)
  | inner {a : Approach} {r : Nat} (ha : a.arc ∈ c.index.grammar.network.arcs)
      (hr : a.Resumes v r) (hc : c.contains (a.origin v) = true)
      (hs : c.contains ⟨stopState r, a.position, v.position⟩ = true) :
      Precedes c types v ⟨stopState r, a.position, v.position⟩

theorem mem_drop_range {m o j : Nat} : j ∈ (List.range m).drop o ↔ o ≤ j ∧ j < m := by
  rw [List.range_eq_range', List.drop_range', List.mem_range'_1]
  omega

theorem mem_callBefore {u v : Visit} {site stop : Int} :
    u ∈ c.callBefore v site stop ↔ ∃ j, v.origin ≤ j ∧ j ≤ v.position ∧
      c.contains ⟨site, v.origin, j⟩ = true ∧ c.contains ⟨stop, j, v.position⟩ = true ∧
      (u = ⟨site, v.origin, j⟩ ∨ u = ⟨stop, j, v.position⟩) := by
  unfold callBefore
  rw [List.mem_flatMap]
  constructor
  · rintro ⟨j, hj, hu⟩
    obtain ⟨hoj, hjk⟩ := mem_drop_range.1 hj
    simp only at hu
    split at hu
    · rename_i hc
      obtain ⟨hsite, hinner⟩ := (Bool.and_eq_true_iff).1 hc
      exact ⟨j, hoj, by omega, hsite, hinner, by simpa using hu⟩
    · exact absurd hu List.not_mem_nil
  · rintro ⟨j, hoj, hjk, hsite, hinner, hu⟩
    refine ⟨j, mem_drop_range.2 ⟨hoj, by omega⟩, ?_⟩
    simp only [hsite, hinner, Bool.and_self, if_true]
    simpa using hu

namespace Recognizes

variable (h : c.Recognizes i types)
include h

theorem links {v : Visit} (hv : c.contains v = true) :
    Backlinks.row c.index.links.free v.state =
        .ok (c.index.grammar.network.arcs.filterMap (Arc.free? v.state)) ∧
      Backlinks.row c.index.links.scan v.state =
        .ok (c.index.grammar.network.arcs.filterMap (Arc.scan? v.state)) ∧
      Backlinks.row c.index.links.call v.state =
        .ok (c.index.grammar.network.arcs.filterMap (Arc.resume? v.state)) := by
  obtain ⟨⟨r, st, hs, -⟩, -⟩ :=
    bounded_reaches h.index.grammar.network h.rule v ((h.contains v).1 hv)
  obtain ⟨h0, hlt⟩ := lt_of_state hs
  exact ⟨h.index.links.free.row h0 hlt, h.index.links.scan.row h0 hlt,
    h.index.links.call.row h0 hlt⟩

theorem freeBefore_ok {v : Visit} (hv : c.contains v = true) :
    ∃ l, c.freeBefore v = .ok l ∧ ∀ u, u ∈ l ↔ c.contains u = true ∧
      ∃ a ∈ c.index.grammar.network.arcs, a.transition.isFree = true ∧
        a.transition.target = v.state ∧ u = ⟨a.source, v.origin, v.position⟩ := by
  unfold freeBefore
  rw [(h.links hv).1]
  refine ⟨_, rfl, fun u => ?_⟩
  simp only [List.mem_filter, List.mem_map, List.mem_filterMap, Arc.free?, Option.ite_none_right_eq_some,
    Option.some.injEq]
  constructor
  · rintro ⟨⟨s, ⟨a, ha, ⟨hf, ht⟩, rfl⟩, rfl⟩, hc⟩
    exact ⟨hc, a, ha, hf, ht, rfl⟩
  · rintro ⟨hc, a, ha, hf, ht, rfl⟩
    exact ⟨⟨a.source, ⟨a, ha, ⟨hf, ht⟩, rfl⟩, rfl⟩, hc⟩

theorem scanSources_ok {v : Visit} (hv : c.contains v = true) :
    ∃ l, c.scanSources v = .ok l ∧ ∀ u, u ∈ l ↔
      ∃ a ∈ c.index.grammar.network.arcs, a.transition.kind = .terminal ∧
        a.transition.target = v.state ∧ a.transition.Reads types u.position v.position ∧
        u = ⟨a.source, v.origin, u.position⟩ := by
  have hle := ((h.contains v).1 hv).position_le
  unfold scanSources
  split
  · rename_i h0
    refine ⟨[], rfl, fun u => ⟨fun hu => absurd hu List.not_mem_nil, ?_⟩⟩
    rintro ⟨a, -, hk, -, hr, -⟩
    obtain ⟨-, hp⟩ := (Transition.reads_of_terminal hk).1 hr
    omega
  · rename_i h0
    have hlt : v.position - 1 < types.length := by omega
    have htoken : c.tokenBefore v.position = .ok types[v.position - 1] := by
      unfold tokenBefore
      rw [h.input, List.getElem?_toArray, List.getElem?_eq_getElem hlt]
    rw [htoken, (h.links hv).2.1]
    refine ⟨_, rfl, fun u => ?_⟩
    simp only [List.mem_map, List.mem_filter, List.mem_filterMap, Arc.scan?,
      Option.ite_none_right_eq_some, Option.some.injEq]
    constructor
    · rintro ⟨s, ⟨⟨a, ha, ⟨hk, ht⟩, rfl⟩, htok⟩, rfl⟩
      refine ⟨a, ha, hk, ht, (Transition.reads_of_terminal hk).2 ⟨⟨_, List.getElem?_eq_getElem hlt, ?_⟩, ?_⟩, rfl⟩
      · simpa using htok
      · simp only
        omega
    · rintro ⟨a, ha, hk, ht, hr, hu⟩
      obtain ⟨⟨x, hx, hmem⟩, hp⟩ := (Transition.reads_of_terminal hk).1 hr
      have hp' : u.position = v.position - 1 := by omega
      rw [hp', List.getElem?_eq_getElem hlt] at hx
      cases hx
      exact ⟨_, ⟨⟨a, ha, ⟨hk, ht⟩, rfl⟩, by simpa using hmem⟩, by rw [hu, hp']⟩

/-- What an arc that resumes at a state calls. -/
theorem resume?_eq_some {s : Int} {a : Arc} (ha : a ∈ c.index.grammar.network.arcs)
    {e : Int × Int} (he : a.resume? s = some e) :
    ∃ r < c.index.grammar.rules.size, e = (a.source, Int.ofNat r) ∧
      a.transition.call? = some (Int.ofNat r, s) := by
  have hleaves := h.index.grammar.network.mem_arcs.1 ha
  obtain ⟨⟨callee, follow⟩, hcall, he⟩ := Option.bind_eq_some_iff.1 he
  simp only [Option.ite_none_right_eq_some, Option.some.injEq] at he
  obtain ⟨rfl, rfl⟩ := he
  obtain ⟨r, hr⟩ := hleaves.owned
  obtain ⟨i, hi, rfl, -, -⟩ := h.index.grammar.network.of_calls ⟨hleaves, hcall⟩ hr
  exact ⟨i, hi, rfl, hcall⟩

theorem callBefore_ok (v : Visit) :
    ∃ l, (c.index.grammar.network.arcs.filterMap (Arc.resume? v.state)).mapM
        (fun (caller, callee) => do return c.callBefore v caller (← c.index.stopOf callee)) = .ok l ∧
      ∀ u, u ∈ l.flatten ↔ ∃ (a : Approach) (r : Nat), a.arc ∈ c.index.grammar.network.arcs ∧
        a.Resumes v r ∧ c.contains (a.origin v) = true ∧
        c.contains ⟨stopState r, a.position, v.position⟩ = true ∧
        (u = a.origin v ∨ u = ⟨stopState r, a.position, v.position⟩) := by
  have heach : ∀ e ∈ c.index.grammar.network.arcs.filterMap (Arc.resume? v.state),
      ∃ a ∈ c.index.grammar.network.arcs, ∃ r : Nat, e = (a.source, (r : Int)) ∧
        a.transition.call? = some ((r : Int), v.state) ∧
        c.index.stopOf e.2 = .ok (stopState r) := by
    intro e he
    obtain ⟨a, ha, hae⟩ := List.mem_filterMap.1 he
    obtain ⟨r, hr, rfl, hcall⟩ := h.resume?_eq_some ha hae
    exact ⟨a, ha, r, rfl, hcall, ChartIndex.stopOf_ok h.index.grammar hr⟩
  obtain ⟨l, hl⟩ := exists_mapM (l := c.index.grammar.network.arcs.filterMap (Arc.resume? v.state))
    (f := fun (caller, callee) => do return c.callBefore v caller (← c.index.stopOf callee))
    fun e he => by
      obtain ⟨a, ha, r, rfl, hcall, hstop⟩ := heach e he
      exact ⟨_, bind_eq_ok.2 ⟨_, hstop, rfl⟩⟩
  refine ⟨l, hl, fun u => ?_⟩
  rw [List.mem_flatten]
  constructor
  · rintro ⟨r, hr, hu⟩
    obtain ⟨e, he, hr⟩ := (mem_of_mapM hl).1 hr
    obtain ⟨a, ha, r, rfl, hcall, hstop⟩ := heach e he
    obtain ⟨stop, hstop', hr⟩ := bind_eq_ok.1 hr
    rw [hstop] at hstop'
    cases hstop'
    obtain rfl := pure_eq_ok.1 hr
    obtain ⟨j, hoj, hjk, hsite, hinner, hu⟩ := mem_callBefore.1 hu
    exact ⟨⟨a, j⟩, r, ha, ⟨hcall, hoj, hjk⟩, hsite, hinner, hu⟩
  · rintro ⟨a, r, ha, ⟨hcall, hoj, hjk⟩, hsite, hinner, hu⟩
    have he : (a.arc.source, (r : Int)) ∈
        c.index.grammar.network.arcs.filterMap (Arc.resume? v.state) :=
      List.mem_filterMap.2 ⟨a.arc, ha, by simp [Arc.resume?, hcall]⟩
    obtain ⟨_, _, r', he', _, hstop⟩ := heach _ he
    obtain rfl : r = r' := Int.ofNat.inj (congrArg Prod.snd he')
    exact ⟨_, (mem_of_mapM hl).2 ⟨_, he, bind_eq_ok.2 ⟨_, hstop, rfl⟩⟩,
      mem_callBefore.2 ⟨a.position, hoj, hjk, hsite, hinner, hu⟩⟩

/-- Walking back from a visit of the chart never fails. -/
theorem before_ok {v : Visit} (hv : c.contains v = true) :
    ∃ l, c.before v = .ok l ∧ ∀ u, u ∈ l ↔ c.Precedes types v u := by
  obtain ⟨free, hfree, hmfree⟩ := h.freeBefore_ok hv
  obtain ⟨scan, hscan, hmscan⟩ := h.scanSources_ok hv
  obtain ⟨call, hcall, hmcall⟩ := h.callBefore_ok v
  refine ⟨free ++ scan.filter c.contains ++ call.flatten, ?_, fun u => ?_⟩
  · unfold before
    rw [hfree, hscan, (h.links hv).2.2]
    simp only [bind, Except.bind, pure, Except.pure] at hcall ⊢
    rw [hcall]
  · rw [List.mem_append, List.mem_append, hmfree, List.mem_filter, hmscan, hmcall]
    constructor
    · rintro ((⟨hc, a, ha, hf, ht, rfl⟩ | ⟨⟨a, ha, hk, ht, hr, hu⟩, hc⟩) |
        ⟨a, r, ha, hr, hc, hs, rfl | rfl⟩)
      · exact .read (a := ⟨a, v.position⟩) ha ⟨(Transition.reads_of_isFree hf).2 rfl, ht⟩ hc
      · rw [hu]
        rw [hu] at hc
        exact .read (a := ⟨a, u.position⟩) ha ⟨hr, ht⟩ hc
      · exact .site ha hr hc hs
      · exact .inner ha hr hc hs
    · intro hu
      cases hu with
      | @read a ha hr hc =>
        obtain hf | hk := hr.1.isFree_or_terminal
        · refine .inl (.inl ⟨hc, a.arc, ha, hf, hr.2, ?_⟩)
          rw [(Transition.reads_of_isFree hf).1 hr.1]
          rfl
        · exact .inl (.inr ⟨⟨a.arc, ha, hk, hr.2, hr.1, rfl⟩, hc⟩)
      | site ha hr hc hs => exact .inr ⟨_, _, ha, hr, hc, hs, .inl rfl⟩
      | inner ha hr hc hs => exact .inr ⟨_, _, ha, hr, hc, hs, .inr rfl⟩

end Recognizes

end Chart

end RuleNetwork
