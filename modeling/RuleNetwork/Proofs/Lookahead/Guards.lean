import RuleNetwork.Proofs.Lookahead.Analysis
import RuleNetwork.Proofs.Layout.Compilation
import RuleNetwork.Proofs.Parsing.Totality
import RuleNetwork.Proofs.Run.Trail

/-!
Guards before the first token. An alternative is dynamic if a run that takes it comes to a guard, in the
invocation of the decision, before it reads. A callee is told by its FIRST set alone, so a guard in it
makes no alternative dynamic.
-/

set_option autoImplicit false

namespace RuleNetwork

open Network

namespace Network

variable {n : Network} {rules : Nat} {types : List String} {s id : Int} {t : Transition}

/-- Some run takes the transition first, and comes to a guard before it reads and before the invocation
that it started in ends. The calls that it has made and not ended are open there. -/
def MeetsGuard (n : Network) (s id : Int) (callers : List Frame) : Prop :=
  ∃ types o k ms a o' guard u, n.run types ⟨s, o, k, []⟩ ms = some ⟨a, o', k, callers⟩ ∧
    n.Leaves a guard u ∧ u.kind = .predicate ∧ (ms ++ [Move.along guard]).head? = some (.along id)

/-- A run in one invocation that reads nothing passes the transition of its first step. -/
theorem Proper.quiet_of_run (hp : n.Proper rules) (ht : n.Leaves s id t) {a : Int} {o k : Nat}
    {r : List Move} (h : n.run types ⟨s, o, k, []⟩ (.along id :: r) = some ⟨a, o, k, []⟩) :
    t.Quiet n rules ∧ n.Skips t.next a := by
  rcases first_cases h with ⟨hnil, -⟩ | ⟨id', t', j, r', hms, ht', hj, hr⟩ |
    ⟨id', t', callee, follow, q, z, j, r', hms, hc, hq, hz, hr⟩
  · cases hnil
  · obtain ⟨hid, -⟩ := List.cons.inj hms
    cases hid
    obtain rfl := ht.unique ht'
    have hle := (run_position hr).1
    rcases hj.isFree_or_terminal with hf | hk
    · obtain rfl := (Transition.reads_of_isFree hf).1 hj
      rw [Transition.next_of_ne hj.kind_ne]
      exact ⟨.inl hf, skips_of_run hr⟩
    · -- a terminal would move on
      obtain ⟨-, rfl⟩ := (Transition.reads_of_terminal hk).1 hj
      simp only at hle
      omega
  · obtain ⟨hid, -⟩ := List.cons.inj hms
    cases hid
    obtain rfl := ht.unique hc.1
    have hle := (run_position hr).1
    obtain rfl : j = k := Nat.le_antisymm hle (run_position hq).1
    obtain ⟨owner, ho⟩ := ht.owned
    obtain ⟨i, hi, rfl, htarget, -⟩ := hp.of_calls hc ho
    rw [htarget] at hq
    obtain rfl := hp.eq_stop (hp.owns_of_run hq (hp.owns_start hi)) hz
    rw [Transition.next_of_call? hc.2]
    exact ⟨.inr ⟨_, follow, hc.2, i, hi, rfl, skips_of_run hq⟩, skips_of_run hr⟩

/-- A transition that can be passed without reading, passed. -/
theorem Proper.exists_run_of_quiet (hp : n.Proper rules) (ht : n.Leaves s id t)
    (hq : t.Quiet n rules) :
    ∃ ms, n.run [] ⟨s, 0, 0, []⟩ (.along id :: ms) = some ⟨t.next, 0, 0, []⟩ := by
  rcases hq with hf | ⟨callee, follow, hc, i, hi, hcallee, hskips⟩
  · have hj : t.Reads [] 0 0 := (Transition.reads_of_isFree hf).2 rfl
    rw [Transition.next_of_ne hj.kind_ne]
    exact ⟨[], run_cons_iff.2 ⟨_, step_read ht hj, rfl⟩⟩
  · obtain ⟨owner, ho⟩ := ht.owned
    obtain ⟨i', -, hcallee', htarget, -⟩ := hp.of_calls ⟨ht, hc⟩ ho
    obtain rfl := Int.ofNat.inj (hcallee.symm.trans hcallee')
    obtain ⟨q, hq⟩ := hskips
    rw [Transition.next_of_call? hc]
    rw [← htarget] at hq
    exact ⟨_, run_over ⟨ht, hc⟩ hq (hp.ends_stop hi) 0 []⟩

/-- A guard met with no call open is one that the transition leads on to. -/
theorem Proper.meetsGuard_iff (hp : n.Proper rules) (ht : n.Leaves s id t) :
    n.MeetsGuard s id [] ↔ t.Guarded n rules := by
  constructor
  · rintro ⟨types, o, k, ms, a, o', guard, u, hrun, hu, hk, hfirst⟩
    cases ms with
    | nil =>
      cases hrun
      cases hfirst
      obtain rfl := ht.unique hu
      exact .inl hk
    | cons m r =>
      cases hfirst
      obtain rfl := origin_of_run hrun
      obtain ⟨hq, hskips⟩ := hp.quiet_of_run ht hrun
      exact .inr ⟨hq, a, guard, u, hskips, hu, hk⟩
  · rintro (hk | ⟨hq, a, guard, u, hskips, hu, hk⟩)
    · exact ⟨[], 0, 0, [], s, 0, id, t, rfl, ht, hk, rfl⟩
    · obtain ⟨p, hp'⟩ := hp.exists_run_of_quiet ht hq
      obtain ⟨r, hr⟩ := hskips
      exact ⟨[], 0, 0, _, a, 0, guard, u, run_trans hp' hr, hu, hk, rfl⟩

end Network

/-- In a built grammar an alternative is dynamic exactly if some run that takes it comes to a guard in the
invocation of the decision before it reads. A guard that is only met inside a call does not count. -/
theorem dynamic_of_build {b b' : Builder} {g : Grammar} (hb : Builder.build.run.run b = (.ok g, b'))
    {asked : List String} (hasked : ∀ name ∈ asked, b.declares name = true) (firstOnly : Bool) :
    ∃ a, Lookahead.ofGrammar g asked firstOnly = .ok a ∧ ∀ d ∈ g.decisions, ∃ sets,
      a.lookaheads d = .ok sets ∧ (∀ k < sets.length, ∃ id, g.network.Offers d.state (k + 1) id) ∧
      ∀ k id, g.network.Offers d.state (k + 1) id → ∃ set, sets[k]? = some set ∧
        (set.dynamic = true ↔ g.network.MeetsGuard d.state id []) := by
  have hg := Builder.proper_of_build hb
  have hhas := Builder.hasRule_of_build hb
  obtain ⟨entries, hentries⟩ := hg.entries_ok
    (fun name hn => (hhas name).trans ((Builder.build_ok hb).2.2.1 name hn))
    fun name hn => (hhas name).trans (hasked name hn)
  obtain ⟨a, ha, hexact⟩ := hg.lookahead_ok hentries firstOnly
  refine ⟨a, ha, fun d hd => ?_⟩
  obtain ⟨sets, hsets, _, -, -, hcount, hspec⟩ := hexact.lookaheads_ok hg hd
  refine ⟨sets, hsets, hcount, fun k id hof => ?_⟩
  obtain ⟨t, ht⟩ := hg.network.leaves_of_offers hof
  obtain ⟨set, hset, hdynamic, -⟩ := hspec k id t hof ht
  exact ⟨set, hset, hdynamic.trans (hg.network.meetsGuard_iff ht).symm⟩

/-- A choice between a rule that begins with a guard and the token that comes after the guard. -/
def Builder.warded : Builder where
  name := "warded"
  entryRules := ["s"]
  rules := [
    { name := "s", kind := .parser, body := some (.choice [.call "r", .token ["'a'"]]) },
    { name := "r", kind := .parser, body := some (.sequence [.guard "p", .token ["'a'"]]) }]

/-- The network of the choice at work: the run into the rule with the guard, the one state that a guard
leaves, and the rules of that state and of the choice. -/
theorem Builder.warded_computed :
    (networkOf warded.bodies).run [] ⟨4, 0, 0, []⟩ [.along 1, .along 0, .along 11] =
        some ⟨10, 0, 0, [⟨7, 0⟩]⟩ ∧
      (∃ a ∈ (networkOf warded.bodies).arcs, a.source = 10 ∧ a.transition.kind = .predicate) ∧
      ((networkOf warded.bodies).arcs.all fun a =>
        a.transition.kind != .predicate || a.source == 10) = true ∧
      (networkOf warded.bodies).states[4]?.map (fun st => (st.rule, st.transitions)) =
        some (0, [1, 4]) ∧
      (networkOf warded.bodies).states[10]?.map State.rule = some 1 := by
  decide +kernel

/-- The first alternative of the choice meets the guard in the call that it makes, and is not dynamic. -/
theorem warded_dynamic : ∃ g b' a d sets set id, Builder.build.run.run Builder.warded = (.ok g, b') ∧
    Lookahead.ofGrammar g ["s"] false = .ok a ∧ d ∈ g.decisions ∧ a.lookaheads d = .ok sets ∧
    sets[0]? = some set ∧ g.network.Offers d.state 1 id ∧
    g.network.MeetsGuard d.state id [⟨7, 0⟩] ∧ set.dynamic = false := by
  obtain ⟨g, b', hb, hd⟩ : ∃ g b', Builder.build.run.run Builder.warded = (.ok g, b') ∧
      (⟨0, 0, 4, 2⟩ : Decision) ∈ g.decisions := ⟨_, _, rfl, by decide +kernel⟩
  have hasked : ∀ name ∈ ["s"], Builder.warded.declares name = true := by decide
  obtain ⟨a, ha, hdecisions⟩ := dynamic_of_build hb hasked false
  obtain ⟨sets, hsets, -, hspec⟩ := hdecisions _ hd
  have hp := (Builder.proper_of_build hb).network
  obtain ⟨hrun, ⟨guard, hguard, hsource, hkind⟩, honly, hfour, hten⟩ := Builder.warded_computed
  rw [← (Builder.build_ok hb).2.1] at hrun hguard honly hfour hten
  obtain ⟨four, hfour, hout⟩ := Option.map_eq_some_iff.1 hfour
  obtain ⟨hown, hout⟩ := Prod.mk.inj hout
  obtain ⟨ten, hten, hother⟩ := Option.map_eq_some_iff.1 hten
  have hfour := state_eq_ok_iff.2 ⟨(by decide : (0 : Int) ≤ 4), hfour⟩
  have hten := state_eq_ok_iff.2 ⟨(by decide : (0 : Int) ≤ 10), hten⟩
  have hof : g.network.Offers 4 1 1 := ⟨four, hfour, 0, by rw [hout]; rfl, rfl⟩
  obtain ⟨set, hset, hdynamic⟩ := hspec 0 1 hof
  refine ⟨g, b', a, _, sets, set, 1, hb, ha, hd, hsets, hset, hof, ?_, ?_⟩
  · exact ⟨[], 0, 0, _, 10, 0, guard.id, _, hrun, hsource ▸ hp.mem_arcs.1 hguard, hkind, rfl⟩
  · rw [← Bool.not_eq_true, hdynamic]
    rintro ⟨types, o, k, ms, x, o', id, u, hrun, hu, hk, -⟩
    -- with no call open the run is still in the first rule, but the guard is in the second
    have hx := List.all_eq_true.1 honly ⟨x, id, u⟩ (hp.mem_arcs.2 hu)
    simp only [hk, bne_self_eq_false, Bool.false_or, beq_iff_eq] at hx
    subst hx
    have hown : g.network.Owns 0 10 := hp.owns_of_run hrun ⟨four, hfour, hown⟩
    exact absurd (hown.unique ⟨ten, hten, hother⟩) (by decide)

end RuleNetwork
