import RuleNetwork.Proofs.Parsing.Totality
import RuleNetwork.Proofs.Run.Closure

/-!
The useful visits of a rejected input. The walk backwards starts at all visits that are furthest and
stays in their invocations and in calls that these have come back from. A caller that is still waiting
is therefore useful only if some visit of its own is furthest.
-/

set_option autoImplicit false

namespace RuleNetwork

open Network

/-- A run of the rule that reads the first `k` tokens goes by the visit. It may leave calls open. -/
def Network.Approaches (n : Network) (types : List String) (i k : Nat) (v : Visit) : Prop :=
  ∃ l, (∃ p, n.run types (.enter (startState i) 0) p = some (v.config l)) ∧
    ∃ q d, n.run types (v.config l) q = some d ∧ d.position = k

theorem Network.Along.approaches {n : Network} {rules : Nat} (hp : n.Proper rules)
    {types : List String} {i j : Nat} (hi : i < rules) {e v : Visit}
    (he : n.Reaches types (startState i) e) (hj : n.Owns j e.state) (hv : n.Along types j e v) :
    n.Approaches types i e.position v := by
  obtain ⟨ms, l, hms⟩ := he
  obtain ⟨j', -, p, -, -, -, hown, hp'⟩ := hp.exists_walk hi (v := e) hms
  obtain rfl := Int.ofNat.inj (hj.unique hown)
  obtain ⟨inner, ⟨y, hy⟩, q, hq⟩ := hv
  exact ⟨inner ++ l, ⟨p ++ y, run_trans hp' (run_under hy l)⟩, q, _, run_under hq l, rfl⟩

theorem Network.Owns.rule_eq {n : Network} {r s : Int} (h : n.Owns r s) :
    (n.state s).toOption.map State.rule = some r := by
  obtain ⟨st, hs, rfl⟩ := h
  rw [hs]
  rfl

/-- What a parse of a rejected input finds useful: all of it lies on runs that read as many tokens as a
run can, but of such a run only the part in the innermost invocation is sure to be found. -/
theorem useful_of_rejected {b b' : Builder} {g : Grammar} (hb : Builder.build.run.run b = (.ok g, b'))
    {i : Nat} {r : Rule} (hr : g.rules[i]? = some r) (tokens : TokenStream) :
    ∃ p, ParseTables.ofGrammar g = .ok p ∧ ∃ x c u m n t, p.Parsed i tokens x c u m n t ∧
      (p.parse i tokens).run none = .ok (x, none) ∧
      (∀ granted y left, (p.parse i tokens).run granted = .ok (y, left) → y = x) ∧
      (x.outcome ≠ .succeeded →
        (∃ v, g.network.Reaches tokens.types (startState i) v ∧ v.position = c.furthest) ∧
        (∀ v, g.network.Reaches tokens.types (startState i) v → v.position ≤ c.furthest) ∧
        (∀ v ∈ u.toList, g.network.Approaches tokens.types i c.furthest v) ∧
        (∀ v, v ∈ u.toList ↔ ∃ e, g.network.Reaches tokens.types (startState i) e ∧
          e.position = c.furthest ∧ ∃ j : Nat, g.network.Owns j e.state ∧
            g.network.Along tokens.types j e v) ∧
        ∀ a, a ∈ x.visitedRules ↔ ∃ v ∈ u.toList, g.network.Owns a v.state) := by
  have hg := Builder.proper_of_build hb
  have hi := (Array.getElem?_eq_some_iff.1 hr).1
  obtain ⟨p, hp⟩ := ParseTables.exists_tables hg
  obtain ⟨x, c, u, m, n, t, hparsed, hrun, hunique⟩ := ParseTables.parse_ok hg hp hi tokens
  obtain ⟨hindex, hgrammar, hrec⟩ := hparsed.recognizes hg hp hi
  refine ⟨p, hp, x, c, u, m, n, t, hparsed, hrun, hunique, fun hx => ?_⟩
  have hK : c.accept? = none := by
    rw [← Option.not_isSome_iff_eq_none]
    exact fun haccepted => hx (hparsed.succeeded_iff.2 haccepted)
  have hnet : c.network = g.network := by rw [Chart.network, hindex, hgrammar]
  obtain ⟨u', hu', huseful⟩ := hrec.useful_iff_of_rejected hK
  rw [hparsed.useful] at hu'
  obtain rfl := Except.ok.inj hu'
  rw [hnet] at huseful
  have hfurthest := hrec.furthest_spec
  rw [hindex, hgrammar] at hfurthest
  refine ⟨hfurthest.1, hfurthest.2, fun v hv => ?_, huseful, fun a => ?_⟩
  · obtain ⟨e, he, hpos, j, hj, hv⟩ := (huseful v).1 hv
    exact hpos ▸ hv.approaches hg.network hi he hj
  · obtain ⟨hrules, -⟩ := (Traces.tells_of_execution hparsed.execution).coverage
    obtain ⟨l, hl, -, hmem⟩ := (hparsed.noted hg hp hi).rulesVisited_ok
    rw [hrules] at hl
    rw [Except.ok.inj hl, hmem, hparsed.network_eq hg hp hi, hparsed.useful_eq]

/-- A rule that does nothing but call another one. -/
def Builder.calling : Builder where
  name := "calling"
  rules := [
    { name := "outer", kind := .parser, body := some (.call "inner") },
    { name := "inner", kind := .parser, body := some (.sequence [.token ["'a'"], .token ["'b'"]]) }]

section Calling

/-- One letter and the end of the input. -/
private abbrev letter : List String := ["'a'"] ++ [endOfInput]

theorem Builder.proper_calling : (networkOf calling.bodies).Proper 2 :=
  proper_bodies (show build.run.run calling = (.ok _, _) from rfl)

/-- The network of the call at work: what its two rules come to on the letter, the states of the rule
that is called and a run to the furthest of them. -/
theorem Builder.calling_computed :
    (networkOf calling.bodies).closes letter
        [⟨0, 0, 0⟩, ⟨4, 0, 0⟩, ⟨2, 0, 0⟩, ⟨6, 0, 0⟩, ⟨7, 0, 1⟩, ⟨8, 0, 1⟩] = true ∧
      (networkOf calling.bodies).closes letter [⟨2, 0, 0⟩, ⟨6, 0, 0⟩, ⟨7, 0, 1⟩, ⟨8, 0, 1⟩] = true ∧
      (∀ s ∈ ([2, 6, 7, 8] : List Int),
        ((networkOf calling.bodies).state s).toOption.map State.rule = some 1) ∧
      (networkOf calling.bodies).run letter (.enter (startState 0) 0)
        [.along 1, .along 0, .along 6, .along 3, .along 5] = some ⟨8, 0, 1, [⟨5, 0⟩]⟩ := by
  decide +kernel

theorem Builder.calling_reaches {v : Visit}
    (hv : (networkOf calling.bodies).Reaches letter (startState 0) v) :
    v ∈ ([⟨0, 0, 0⟩, ⟨4, 0, 0⟩, ⟨2, 0, 0⟩, ⟨6, 0, 0⟩, ⟨7, 0, 1⟩, ⟨8, 0, 1⟩] : List Visit) := by
  obtain ⟨hcloses, -⟩ := calling_computed
  exact (Network.closed_of_closes proper_calling (by decide) hcloses).of_reaches proper_calling
    (Nat.zero_lt_succ 1) hv

theorem Builder.calling_owner : ∀ s ∈ ([2, 6, 7, 8] : List Int),
    ((networkOf calling.bodies).state s).toOption.map State.rule = some 1 :=
  calling_computed.2.2.1

/-- A run of the rule that is called stays in it. -/
theorem Builder.calling_inner {s : Int} {o k : Nat} {j : Nat} {v : Visit} (hk : k = 1)
    (he : (networkOf calling.bodies).Reaches letter (startState 0) ⟨s, o, k⟩)
    (hj : (networkOf calling.bodies).Owns j s)
    (hv : (networkOf calling.bodies).Along letter j ⟨s, o, k⟩ v) :
    v ∈ ([⟨2, 0, 0⟩, ⟨6, 0, 0⟩, ⟨7, 0, 1⟩, ⟨8, 0, 1⟩] : List Visit) := by
  have howner : (s = 7 ∨ s = 8) ∧ o = 0 := by
    have := calling_reaches he
    simp [hk] at this
    omega
  obtain rfl : j = 1 := by
    have hrule := hj.rule_eq
    obtain ⟨rfl | rfl, -⟩ := howner
    · rw [calling_owner 7 (by decide)] at hrule
      exact Int.ofNat.inj (Option.some.inj hrule).symm
    · rw [calling_owner 8 (by decide)] at hrule
      exact Int.ofNat.inj (Option.some.inj hrule).symm
  obtain ⟨-, rfl⟩ := howner
  obtain ⟨l, ⟨p, hp⟩, -⟩ := hv
  obtain ⟨-, hcloses, -⟩ := calling_computed
  exact (Network.closed_of_closes proper_calling (i := 1) (by decide) hcloses).of_reaches
    proper_calling (Nat.lt_succ_self 1) ⟨p, l, hp⟩

/-- A call that is open at the end of all that can be read hides its caller: a run goes by the start of
the parse, which is not found useful, and the start rule is not told of. -/
theorem calling_hides_caller : ∃ g b' p x c u m n t,
    Builder.build.run.run Builder.calling = (.ok g, b') ∧ ParseTables.ofGrammar g = .ok p ∧
      p.Parsed (0 : Nat) (.ofTypes ["'a'"]) x c u m n t ∧ x.outcome ≠ .succeeded ∧
      g.network.Approaches (TokenStream.ofTypes ["'a'"]).types 0 c.furthest ⟨startState 0, 0, 0⟩ ∧
      ⟨startState 0, 0, 0⟩ ∉ u.toList ∧ 0 ∉ x.visitedRules := by
  obtain ⟨g, b', r, hb, hr⟩ : ∃ g b' r, Builder.build.run.run Builder.calling = (.ok g, b') ∧
      g.rules[0]? = some r := ⟨_, _, _, rfl, rfl⟩
  have hg := Builder.proper_of_build hb
  obtain ⟨p, hp, x, c, u, m, n, t, hparsed, -, -, hrejected⟩ :=
    useful_of_rejected hb hr (.ofTypes ["'a'"])
  obtain ⟨hindex, hgrammar, hrec⟩ := hparsed.recognizes hg hp (Array.getElem?_eq_some_iff.1 hr).1
  have hnet := (Builder.build_ok hb).2.1
  rw [hnet, TokenStream.types_ofTypes] at hrejected
  have hoff : x.outcome ≠ .succeeded := fun hx => by
    obtain ⟨K, hK⟩ := Option.isSome_iff_exists.1 (hparsed.succeeded_iff.1 hx)
    obtain ⟨d, hd⟩ := hrec.exists_derivation hK
    rw [Chart.network, hindex, hgrammar, hnet, TokenStream.types_ofTypes] at hd
    have := Builder.calling_reaches (v := ⟨stopState 0, 0, K⟩) ⟨d, [], hd⟩
    simp [stopState] at this
  obtain ⟨⟨e, he, hpos⟩, hmost, -, huseful, hrules⟩ := hrejected hoff
  obtain ⟨-, -, -, hrun⟩ := Builder.calling_computed
  have hfurthest : c.furthest = 1 := by
    have hle := hmost ⟨8, 0, 1⟩ ⟨_, _, hrun⟩
    have hmem := Builder.calling_reaches he
    simp only [List.mem_cons, List.not_mem_nil, or_false] at hmem
    obtain rfl | rfl | rfl | rfl | rfl | rfl := hmem <;> simp only at hpos hle <;> omega
  have hinner : ∀ v ∈ u.toList, v.state ∈ ([2, 6, 7, 8] : List Int) := fun v hv => by
    obtain ⟨⟨s, o, k⟩, he, hpos, j, hj, hv⟩ := (huseful v).1 hv
    have := Builder.calling_inner (hpos.trans hfurthest) he hj hv
    simp only [List.mem_cons, List.not_mem_nil, or_false] at this ⊢
    obtain rfl | rfl | rfl | rfl := this <;> simp
  refine ⟨g, b', p, x, c, u, m, n, t, hb, hp, hparsed, hoff, ?_, fun hu => ?_, fun hvisited => ?_⟩
  · rw [hnet, TokenStream.types_ofTypes, hfurthest]
    exact ⟨[], ⟨[], rfl⟩, _, _, hrun, rfl⟩
  · exact absurd (hinner _ hu) (by decide)
  · obtain ⟨v, hv, hown⟩ := (hrules 0).1 hvisited
    have hrule := hown.rule_eq
    rw [Builder.calling_owner _ (hinner v hv)] at hrule
    exact absurd hrule (by decide)

end Calling

end RuleNetwork
