import RuleNetwork.Proofs.Lookahead.Next
import RuleNetwork.Proofs.Parsing.Totality
import RuleNetwork.Proofs.Run.Closure

/-!
The FOLLOW sets of a built grammar. They are the least ones that the call sites allow, and hold all that
comes next in runs. They hold nothing else if every rule derives something and no walk comes by a terminal
without tokens; past such a terminal no run gets, but the call sites behind it count.
-/

set_option autoImplicit false

namespace RuleNetwork

open Network

/-- What the call sites ask of a family of sets of tokens, one for each rule: the end of input after the
entry rules, and after a callee what is read first where the caller resumes and, if the caller may end
there without reading, all that comes after the caller. -/
structure Grammar.Continues (g : Grammar) (entries : List Int) (f : Int → String → Prop) : Prop where
  entry : ∀ r ∈ entries, f r endOfInput
  token : ∀ i < g.rules.size, ∀ callee follow, g.network.Site i callee follow →
    ∀ x, g.network.Begins follow x → f callee x
  caller : ∀ i < g.rules.size, ∀ callee follow, g.network.Site i callee follow →
    g.network.Skips follow (stopState i) → ∀ x, f i x → f callee x

/-- Terminals without tokens can be ruled out by a look at all transitions. -/
theorem Network.Proper.labelled_of_arcs {n : Network} {rules : Nat} (hp : n.Proper rules)
    (h : (n.arcs.all fun a => a.transition.kind != .terminal || !a.transition.tokens.isEmpty) = true) :
    n.Labelled rules := by
  intro i _ s _ id t ht hk hnil
  have := List.all_eq_true.1 h ⟨s, id, t⟩ (hp.mem_arcs.2 ht)
  simp [hk, hnil] at this

theorem Network.Proper.onto_of_arcs {n : Network} {rules : Nat} (hp : n.Proper rules) {s s' : Int}
    (h : (n.arcs.any fun a => a.source == s && a.transition.next == s') = true) : n.Onto s s' := by
  obtain ⟨a, ha, hboth⟩ := List.any_eq_true.1 h
  obtain ⟨hsource, hnext⟩ := Bool.and_eq_true_iff.1 hboth
  rw [← beq_iff_eq.1 hsource]
  exact ⟨a.id, a.transition, hp.mem_arcs.1 ha, beq_iff_eq.1 hnext⟩

namespace Grammar

variable {g : Grammar} {entries : List Int}

theorem continues_follows (g : Grammar) (entries : List Int) :
    g.Continues entries (g.Follows entries) where
  entry _ hr := .entry hr
  token _ hi _ _ hs _ hx := .token hi hs hx
  caller _ hi _ _ hs hend _ hx := .caller hi hs hend hx

theorem Continues.of_follows {f : Int → String → Prop} (h : g.Continues entries f) {r : Int} {x : String}
    (hx : g.Follows entries r x) : f r x := by
  induction hx with
  | entry hr => exact h.entry _ hr
  | token hi hs hx => exact h.token _ hi _ _ hs _ hx
  | caller hi hs hend _ ih => exact h.caller _ hi _ _ hs hend _ ih

/-- Every rule derives some input. -/
def Derivable (g : Grammar) : Prop := ∀ r ∈ g.ruleList, ∃ types, g.network.Derives r types

namespace Proper

variable (hg : g.Proper)
include hg

theorem productive_of_derivable (h : g.Derivable) : g.network.Productive g.rules.size := by
  intro i hi
  obtain ⟨r, hr, -, hstart, hstop⟩ := hg.exists_mem_ruleList hi
  obtain ⟨types, ms, hms⟩ := h r hr
  unfold IsDerivation at hms
  rw [hstart, hstop] at hms
  exact ⟨types, ms, hms⟩

theorem derivable_of_productive (h : g.network.Productive g.rules.size) : g.Derivable := by
  intro r hr
  obtain ⟨i, hi, -, -, hstart, hstop⟩ := hg.exists_rule hr
  obtain ⟨w, ms, hms⟩ := h i hi
  refine ⟨w, ms, ?_⟩
  unfold IsDerivation
  rwa [hstart, hstop]

/-- Where all that a walk comes by can be run, the tokens that come after a rule as the call sites say are
those that come next after an invocation of it. -/
theorem follows_iff_next (hderivable : g.Derivable) (hlabelled : g.network.Labelled g.rules.size) {j : Nat}
    (hj : j < g.rules.size) {x : String} : g.Follows entries j x ↔ g.Next entries j x := by
  have hproductive := hg.productive_of_derivable hderivable
  exact ⟨fun h => next_of_embeds hproductive hj (hg.embeds_of_follows hlabelled hproductive h rfl hj),
    hg.follows_of_next hj⟩

end Proper

end Grammar

theorem Lookahead.Exact.followOf_ok {a : Lookahead} {g : Grammar} {entries : List Int}
    (h : a.Exact g entries) {i : Int} {name : String} (hname : g.ruleIndex name = .ok i) :
    ∃ set, a.followOf name = .ok set ∧ ∀ x, set.contains x = true ↔ g.Follows entries i x := by
  refine ⟨_, bind_eq_ok.2 ⟨i, by rw [h.grammar]; exact hname, rfl⟩, fun x => ?_⟩
  rw [LookaheadSet.contains_ofTokens]
  exact h.follow i x

/-- The analysis of a built grammar finds the least family of sets that its call sites allow, and holds
in it whatever comes next after an invocation. If every rule derives something and every terminal that a
walk comes by names a token, it holds nothing else. -/
theorem follow_of_build {b b' : Builder} {g : Grammar} (hb : Builder.build.run.run b = (.ok g, b'))
    {asked : List String} (hasked : ∀ name ∈ asked, b.declares name = true) (firstOnly : Bool) :
    ∃ a entries, Lookahead.ofGrammar g asked firstOnly = .ok a ∧
      (g.entriesOr asked).mapM g.ruleIndex = .ok entries ∧
      ∃ f : Int → String → Prop, g.Continues entries f ∧
        (∀ f', g.Continues entries f' → ∀ r x, f r x → f' r x) ∧
        ∀ name, b.declares name = true → ∃ (j : Nat) (r : Rule) (set : LookaheadSet),
          g.rule name = .ok r ∧ r.name = name ∧ r.index = j ∧ a.followOf name = .ok set ∧
          (∀ x, set.contains x = true ↔ f j x) ∧
          (∀ x, g.Next entries j x → set.contains x = true) ∧
          (g.Derivable → g.network.Labelled g.rules.size →
            ∀ x, set.contains x = true ↔ g.Next entries j x) := by
  have hg := Builder.proper_of_build hb
  have hhas := Builder.hasRule_of_build hb
  obtain ⟨entries, hentries⟩ := hg.entries_ok
    (fun name hn => (hhas name).trans ((Builder.build_ok hb).2.2.1 name hn))
    fun name hn => (hhas name).trans (hasked name hn)
  obtain ⟨a, ha, hexact⟩ := hg.lookahead_ok hentries firstOnly
  refine ⟨a, entries, ha, hentries, g.Follows entries, g.continues_follows entries,
    fun f hf r x => hf.of_follows, fun name hn => ?_⟩
  obtain ⟨j, r, hr, hname, hindex, hrule⟩ := hg.rule_of_hasRule ((hhas name).trans hn)
  obtain ⟨set, hset, hmem⟩ := hexact.followOf_ok hindex
  have hj := (Array.getElem?_eq_some_iff.1 hr).1
  exact ⟨j, r, set, hrule, hname, (hg.rule hr).1, hset, hmem,
    fun x hx => (hmem x).2 (hg.follows_of_next hj hx),
    fun hderivable hlabelled x => (hmem x).trans (hg.follows_iff_next hderivable hlabelled hj)⟩

/-- The network of brackets at work: a run of each rule, and a token at every terminal. -/
theorem Builder.brackets_computed :
    (networkOf brackets.bodies).run [] (.enter (startState 0) 0) [.along 4, .along 2, .along 5] =
        some ⟨stopState 0, 0, 0, []⟩ ∧
      (networkOf brackets.bodies).run ["'('", "')'"] (.enter (startState 1) 0)
          [.along 11, .along 6, .along 8, .along 7, .along 4, .along 2, .along 5, .back, .along 10,
            .along 9, .along 12] = some ⟨stopState 1, 0, 2, []⟩ ∧
      ((networkOf brackets.bodies).arcs.all fun a =>
        a.transition.kind != .terminal || !a.transition.tokens.isEmpty) = true := by
  decide +kernel

/-- What comes after a row of brackets is what comes next after it in runs. -/
theorem brackets_follow : ∃ g b' a entries set, Builder.build.run.run Builder.brackets = (.ok g, b') ∧
    g.Derivable ∧ g.network.Labelled g.rules.size ∧ Lookahead.ofGrammar g ["row"] false = .ok a ∧
    a.followOf "row" = .ok set ∧ ∀ x, set.contains x = true ↔ g.Next entries 0 x := by
  obtain ⟨g, b', hb, hsize⟩ : ∃ g b', Builder.build.run.run Builder.brackets = (.ok g, b') ∧
      g.rules.size = 2 := ⟨_, _, rfl, rfl⟩
  have hasked : ∀ name ∈ ["row"], Builder.brackets.declares name = true := by decide
  obtain ⟨a, entries, ha, -, f, -, -, hrules⟩ := follow_of_build hb hasked false
  obtain ⟨j, r, set, hr, -, hj, hset, -, -, hiff⟩ := hrules "row" (by decide)
  have hg := Builder.proper_of_build hb
  obtain ⟨hrow, hpair, htokens⟩ := Builder.brackets_computed
  rw [← (Builder.build_ok hb).2.1] at hrow hpair htokens
  have hderivable : g.Derivable := hg.derivable_of_productive fun i hi => by
    rw [hsize] at hi
    obtain rfl | rfl : i = 0 ∨ i = 1 := by omega
    · exact ⟨_, _, hrow⟩
    · exact ⟨_, _, hpair⟩
  have hlabelled : g.network.Labelled g.rules.size := hg.network.labelled_of_arcs htokens
  obtain rfl : j = 0 := by
    cases hb
    cases hr
    exact Int.ofNat.inj hj.symm
  exact ⟨g, b', a, entries, set, hb, hderivable, hlabelled, ha, hset, hiff hderivable hlabelled⟩

/-- A rule with an alternative behind a terminal that has no tokens. -/
def Builder.gap : Builder where
  name := "gap"
  entryRules := ["a"]
  rules := [
    { name := "a", kind := .parser,
      body := some (.choice [.token ["'x'"], .sequence [.token [], .call "b", .token ["'y'"]]]) },
    { name := "b", kind := .parser, body := some (.token ["'z'"]) }]

/-- The network of the gap at work: a run of each rule, the walk over the terminal to the call, what the
call is followed by, and states that nothing read leads out of. -/
theorem Builder.gap_computed :
    (networkOf gap.bodies).run ["'x'"] (.enter (startState 0) 0)
        [.along 10, .along 1, .along 0, .along 2, .along 11] = some ⟨stopState 0, 0, 1, []⟩ ∧
      (networkOf gap.bodies).run ["'z'"] (.enter (startState 1) 0) [.along 13, .along 12, .along 14] =
        some ⟨stopState 1, 0, 1, []⟩ ∧
      (([(0, 4), (4, 8), (8, 9), (9, 10)] : List (Int × Int)).all fun e =>
        (networkOf gap.bodies).arcs.any fun a => a.source == e.1 && a.transition.next == e.2) = true ∧
      (∃ a ∈ (networkOf gap.bodies).arcs, a.source = 10 ∧ a.transition.call? = some (1, 11)) ∧
      (networkOf gap.bodies).run ["'y'"] (.enter 11 0) [.along 7, .along 6] = some ⟨13, 0, 1, []⟩ ∧
      (networkOf gap.bodies).arcs.all (Arc.stays [0, 4, 6, 7, 5, 1, 8, 2, 14, 15, 3]) = true ∧
      ((networkOf gap.bodies).arcs.all fun a =>
        !([0, 4, 6, 7, 5, 1, 8, 2, 14, 15, 3] : List Int).contains a.source ||
          !a.transition.tokens.contains "'y'") = true := by
  decide +kernel

theorem Builder.gap_size {g : Grammar} {b' : Builder} (h : build.run.run gap = (.ok g, b')) :
    g.rules.size = 2 := by
  cases h
  rfl

theorem Builder.gap_derivable {g : Grammar} {b' : Builder} (h : build.run.run gap = (.ok g, b')) :
    g.Derivable := by
  obtain ⟨hone, htwo, -⟩ := gap_computed
  rw [← (build_ok h).2.1] at hone htwo
  refine (proper_of_build h).derivable_of_productive fun i hi => ?_
  rw [gap_size h] at hi
  obtain rfl | rfl : i = 0 ∨ i = 1 := by omega
  · exact ⟨_, _, hone⟩
  · exact ⟨_, _, htwo⟩

/-- A walk in the rule steps over the terminal, and comes by the call. -/
theorem Builder.gap_site {g : Grammar} {b' : Builder} (h : build.run.run gap = (.ok g, b')) :
    g.network.Site 0 1 11 := by
  obtain ⟨-, -, hwalk, hcall, -⟩ := gap_computed
  rw [← (build_ok h).2.1] at hwalk hcall
  have hp := (proper_of_build h).network
  have honto : ∀ e ∈ ([(0, 4), (4, 8), (8, 9), (9, 10)] : List (Int × Int)), g.network.Onto e.1 e.2 :=
    fun e he => hp.onto_of_arcs (List.all_eq_true.1 hwalk e he)
  have hin : g.network.InRule 0 10 :=
    (((Relation.ReflTransGen.single (honto (0, 4) (by decide))).tail (honto (4, 8) (by decide))).tail
      (honto (8, 9) (by decide))).tail (honto (9, 10) (by decide))
  obtain ⟨a, ha, hsource, hcall⟩ := hcall
  exact ⟨10, a.id, a.transition, hin, hsource ▸ hp.mem_arcs.1 ha, hcall⟩

/-- No run gets past the terminal without tokens, so none reads what stands behind it. -/
theorem Builder.gap_not_next {g : Grammar} {b' : Builder} (h : build.run.run gap = (.ok g, b'))
    {entries : List Int} {j : Nat} : ¬ g.Next entries j "'y'" := by
  obtain ⟨-, -, -, -, -, hstays, hunread⟩ := gap_computed
  rw [← (build_ok h).2.1] at hstays hunread
  rintro (⟨hi, hrun, hrest, hk, hx⟩ | ⟨-, -, -, -, hx⟩)
  · rename_i i _ _ _ _ _ _ _
    have hstart : startState i ∈ ([0, 4, 6, 7, 5, 1, 8, 2, 14, 15, 3] : List Int) := by
      rw [gap_size h] at hi
      obtain rfl | rfl : i = 0 ∨ i = 1 := by omega
      all_goals decide
    exact Network.not_read_of_stays (proper_of_build h).network hi hstart hstays hunread
      (Network.run_trans hrun hrest) hk hx
  · exact absurd hx (by decide)

/-- The set after the rule behind such a terminal holds a token that comes next in no run, though every
rule derives something. -/
theorem gap_follow : ∃ g b' a entries set, Builder.build.run.run Builder.gap = (.ok g, b') ∧
    g.Derivable ∧ Lookahead.ofGrammar g ["a"] false = .ok a ∧
    (g.entriesOr ["a"]).mapM g.ruleIndex = .ok entries ∧ g.ruleIndex "b" = .ok 1 ∧
    a.followOf "b" = .ok set ∧ set.contains "'y'" = true ∧ ¬ g.Next entries 1 "'y'" := by
  obtain ⟨g, b', hb, hindex⟩ : ∃ g b', Builder.build.run.run Builder.gap = (.ok g, b') ∧
      g.ruleIndex "b" = .ok 1 := ⟨_, _, rfl, rfl⟩
  have hg := Builder.proper_of_build hb
  have hhas : ∀ name ∈ ["a"], g.hasRule name = true := fun name hn =>
    (Builder.hasRule_of_build hb name).trans (by rw [List.mem_singleton.1 hn]; rfl)
  obtain ⟨entries, hentries⟩ := hg.entries_ok (fun name hn =>
    (Builder.hasRule_of_build hb name).trans ((Builder.build_ok hb).2.2.1 name hn)) hhas
  obtain ⟨a, ha, hexact⟩ := hg.lookahead_ok hentries false
  obtain ⟨set, hset, hmem⟩ := hexact.followOf_ok hindex
  refine ⟨g, b', a, entries, set, hb, Builder.gap_derivable hb, ha, hentries, hindex, hset,
    (hmem _).2 ?_, Builder.gap_not_next hb⟩
  have hsite := Builder.gap_site hb
  obtain ⟨-, -, -, -, hread, -⟩ := Builder.gap_computed
  rw [← (Builder.build_ok hb).2.1] at hread
  exact .token (Builder.gap_size hb ▸ Nat.zero_lt_two) hsite ⟨[], _, _, hread, Nat.zero_lt_one⟩

end RuleNetwork
