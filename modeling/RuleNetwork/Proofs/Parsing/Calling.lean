import RuleNetwork.Proofs.Parsing.Unambiguous
import RuleNetwork.Proofs.Run.Closure

/-!
What the events of a parse tell of derivations. Tied alternatives are taken in one invocation, or in
one group of invocations, whose caller resumes in one place: the ends that a context accepts are ends
of runs under the same call. The calls that are open further out may differ from one alternative to the
other.
-/

set_option autoImplicit false

namespace RuleNetwork

open Network Relation

/-- A derivation takes the transition at the visit within an invocation of the rule `j`, entered at the
origin of the visit, whose caller resumes at the frame. The start rule has no caller. -/
def Network.TakesUnder (n : Network) (types : List String) (i K j : Nat) (f : Option Frame) (v : Visit)
    (id : Int) : Prop :=
  ∃ inner l, l.head? = f ∧
    (∃ p, n.run types (.enter (startState i) 0) p =
      some ((Config.enter (startState j) v.origin).under l)) ∧
    (∃ y, n.run types (.enter (startState j) v.origin) y = some (v.config inner)) ∧
    ∃ q, n.run types (v.config (inner ++ l)) (.along id :: q) = some ⟨stopState i, 0, K, []⟩

theorem Network.TakesUnder.takes {n : Network} {types : List String} {i K j : Nat} {f : Option Frame}
    {v : Visit} {id : Int} (h : n.TakesUnder types i K j f v id) : n.Takes types i K v id := by
  obtain ⟨inner, l, -, ⟨p, hp⟩, ⟨y, hy⟩, hq⟩ := h
  exact ⟨inner ++ l, ⟨p ++ y, run_trans hp (run_under hy l)⟩, hq⟩

namespace Ties.Accepts

variable {t : Ties} {i K : Nat} {types : List String} (h : t.Accepts i K types)
include h

/-- What leads on to the end of a rule is a run within one invocation of the rule, under the calls of
the group that are open by then. -/
theorem exists_inside {w z : Visit} (hw : w ∈ t.useful.toList)
    (hwz : ReflTransGen (t.Onward types) w z) {j : Nat} (hz : t.chart.network.Owns j z.state) :
    ∃ inner, (∃ y, t.chart.network.run types (.enter (startState j) w.origin) y =
        some (w.config inner)) ∧
      ∃ q, t.chart.network.run types (w.config inner) q = some (z.config []) := by
  have hp := h.counted.proper
  have hi := h.counted.recognizes.rule
  have hwalks : ∀ {v : Visit} {r : Nat}, v ∈ t.useful.toList → t.chart.network.Owns r v.state →
      r < t.chart.index.grammar.rules.size ∧ ∃ q, t.chart.network.Walks types r v q := fun hv hr => by
    obtain ⟨r', hr', hown, -, q, -, hq⟩ := hp.exists_encloses hi (h.visits hv)
    obtain rfl := Int.ofNat.inj (hr.unique hown)
    exact ⟨hr', q, hq⟩
  have hreach : ∀ {v : Visit}, v ∈ t.useful.toList →
      t.chart.network.Reaches types (startState i) v := fun hv =>
    (h.recognizes.contains _).1 (h.contains hv)
  have hzu : z ∈ t.useful.toList := by
    obtain rfl | ⟨x, -, hx⟩ := ReflTransGen.cases_tail hwz
    · exact hw
    · exact hx.useful
  obtain ⟨hj, q, hq⟩ := hwalks hzu hz
  induction hwz using ReflTransGen.head_induction_on with
  | refl => exact ⟨[], ⟨q, hq⟩, [], rfl⟩
  | @head u v hstep hvz ih =>
    obtain ⟨inner, ⟨y, hy⟩, r, hr⟩ := ih hstep.useful
    rw [hstep.origin] at hy
    cases hstep with
    | hop hv hop =>
      obtain ⟨a, -, ⟨hown, -⟩, -⟩ := h.invocation_ok hw
      obtain ⟨y', hy'⟩ := hp.exists_run_under hi hj hy (hreach hw) hop.origin.symm
        (hop.owns hp hown) hown
      obtain ⟨q', hq'⟩ := hop.run inner
      exact ⟨inner, ⟨y', hy'⟩, _, run_trans hq' hr⟩
    | @back a b caller follow hend hb hc ha hin hv =>
      obtain ⟨hcaller, hpos, id, tr, hcall⟩ := (h.callers _ _).1 hc
      obtain ⟨jb, hjb, hrule, ht, hinside⟩ := hp.of_calls hcall ha.1
      have hsame : b.origin = a.origin := Chart.origin_of_emptyCalls ((h.together a b).1 hin).1
      have horigin : caller.origin = u.origin := ha.2.symm.trans (hsame.symm.trans hb.2)
      obtain ⟨y', hy'⟩ := hp.exists_run_under hi hj hy (hreach hcaller) horigin hinside.owns ha.1
      obtain ⟨-, w, hwalk⟩ := hwalks hw (hrule ▸ hb.1)
      have hentered := run_snoc hy' (step_call hcall)
      rw [ht, show caller.position = u.origin from hpos.trans hb.2, horigin] at hentered
      exact ⟨⟨follow, u.origin⟩ :: inner, ⟨_, run_trans hentered (run_under hwalk _)⟩, .back :: r,
        run_cons_iff.2 ⟨_, step_back hend, hr⟩⟩

/-- An alternative that leads to the end of a rule is taken on a run to that end. -/
theorem exists_inside_of_leads {v : Visit} (hv : v ∈ t.useful.toList) {id : Int} {j m : Nat}
    (hj : j < t.chart.index.grammar.rules.size) (hl : t.Leads types v id ⟨j, some m⟩) :
    ∃ inner, (∃ y, t.chart.network.run types (.enter (startState j) v.origin) y =
        some (v.config inner)) ∧
      ∃ q, t.chart.network.run types (v.config inner) (.along id :: q) =
        some ⟨stopState j, v.origin, m, []⟩ := by
  have hp := h.counted.proper
  obtain ⟨w, hw, hop, z, r, hwz, hown, hend, heq⟩ := hl
  obtain ⟨rfl, rfl⟩ : r = j ∧ z.position = m := by
    simp only [RuleEnd.mk.injEq, Option.some.injEq] at heq
    exact ⟨heq.1.symm, heq.2.symm⟩
  obtain ⟨inner, ⟨y, hy⟩, q, hq⟩ := h.exists_inside hw hwz hown
  obtain ⟨a, -, ⟨hv', -⟩, -⟩ := h.invocation_ok hv
  rw [hop.origin] at hy
  obtain ⟨y', hy'⟩ := hp.exists_run_under h.counted.recognizes.rule hj hy
    ((h.recognizes.contains _).1 (h.contains hv)) hop.origin.symm (hop.owns hp hv') hv'
  obtain ⟨q', hq'⟩ := hop.run inner
  refine ⟨inner, ⟨y', hy'⟩, q' ++ q, ?_⟩
  have hrun := run_trans hq' hq
  have horigin : z.origin = v.origin := by
    refine Eq.trans ?_ hop.origin
    clear hown hend hq hrun heq
    induction hwz with
    | refl => rfl
    | tail _ hstep ih => exact hstep.origin.trans ih
  rw [Visit.config, Visit.config, hp.eq_stop hown hend, horigin] at hrun
  exact hrun

/-- An alternative that leads to the goal is taken by a derivation. -/
theorem takesUnder_of_goal {v : Visit} (hv : v ∈ t.useful.toList) (ho : v.origin = 0) {id : Int}
    (hl : t.Leads types v id ⟨i, some K⟩) : t.chart.network.TakesUnder types i K i none v id := by
  obtain ⟨inner, hy, q, hq⟩ := h.exists_inside_of_leads hv h.counted.recognizes.rule hl
  refine ⟨inner, [], rfl, ⟨[], ?_⟩, hy, q, ?_⟩
  · rw [ho]
    rfl
  · rw [List.append_nil]
    rwa [ho] at hq

/-- An alternative that leads to an end that a call accepts is taken by a derivation with that call. -/
theorem takesUnder_of_call {member : Invocation} {caller : Visit} {follow : Int}
    (hc : (caller, follow) ∈ t.callersOf member) {v : Visit} (hv : v ∈ t.useful.toList)
    (ho : member.origin = v.origin) {e : RuleEnd} (he : e ∈ t.accepted member caller follow) {id : Int}
    (hl : t.Leads types v id e) : ∃ j : Nat, member.rule = j ∧
      t.chart.network.TakesUnder types i K j (some ⟨follow, caller.origin⟩) v id := by
  have hp := h.counted.proper
  obtain ⟨m, -, hf, rfl⟩ := mem_accepted.1 he
  obtain ⟨hu, hpos, cid, tr, hcall⟩ := (h.callers _ _).1 hc
  obtain ⟨owner, hown⟩ := hcall.1.owned
  obtain ⟨j, hj, hrule, ht, -⟩ := hp.of_calls hcall hown
  rw [hrule] at hl
  obtain ⟨inner, ⟨y, hy⟩, q, hq⟩ := h.exists_inside_of_leads hv hj hl
  have hentry : caller.position = v.origin := hpos.trans ho
  have hinside := run_trans hy hq
  rw [← hentry, ← ht] at hinside
  obtain ⟨p, r, l, hbefore, -, hafter⟩ := h.exists_through hcall hu hf hinside (hp.ends_stop hj)
  refine ⟨j, hrule, inner, ⟨follow, caller.origin⟩ :: l, rfl, ?_, ⟨y, hy⟩, q ++ .back :: r, ?_⟩
  · have hentered := run_snoc hbefore (step_call hcall)
    rw [ht, hentry] at hentered
    exact ⟨_, hentered⟩
  · have hback : t.chart.network.run types ⟨stopState j, v.origin, m, ⟨follow, caller.origin⟩ :: l⟩
        (.back :: r) = some ⟨stopState i, 0, K, []⟩ :=
      run_cons_iff.2 ⟨_, step_back (hp.ends_stop hj), hafter⟩
    exact run_trans (run_under hq (⟨follow, caller.origin⟩ :: l)) hback

/-- Alternatives that meet are taken under one caller. -/
theorem exists_takesUnder {v : Visit} (hv : v ∈ t.useful.toList) {id id' : Int}
    (hm : t.Meets i K types v id id') : ∃ j f, t.chart.network.TakesUnder types i K j f v id ∧
      t.chart.network.TakesUnder types i K j f v id' := by
  obtain ⟨b, x, hown, hctx, -, ⟨e, he, hl⟩, e', he', hl'⟩ := hm
  cases hctx with
  | goal hmember =>
    rw [List.mem_singleton.1 he] at hl
    rw [List.mem_singleton.1 he'] at hl'
    have ho : v.origin = 0 := hown.2.symm.trans (h.origin_of_member hmember).symm
    exact ⟨i, none, h.takesUnder_of_goal hv ho hl, h.takesUnder_of_goal hv ho hl'⟩
  | call hmember hc =>
    have ho := (h.origin_of_member hmember).trans hown.2
    obtain ⟨j, hj, htakes⟩ := h.takesUnder_of_call hc hv ho he hl
    obtain ⟨j', hj', htakes'⟩ := h.takesUnder_of_call hc hv ho he' hl'
    obtain rfl := Int.ofNat.inj (hj.symm.trans hj')
    exact ⟨j, _, htakes, htakes'⟩

end Ties.Accepts

theorem Traces.Tied.exists_rival {x : Traces} {i K : Nat} {types : List String} {v : Visit} {a : Nat}
    (h : x.Tied i K types v a) : ∃ b, b ≠ a ∧ x.Tied i K types v b ∧
      ∃ id id', x.ties.chart.network.Offers v.state a id ∧ x.ties.chart.network.Offers v.state b id' ∧
        x.ties.Meets i K types v id id' := by
  obtain ⟨b, hne, id, id', ho, ho', hm⟩ := id h
  have ⟨c, l, hown, hctx, hamb, hl, hl'⟩ := hm
  exact ⟨b, hne, ⟨a, hne.symm, id', id, ho', ho, c, l, hown, hctx, hamb, hl', hl⟩, id, id', ho, ho', hm⟩

/-- Every event of an accepted parse tells of alternatives that derivations take in one place and under
one caller, and only inputs with several derivations have events. -/
theorem events_under_caller {b b' : Builder} {g : Grammar} (hb : Builder.build.run.run b = (.ok g, b'))
    {i : Nat} {r : Rule} (hr : g.rules[i]? = some r) (tokens : TokenStream) :
    ∃ p, ParseTables.ofGrammar g = .ok p ∧ ∃ c x, (Chart.recognize p.index tokens.types i).result = .ok c ∧
      (p.parse i tokens).run none = .ok (x, none) ∧
      (∀ granted y left, (p.parse i tokens).run granted = .ok (y, left) → y = x) ∧
      (x.outcome = .succeeded → ∃ K, c.accept? = some K ∧ ∀ e ∈ x.events, ∃ d ∈ g.decisions, ∃ k : Nat,
        e.decision = d.id ∧ e.start = k ∧ e.exact = true ∧ e.alternatives ≠ [] ∧
        (∃ ms ms', ms ≠ ms' ∧ g.network.IsDerivation tokens.types r K ms ∧
          g.network.IsDerivation tokens.types r K ms') ∧
        ∀ a ∈ e.alternatives, ∃ (v : Visit) (m m' : Nat) (id id' : Int), v.state = d.state ∧
          v.position = k ∧ a = Int.ofNat m ∧ Int.ofNat m' ∈ e.alternatives ∧ m' ≠ m ∧
          g.network.Offers v.state m id ∧ g.network.Offers v.state m' id' ∧
          ∃ j f, g.network.TakesUnder tokens.types i K j f v id ∧
            g.network.TakesUnder tokens.types i K j f v id') := by
  have hg := Builder.proper_of_build hb
  have hi := (Array.getElem?_eq_some_iff.1 hr).1
  obtain ⟨-, hstart, hstop⟩ := hg.rule hr
  obtain ⟨p, hp⟩ := ParseTables.exists_tables hg
  obtain ⟨x, c, u, m, n, t, hparsed, hrun, hunique⟩ := ParseTables.parse_ok hg hp hi tokens
  refine ⟨p, hp, c, x, hparsed.chart, hrun, hunique, fun hx => ?_⟩
  obtain ⟨K, hK⟩ := Option.isSome_iff_exists.1 (hparsed.succeeded_iff.1 hx)
  have hcomplete := hparsed.complete hg hp hi hK
  have hnet := hparsed.network_eq hg hp hi
  refine ⟨K, hK, fun e he => ?_⟩
  obtain ⟨d, hd, k, hdecision, hk, hexact, ⟨v, hv, hs, hpos, a, htied⟩, halternatives⟩ :=
    hcomplete.mem_events hparsed.execution he
  rw [hnet] at hd
  refine ⟨d, hd, k, hdecision, hk, hexact, ?_, ?_, fun a ha => ?_⟩
  · exact List.ne_nil_of_mem ((halternatives _).2 ⟨v, hv, hs, hpos, a, htied, rfl⟩)
  · obtain ⟨_, _, _, _, _, _, _, _, _, hctx, hamb, _⟩ := htied
    have := hcomplete.accepts.exists_derivations hctx hamb
    rwa [hnet, ← hstart, ← hstop] at this
  · obtain ⟨v, hv, hs, hpos, m, htied, rfl⟩ := (halternatives a).1 ha
    obtain ⟨m', hne, htied', id, id', ho, ho', hmeets⟩ := htied.exists_rival
    obtain ⟨j, f, htakes, htakes'⟩ := hcomplete.accepts.exists_takesUnder hv hmeets
    rw [hnet] at ho ho' htakes htakes'
    exact ⟨v, m, m', id, id', hs, hpos, rfl, (halternatives _).2 ⟨v, hv, hs, hpos, m', htied', rfl⟩, hne,
      ho, ho', j, f, htakes, htakes'⟩

/-- A choice that decides how much is left for a choice two calls further in. -/
def Builder.layers : Builder where
  name := "layers"
  rules := [
    { name := "outer", kind := .parser,
      body := some (.choice [.sequence [.call "between", .token ["'a'"]], .call "between"]) },
    { name := "between", kind := .parser, body := some (.call "inner") },
    { name := "inner", kind := .parser,
      body := some (.choice [.token ["'a'"], .sequence [.token ["'a'"], .token ["'a'"]]]) }]

theorem Builder.proper_layers : (networkOf layers.bodies).Proper 3 :=
  proper_bodies (show build.run.run layers = (.ok _, _) from rfl)

/-- The network of the choices at work: what it comes to on two letters, and two derivations of them, the
first letter read on its own or both together. -/
theorem Builder.layers_computed :
    (networkOf layers.bodies).closes (["'a'", "'a'"] ++ [endOfInput])
        [⟨0, 0, 0⟩, ⟨2, 0, 0⟩, ⟨4, 0, 0⟩, ⟨6, 0, 0⟩, ⟨8, 0, 0⟩, ⟨12, 0, 0⟩, ⟨14, 0, 0⟩, ⟨16, 0, 0⟩,
          ⟨18, 0, 0⟩, ⟨20, 0, 0⟩, ⟨1, 0, 1⟩, ⟨3, 0, 1⟩, ⟨5, 0, 1⟩, ⟨7, 0, 1⟩, ⟨9, 0, 1⟩, ⟨10, 0, 1⟩,
          ⟨13, 0, 1⟩, ⟨15, 0, 1⟩, ⟨17, 0, 1⟩, ⟨19, 0, 1⟩, ⟨21, 0, 1⟩, ⟨22, 0, 1⟩, ⟨1, 0, 2⟩,
          ⟨3, 0, 2⟩, ⟨5, 0, 2⟩, ⟨7, 0, 2⟩, ⟨9, 0, 2⟩, ⟨10, 0, 2⟩, ⟨11, 0, 2⟩, ⟨13, 0, 2⟩, ⟨15, 0, 2⟩,
          ⟨17, 0, 2⟩, ⟨23, 0, 2⟩] = true ∧
      (networkOf layers.bodies).run (["'a'", "'a'"] ++ [endOfInput]) (.enter (startState 0) 0)
          [.along 8, .along 3, .along 0, .along 11, .along 10, .along 21, .along 14, .along 13,
            .along 15, .along 22, .back, .along 12, .back, .along 2, .along 1, .along 4, .along 9] =
        some ⟨stopState 0, 0, 2, []⟩ ∧
      (networkOf layers.bodies).run (["'a'", "'a'"] ++ [endOfInput]) (.enter (startState 0) 0)
          [.along 8, .along 6, .along 5, .along 11, .along 10, .along 21, .along 19, .along 16,
            .along 18, .along 17, .along 20, .along 22, .back, .along 12, .back, .along 7, .along 9] =
        some ⟨stopState 0, 0, 2, []⟩ := by
  decide +kernel

/-- The end of the input is not read. -/
theorem Builder.layers_not_reaches :
    ¬ (networkOf layers.bodies).Reaches (["'a'", "'a'"] ++ [endOfInput]) (startState 0)
      ⟨stopState 0, 0, 3⟩ := by
  obtain ⟨hcloses, -⟩ := layers_computed
  exact Network.not_reaches_of_closes proper_layers (by decide) (by decide) hcloses (by decide)

theorem Builder.layers_derivations : ∃ d d', d ≠ d' ∧
    (networkOf layers.bodies).run (["'a'", "'a'"] ++ [endOfInput]) (.enter (startState 0) 0) d =
      some ⟨stopState 0, 0, 2, []⟩ ∧
    (networkOf layers.bodies).run (["'a'", "'a'"] ++ [endOfInput]) (.enter (startState 0) 0) d' =
      some ⟨stopState 0, 0, 2, []⟩ := by
  obtain ⟨-, hd, hd'⟩ := layers_computed
  exact ⟨_, _, by decide, hd, hd'⟩

/-- An event of two letters, with alternatives that are taken under one caller. -/
theorem layers_event : ∃ g b' p x K e, Builder.build.run.run Builder.layers = (.ok g, b') ∧
    ParseTables.ofGrammar g = .ok p ∧
    (p.parse (0 : Nat) (.ofTypes ["'a'", "'a'"])).run none = .ok (x, none) ∧
    x.outcome = .succeeded ∧ e ∈ x.events ∧ e.exact = true ∧ e.alternatives ≠ [] ∧
    ∀ a ∈ e.alternatives, ∃ (v : Visit) (m m' : Nat) (id id' : Int), a = Int.ofNat m ∧ m' ≠ m ∧
      g.network.Offers v.state m id ∧ g.network.Offers v.state m' id' ∧ ∃ j f,
        g.network.TakesUnder (TokenStream.ofTypes ["'a'", "'a'"]).types 0 K j f v id ∧
          g.network.TakesUnder (TokenStream.ofTypes ["'a'", "'a'"]).types 0 K j f v id' := by
  obtain ⟨g, b', r, hb, hr⟩ : ∃ g b' r, Builder.build.run.run Builder.layers = (.ok g, b') ∧
      g.rules[0]? = some r := ⟨_, _, _, rfl, rfl⟩
  have hg := Builder.proper_of_build hb
  have hi := (Array.getElem?_eq_some_iff.1 hr).1
  obtain ⟨p, hp, c, x, hc, hrun, -, hevents⟩ := events_under_caller hb hr (.ofTypes ["'a'", "'a'"])
  obtain ⟨c', u, m, n, t, hparsed⟩ := ParseTables.parsed_of_run hrun
  obtain rfl := Except.ok.inj (hc.symm.trans hparsed.chart)
  obtain ⟨hindex, hgrammar, hrec⟩ := hparsed.recognizes hg hp hi
  have hnet : c.network = networkOf Builder.layers.bodies := by
    rw [Chart.network, hindex, hgrammar]
    exact (Builder.build_ok hb).2.1
  obtain ⟨d, d', hne, hd, hd'⟩ := Builder.layers_derivations
  have hK : c.accept? = some 2 := by
    obtain ⟨-, hstart, hstop⟩ := hg.rule hr
    have hends : ∀ k ≤ 3, g.network.Reaches (["'a'", "'a'"] ++ [endOfInput]) (startState 0)
        ⟨stopState 0, 0, k⟩ ↔ g.network.Derives r ((["'a'", "'a'"] ++ [endOfInput]).take k) :=
      fun k hk => (reaches_stop_iff hg.network hi hstart hstop).trans (exists_isDerivation_iff hk)
    rw [(Builder.build_ok hb).2.1] at hends
    rw [TokenStream.types_ofTypes] at hrec
    refine hrec.accept?_of_body (r := r) (by rwa [hindex, hgrammar]) (fun hfull => ?_) ?_
    all_goals rw [hindex, hgrammar, (Builder.build_ok hb).2.1] at *
    · exact Builder.layers_not_reaches ((hends 3 (Nat.le_refl 3)).2 hfull)
    · exact (hends 2 (by decide)).1 ⟨d, [], hd⟩
  have hx : x.outcome = .succeeded := hparsed.succeeded_iff.2 (by rw [Chart.isAccepted, hK]; rfl)
  obtain ⟨K, hK', hall⟩ := hevents hx
  obtain rfl := Option.some.inj (hK.symm.trans hK')
  have hevent : x.events ≠ [] := by
    rw [Ne, (hparsed.complete hg hp hi hK).events_eq_nil_iff_unique hparsed.execution,
      hparsed.network_eq hg hp hi, (Builder.build_ok hb).2.1, TokenStream.types_ofTypes]
    rintro ⟨d₀, -, hunique⟩
    exact hne ((hunique d hd).trans (hunique d' hd').symm)
  obtain ⟨e, he⟩ := List.exists_mem_of_ne_nil _ hevent
  obtain ⟨_, -, _, -, -, hexact, hsome, -, hcalling⟩ := hall e he
  refine ⟨g, b', p, x, 2, e, hb, hp, hrun, hx, he, hexact, hsome, fun a ha => ?_⟩
  obtain ⟨v, m, m', id, id', -, -, rfl, -, hne, ho, ho', htakes⟩ := hcalling a ha
  exact ⟨v, m, m', id, id', rfl, hne, ho, ho', htakes⟩

end RuleNetwork
