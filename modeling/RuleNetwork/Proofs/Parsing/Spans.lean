import RuleNetwork.Proofs.Parsing.Unambiguous
import RuleNetwork.Proofs.Run.Closure
import RuleNetwork.Proofs.Sorting

/-!
What an event points at: a decision, some of its alternatives and a span of tokens. The start of a span
is the position of a visit, which may lie behind the token that closes the input if the grammar names
that token itself. Only the stop is held back to the tokens before it, and never below the start.
-/

set_option autoImplicit false

namespace RuleNetwork

open Network

/-- Alternatives that tie are viable, and none ties alone: a context that accepts one of them is shared
with another. -/
theorem Ties.of_tied {t : Ties} {v : Visit} {viable l : List Nat} (hnodup : viable.Nodup)
    (h : t.tied v viable = .ok l) : l.Sublist viable ∧ (l ≠ [] → 2 ≤ l.length) := by
  obtain ⟨edges, -, h⟩ := bind_eq_ok.1 h
  obtain ⟨reaches, hreaches, h⟩ := bind_eq_ok.1 h
  obtain ⟨invocation, -, h⟩ := bind_eq_ok.1 h
  obtain ⟨all, -, h⟩ := bind_eq_ok.1 h
  obtain ⟨contexts, -, h⟩ := bind_eq_ok.1 h
  obtain rfl := pure_eq_ok.1 h
  have hfst : reaches.map Prod.fst = viable := by
    rw [map_eq_map_of_mapM id _ hreaches fun a b hb => ?_, List.map_id]
    obtain ⟨ends, -, hb⟩ := bind_eq_ok.1 hb
    rw [← pure_eq_ok.1 hb]
    rfl
  refine ⟨List.filter_sublist, fun hne => ?_⟩
  obtain ⟨a, ha⟩ := List.exists_mem_of_ne_nil _ hne
  obtain ⟨-, hshared⟩ := List.mem_filter.1 ha
  obtain ⟨hits, hhits, -⟩ := List.any_eq_true.1 hshared
  obtain ⟨hmade, hlen⟩ := List.mem_filter.1 hhits
  obtain ⟨c, -, rfl⟩ := List.mem_map.1 hmade
  have hsub : ((reaches.filter fun r => r.2.any c.contains).map Prod.fst).Sublist viable := by
    rw [← hfst]
    exact List.filter_sublist.map _
  refine Nat.le_trans (of_decide_eq_true hlen) ((hnodup.sublist hsub).subperm fun b hb => ?_).length_le
  exact List.mem_filter.2 ⟨hsub.subset hb, List.any_eq_true.2 ⟨_, hhits, List.contains_iff_mem.2 hb⟩⟩

namespace Traces

variable {x : Traces}

/-- The parts of an event. -/
theorem event_eq {ties : List Tie} {id start : Nat} {e : AmbiguityEvent} (h : x.event ties id start = .ok e) :
    ∃ own, own = ties.filter (fun t => t.decision.id == id && t.start == start) ∧
      e.decision = id ∧ e.start = start ∧ e.stop = ((own.map Tie.stop).foldl max 0 : Nat) ∧
      e.alternatives = ((OrderedSet.ofList (own.flatMap Tie.alternatives)).toList.mergeSort).map Int.ofNat ∧
      ∃ r, x.tables.grammar.ruleAt (((own.head?).map fun t => t.decision.rule).getD 0) = .ok r ∧
        e.ruleName = r.name := by
  obtain ⟨r, hr, h⟩ := bind_eq_ok.1 h
  obtain rfl := pure_eq_ok.1 h
  exact ⟨_, rfl, rfl, rfl, rfl, rfl, r, hr, rfl⟩

/-- The parts of a tie. -/
theorem tie?_eq {d : DecisionVisit} {t : Tie} (h : x.tie? d = .ok (some t)) :
    t.decision = d.decision ∧ t.start = d.visit.position ∧
      t.stop = max d.visit.position (min (d.stop - 1) (x.tokens.size - 1)) ∧ t.alternatives ≠ [] ∧
      x.ties.tied d.visit d.viable = .ok t.alternatives := by
  unfold tie? at h
  split at h
  · cases h
  · obtain ⟨tied, htied, h⟩ := bind_eq_ok.1 h
    have h := pure_eq_ok.1 h
    split at h
    · cases h
    · rename_i hne
      cases h
      exact ⟨rfl, rfl, rfl, fun hnil => hne (by rw [show tied = [] from hnil]; rfl), htied⟩

end Traces

/-- What is known of a tie. -/
structure Traces.Holds (x : Traces) (i : Nat) (types : List String) (t : Tie) : Prop where
  decision : t.decision ∈ x.ties.chart.network.decisions
  reached : ∃ v, x.ties.chart.network.Reaches types (startState i) v ∧ v.state = t.decision.state ∧
    v.position = t.start
  start_le : t.start ≤ t.stop
  stop_le : t.stop ≤ max t.start (x.tokens.size - 1)
  several : 2 ≤ t.alternatives.length
  sorted : t.alternatives.Pairwise (· < ·)
  bounds : ∀ a ∈ t.alternatives, 1 ≤ a ∧ a ≤ t.decision.alternatives

/-- What an event says of its decision: the rule that it belongs to, and two or more of its
alternatives. -/
structure AmbiguityEvent.PointsAt (e : AmbiguityEvent) (g : Grammar) (d : Decision) : Prop where
  decision : e.decision = d.id
  ruleName : ∃ r, g.ruleAt d.rule = .ok r ∧ e.ruleName = r.name
  several : 2 ≤ e.alternatives.length
  sorted : e.alternatives.Pairwise (· < ·)
  bounds : ∀ a ∈ e.alternatives, 1 ≤ a ∧ a ≤ d.alternatives

/-- The span of an event. It starts where the decision is met on a run. Its stop can only be behind the
token that closes the input if the start is, and for that the grammar has to name the token. -/
structure AmbiguityEvent.Spans (e : AmbiguityEvent) (g : Grammar) (i : Nat) (tokens : TokenStream)
    (d : Decision) : Prop where
  met : ∃ v, g.network.Reaches tokens.types (startState i) v ∧ v.state = d.state ∧ e.start = v.position
  nonneg : 0 ≤ e.start
  ordered : e.start ≤ e.stop
  stop_le : e.stop ≤ max e.start (tokens.size - 1 : Nat)
  within : e.stop ≤ tokens.size ∨ e.start = tokens.size + 1 ∧ e.stop = e.start ∧
    ∃ s id t, g.network.Leaves s id t ∧ t.kind = .terminal ∧ tokens.finish.type ∈ t.tokens

namespace Traces

variable {x : Traces} {i : Nat} {types : List String}

theorem Noted.holds (h : x.Noted i types) {d : DecisionVisit} (hv : d.visit ∈ x.ties.useful.toList)
    (hd : d.decision ∈ x.ties.chart.network.decisions) (hs : d.decision.state = d.visit.state)
    (hviable : x.viable d.visit = .ok d.viable) {t : Tie} (ht : x.tie? d = .ok (some t)) :
    x.Holds i types t := by
  obtain ⟨hdec, hstart, hstop, hne, htied⟩ := tie?_eq ht
  obtain ⟨l, hl, hsorted, hmem⟩ := viable_ok h.ties h.grammar hv
  obtain rfl := Except.ok.inj (hviable.symm.trans hl)
  obtain ⟨hsub, htwo⟩ := Ties.of_tied (hsorted.imp Nat.ne_of_lt) htied
  refine ⟨hdec ▸ hd, ⟨d.visit, (h.ties.recognizes.contains _).1 (h.ties.contains hv), ?_, hstart.symm⟩,
    ?_, ?_, htwo hne, hsorted.sublist hsub, fun a ha => ?_⟩
  · rw [hdec, hs]
  · rw [hstart, hstop]
    exact Nat.le_max_left _ _
  · rw [hstart, hstop]
    omega
  · obtain ⟨id, ⟨st, hst, k, hk, rfl⟩, -⟩ := (hmem a).1 (hsub.subset ha)
    obtain ⟨st', hst', -, -, hcount⟩ := h.ties.proper.mem_decisions hd
    rw [hs, hst] at hst'
    obtain rfl := Except.ok.inj hst'
    rw [hdec, hcount]
    exact ⟨Nat.succ_pos k, (List.getElem?_eq_some_iff.1 hk).1⟩

/-- An event points at the decision of its ties, and its span is that of all of them. -/
theorem pointsAt_of_event {ties : List Tie} (hties : ∀ t ∈ ties, x.Holds i types t) {t : Tie}
    (ht : t ∈ ties) {e : AmbiguityEvent} (he : x.event ties t.decision.id t.start = .ok e) :
    e.PointsAt x.tables.grammar t.decision ∧ e.start = t.start ∧ e.start ≤ e.stop ∧
      e.stop ≤ max t.start (x.tokens.size - 1) := by
  obtain ⟨own, hown, hid, hstart, hstop, halternatives, r, hr, hname⟩ := event_eq he
  have hmem : ∀ t', t' ∈ own ↔ t' ∈ ties ∧ t'.decision.id = t.decision.id ∧ t'.start = t.start := by
    intro t'
    rw [hown, List.mem_filter, Bool.and_eq_true, beq_iff_eq, beq_iff_eq]
  have hsame : ∀ t' ∈ own, t'.decision = t.decision := fun t' ht' => by
    obtain ⟨hin, hdid, -⟩ := (hmem t').1 ht'
    exact Network.eq_of_decision_id (hties t' hin).decision (hties t ht).decision hdid
  have hself : t ∈ own := (hmem t).2 ⟨ht, rfl, rfl⟩
  have hsorted : ((OrderedSet.ofList (own.flatMap Tie.alternatives)).toList.mergeSort).Pairwise (· < ·) :=
    pairwise_lt_mergeSort (by
      rw [List.map_id']
      exact OrderedSet.nodup_toList _)
  have hall : ∀ a, a ∈ (OrderedSet.ofList (own.flatMap Tie.alternatives)).toList.mergeSort ↔
      ∃ t' ∈ own, a ∈ t'.alternatives := fun a => by
    rw [List.mem_mergeSort, OrderedSet.mem_toList_ofList, List.mem_flatMap]
  refine ⟨⟨hid, ⟨r, ?_, hname⟩, ?_, ?_, ?_⟩, hstart, ?_, ?_⟩
  · obtain ⟨first, l, hfirst⟩ := List.exists_cons_of_ne_nil (List.ne_nil_of_mem hself)
    rw [hfirst, List.head?_cons, Option.map_some, Option.getD_some,
      hsame first (hfirst ▸ List.mem_cons_self ..)] at hr
    exact hr
  · rw [halternatives, List.length_map]
    refine Nat.le_trans (hties t ht).several (List.subperm_of_subset ?_ fun a ha => ?_).length_le
    · exact (hties t ht).sorted.imp Nat.ne_of_lt
    · exact (hall a).2 ⟨t, hself, ha⟩
  · rw [halternatives]
    exact hsorted.map _ fun a b hab => Int.ofNat_lt.2 hab
  · intro a ha
    rw [halternatives] at ha
    obtain ⟨b, hb, rfl⟩ := List.mem_map.1 ha
    obtain ⟨t', ht', hb⟩ := (hall b).1 hb
    obtain ⟨hone, hlast⟩ := (hties t' ((hmem t').1 ht').1).bounds b hb
    rw [hsame t' ht'] at hlast
    exact ⟨Int.ofNat_le.2 hone, Int.ofNat_le.2 hlast⟩
  · rw [hstart, hstop]
    exact Int.ofNat_le.2 ((hties t ht).start_le.trans (le_foldl_max (.inr (List.mem_map_of_mem hself))))
  · rw [hstop]
    refine Int.ofNat_le.2 (foldl_max_le (Nat.zero_le _) fun n hn => ?_)
    obtain ⟨t', ht', rfl⟩ := List.mem_map.1 hn
    obtain ⟨hin, -, hsame⟩ := (hmem t').1 ht'
    exact hsame ▸ (hties t' hin).stop_le

/-- Events stand in the order of their decisions, and those of one decision in the order of their
starts. -/
theorem pairwise_events {ties : List Tie} {l : List AmbiguityEvent} (h : x.events ties = .ok l) :
    l.Pairwise fun a b => a.decision < b.decision ∨ a.decision = b.decision ∧ a.start < b.start := by
  have horder : pairOrder = fun a b => decide (toLex a ≤ toLex b) := by
    funext a b
    rw [pairOrder, Bool.eq_iff_iff]
    simp [Prod.Lex.toLex_le_toLex]
  unfold events at h
  rw [horder] at h
  have hkeys := pairwise_lt_mergeSort ((OrderedSet.nodup_toList
    (OrderedSet.ofList (ties.map fun t => (t.decision.id, t.start)))).map toLex.injective)
  have hmap := map_eq_map_of_mapM (fun k : Nat × Nat => ((k.1 : Int), (k.2 : Int)))
    (fun e : AmbiguityEvent => (e.decision, e.start)) h fun k e he => by
      obtain ⟨-, -, hid, hstart, -⟩ := event_eq he
      rw [hid, hstart]
  refine (List.pairwise_map (f := fun e : AmbiguityEvent => (e.decision, e.start))
    (R := fun a b : Int × Int => a.1 < b.1 ∨ a.1 = b.1 ∧ a.2 < b.2)).1 ?_
  rw [hmap]
  refine hkeys.map _ fun a b hab => ?_
  simpa [Prod.Lex.toLex_lt_toLex] using hab

end Traces

theorem TokenStream.length_types (s : TokenStream) : s.types.length = s.size + 1 := by
  simp [types, tokens, size]

theorem TokenStream.getElem?_types_size (s : TokenStream) : s.types[s.size]? = some s.finish.type := by
  simp [types, tokens, size]

/-- An event that starts at a visit has the span it should have. -/
theorem AmbiguityEvent.spans_of_met {e : AmbiguityEvent} {g : Grammar} {i : Nat} {tokens : TokenStream}
    {d : Decision} {v : Visit} (hv : g.network.Reaches tokens.types (startState i) v)
    (hs : v.state = d.state) (hstart : e.start = v.position) (hordered : e.start ≤ e.stop)
    (hstop : e.stop ≤ max v.position (tokens.size - 1)) : e.Spans g i tokens d := by
  have hle := hv.position_le
  rw [tokens.length_types] at hle
  refine ⟨⟨v, hv, hs, hstart⟩, by omega, hordered, by omega, ?_⟩
  obtain hin | hout := Nat.lt_or_ge tokens.size v.position
  · obtain ⟨ms, l, hrun⟩ := hv
    obtain ⟨s, id, t, x, ht, hkind, hx, hmem⟩ := Network.exists_terminal hrun (Nat.zero_le _) hin
    rw [tokens.getElem?_types_size] at hx
    exact .inr ⟨by omega, by omega, s, id, t, ht, hkind, Option.some.inj hx ▸ hmem⟩
  · exact .inl (by omega)

/-- The events of a parse. Each is about one decision and at least two of its alternatives, and no two
are about the same decision and start. Spans end within the tokens, the closing one included, unless the
decision itself comes after that token. -/
theorem events_of_parse {b b' : Builder} {g : Grammar} (hb : Builder.build.run.run b = (.ok g, b'))
    {i : Nat} {r : Rule} (hr : g.rules[i]? = some r) (tokens : TokenStream) :
    ∃ p, ParseTables.ofGrammar g = .ok p ∧ ∃ x, (p.parse i tokens).run none = .ok (x, none) ∧
      (∀ granted y left, (p.parse i tokens).run granted = .ok (y, left) → y = x) ∧
      (∀ e ∈ x.events, ∃ d ∈ g.decisions, e.PointsAt g d ∧ e.Spans g i tokens d) ∧
      x.events.Pairwise fun a b => a.decision < b.decision ∨ a.decision = b.decision ∧ a.start < b.start := by
  have hg := Builder.proper_of_build hb
  have hi := (Array.getElem?_eq_some_iff.1 hr).1
  obtain ⟨p, hp⟩ := ParseTables.exists_tables hg
  obtain ⟨x, c, u, m, n, t, hparsed, hrun, hunique⟩ := ParseTables.parse_ok hg hp hi tokens
  have hnoted := hparsed.noted hg hp hi
  have hnetwork := hparsed.network_eq hg hp hi
  obtain ⟨found, ties, hfound, hties, hevents⟩ :=
    (Traces.tells_of_execution hparsed.execution).events
  refine ⟨p, hp, x, hrun, hunique, fun e he => ?_, Traces.pairwise_events hevents⟩
  obtain ⟨found', hfound', hof, -⟩ := hnoted.decisionVisits_ok
  obtain rfl := Except.ok.inj (hfound.symm.trans hfound')
  have hholds : ∀ t' ∈ ties.filterMap id, (p.traces tokens u t).Holds i tokens.types t' := fun t' ht' => by
    obtain ⟨o, ho, rfl⟩ := List.mem_filterMap.1 ht'
    obtain ⟨d, hd, ho⟩ := (mem_of_mapM hties).1 ho
    obtain ⟨hv, hdecision, hs, hviable⟩ := hof d hd
    exact hnoted.holds hv hdecision hs hviable ho
  obtain ⟨l, hl, -, hone⟩ := hnoted.events_ok (ties.filterMap id) fun t' ht' => (hholds t' ht').decision
  obtain rfl := Except.ok.inj (hevents.symm.trans hl)
  obtain ⟨t', ht', hevent⟩ := hone e he
  obtain ⟨hpoints, hstart, hordered, hstop⟩ := Traces.pointsAt_of_event hholds ht' hevent
  have hdecision := (hholds t' ht').decision
  obtain ⟨v, hv, hs, hpos⟩ := (hholds t' ht').reached
  rw [hnetwork] at hdecision hv
  have hgrammar : (p.traces tokens u t).tables.grammar = g := (ParseTables.ofGrammar_ok hp).1
  rw [hgrammar] at hpoints
  rw [← hpos] at hstart hstop
  exact ⟨_, hdecision, hpoints, AmbiguityEvent.spans_of_met hv hs hstart hordered hstop⟩

/-- A rule that names the token that closes the input before it makes a choice. -/
def Builder.closed : Builder where
  name := "closed"
  rules := [
    { name := "s", kind := .parser,
      body := some (.sequence [.token ["'a'"], .token [endOfInput], .choice [.empty, .empty]]) }]

/-- The network of this rule at work: its decision, what it comes to on one letter, and two derivations of
the letter with the token that closes the input. -/
theorem Builder.closed_computed :
    (networkOf closed.bodies).decisions = [⟨0, 0, 6, 2⟩] ∧
      (networkOf closed.bodies).closes (["'a'"] ++ [endOfInput])
        [⟨0, 0, 0⟩, ⟨2, 0, 0⟩, ⟨3, 0, 1⟩, ⟨4, 0, 1⟩, ⟨5, 0, 2⟩, ⟨6, 0, 2⟩, ⟨8, 0, 2⟩, ⟨9, 0, 2⟩, ⟨7, 0, 2⟩,
          ⟨1, 0, 2⟩] = true ∧
      (networkOf closed.bodies).run (["'a'"] ++ [endOfInput]) (.enter (startState 0) 0)
          [.along 8, .along 0, .along 2, .along 1, .along 7, .along 3, .along 4, .along 9] =
        some ⟨stopState 0, 0, 2, []⟩ ∧
      (networkOf closed.bodies).run (["'a'"] ++ [endOfInput]) (.enter (startState 0) 0)
          [.along 8, .along 0, .along 2, .along 1, .along 7, .along 5, .along 6, .along 9] =
        some ⟨stopState 0, 0, 2, []⟩ := by
  decide +kernel

/-- The decision is met behind the token that closes the input. -/
theorem Builder.closed_position {v : Visit}
    (hv : (networkOf closed.bodies).Reaches (["'a'"] ++ [endOfInput]) (startState 0) v) (hs : v.state = 6) :
    v.position = 2 := by
  obtain ⟨-, hcloses, -⟩ := closed_computed
  have hproper : (networkOf closed.bodies).Proper 1 :=
    proper_bodies (show build.run.run closed = (.ok _, _) from rfl)
  have hlisted := (Network.closed_of_closes hproper (by decide) hcloses).of_reaches hproper Nat.one_pos hv
  obtain ⟨s, o, k⟩ := v
  obtain rfl : s = 6 := hs
  have hvisit : o = 0 ∧ k = 2 := by simpa using hlisted
  exact hvisit.2

/-- The event of one letter starts behind the token that closes the input. -/
theorem closed_events : ∃ g b' p x e d, Builder.build.run.run Builder.closed = (.ok g, b') ∧
    ParseTables.ofGrammar g = .ok p ∧ (p.parse (0 : Nat) (.ofTypes ["'a'"])).run none = .ok (x, none) ∧
    e ∈ x.events ∧ d ∈ g.decisions ∧ e.PointsAt g d ∧ e.Spans g 0 (.ofTypes ["'a'"]) d ∧
    (TokenStream.ofTypes ["'a'"]).size = 1 ∧ e.start = 2 ∧ e.stop = 2 := by
  obtain ⟨g, b', r, hb, hr⟩ : ∃ g b' r, Builder.build.run.run Builder.closed = (.ok g, b') ∧
      g.rules[0]? = some r := ⟨_, _, _, rfl, rfl⟩
  have hg := Builder.proper_of_build hb
  have hi := (Array.getElem?_eq_some_iff.1 hr).1
  have hnet := (Builder.build_ok hb).2.1
  obtain ⟨p, hp, x, hrun, -, hevents, -⟩ := events_of_parse hb hr (.ofTypes ["'a'"])
  obtain ⟨c, u, m, n, t, hparsed⟩ := ParseTables.parsed_of_run hrun
  obtain ⟨hindex, hgrammar, hrec⟩ := hparsed.recognizes hg hp hi
  obtain ⟨hdecisions, -, hd, hd'⟩ := Builder.closed_computed
  have hK : c.accept? = some 2 := by
    obtain ⟨-, hstart, hstop⟩ := hg.rule hr
    rw [TokenStream.types_ofTypes] at hrec
    have hrule : c.index.grammar.rules[0]? = some r := by
      rw [hindex, hgrammar]
      exact hr
    refine hrec.accept?_of_full hrule ?_
    rw [hindex, hgrammar, hnet]
    unfold Derives IsDerivation
    rw [hstart, hstop]
    exact ⟨_, hd⟩
  have hsome : x.events ≠ [] := by
    rw [Ne, (hparsed.complete hg hp hi hK).events_eq_nil_iff_unique hparsed.execution,
      hparsed.network_eq hg hp hi, hnet, TokenStream.types_ofTypes]
    rintro ⟨d₀, -, hunique⟩
    exact absurd ((hunique _ hd).trans (hunique _ hd').symm) (by decide)
  obtain ⟨e, he⟩ := List.exists_mem_of_ne_nil _ hsome
  obtain ⟨d, hmem, hpoints, hspans⟩ := hevents e he
  obtain ⟨v, hv, hs, hstart⟩ := hspans.met
  have hsix : d.state = 6 := by
    have hone : d ∈ (networkOf Builder.closed.bodies).decisions := hnet ▸ hmem
    rw [hdecisions, List.mem_singleton] at hone
    rw [hone]
  rw [hnet, TokenStream.types_ofTypes] at hv
  have hposition := Builder.closed_position hv (hs.trans hsix)
  have hstop := hspans.stop_le
  have hle := hspans.ordered
  refine ⟨g, b', p, x, e, d, hb, hp, hrun, he, hmem, hpoints, hspans, rfl, ?_, ?_⟩
  · rw [hstart, hposition]
    rfl
  · rw [hstart, hposition] at hstop hle
    exact le_antisymm hstop hle

end RuleNetwork
