import RuleNetwork.Proofs.Parsing.Climb
import RuleNetwork.Proofs.Parsing.Events
import RuleNetwork.Proofs.Parsing.Rivals
import RuleNetwork.Proofs.Parsing.Totality

/-!
Events are exact on the whole: an accepted parse is without events just if its input has one
derivation. Of two derivations the alternatives that they take where they part are tied, and a tie
comes from an ambiguous context, which stands for two derivations.
-/

set_option autoImplicit false

namespace RuleNetwork

open Network Relation

namespace Traces.Complete

variable {x : Traces} {i K : Nat} {types : List String} (h : x.Complete i K types)
include h

/-- There is an event unless there is one derivation only. -/
theorem events_eq_nil_iff_unique {e : Execution} (he : x.execution = .ok e) :
    e.events = [] ↔ ∃! d, x.ties.chart.network.run types (.enter (startState i) 0) d =
      some ⟨stopState i, 0, K, []⟩ := by
  have hp := h.accepts.counted.proper
  rw [h.events_eq_nil_iff he]
  constructor
  · intro hnone
    obtain ⟨d, hd⟩ := h.accepts.counted.recognizes.exists_derivation h.accepts.accept
    refine ⟨d, hd, fun d' hd' => ?_⟩
    by_contra hne
    obtain ⟨v, hv, id, id', hid, b, c, hown, hctx, hamb, ⟨e, hec, hlead⟩, e', hec', hlead'⟩ :=
      h.accepts.exists_meets hne hd' hd
    obtain ⟨w, hw, hop, hcomes⟩ := hlead
    obtain ⟨w', hw', hop', hcomes'⟩ := hlead'
    obtain ⟨t, ht⟩ := hop.leaves
    obtain ⟨t', ht'⟩ := hop'.leaves
    obtain ⟨a, ho⟩ := ht.offers
    obtain ⟨a', ho'⟩ := ht'.offers
    refine hnone v hv a ⟨a', fun heq => hid (ho.id_unique (heq ▸ ho')), id, id', ho, ho', b, c, hown,
      hctx, hamb, ⟨e, hec, w, hw, hop, hcomes⟩, e', hec', w', hw', hop', hcomes'⟩
  · rintro ⟨d, hd, hunique⟩ v hv a ⟨b, hne, id, id', ho, ho', b', c, hown, hctx, hamb, -⟩
    obtain ⟨d₁, d₂, hne, h₁, h₂⟩ := h.accepts.exists_derivations hctx hamb
    exact hne ((hunique d₁ h₁).trans (hunique d₂ h₂).symm)

end Traces.Complete

/-- Every input is parsed to an end, and one that is accepted without events just if it has one
derivation that ends where the input is accepted. -/
theorem parse_events_eq_nil_iff {b b' : Builder} {g : Grammar}
    (hb : Builder.build.run.run b = (.ok g, b')) {i : Nat} {r : Rule} (hr : g.rules[i]? = some r)
    (tokens : TokenStream) :
    ∃ p, ParseTables.ofGrammar g = .ok p ∧ ∃ c x,
      (Chart.recognize p.index tokens.types i).result = .ok c ∧
      (p.parse i tokens).run none = .ok (x, none) ∧
      (∀ granted y left, (p.parse i tokens).run granted = .ok (y, left) → y = x) ∧
      (x.outcome = .succeeded → ∃ k, c.accept? = some k ∧
        (x.events = [] ↔ ∃! d, g.network.IsDerivation tokens.types r k d)) := by
  have hg := Builder.proper_of_build hb
  have hi := (Array.getElem?_eq_some_iff.1 hr).1
  obtain ⟨-, hstart, hstop⟩ := hg.rule hr
  obtain ⟨p, hp⟩ := ParseTables.exists_tables hg
  obtain ⟨x, c, u, m, n, t, hparsed, hrun, hunique⟩ := ParseTables.parse_ok hg hp hi tokens
  refine ⟨p, hp, c, x, hparsed.chart, hrun, hunique, fun hx => ?_⟩
  obtain ⟨k, hk⟩ := Option.isSome_iff_exists.1 (hparsed.succeeded_iff.1 hx)
  refine ⟨k, hk, ?_⟩
  rw [(hparsed.complete hg hp hi hk).events_eq_nil_iff_unique hparsed.execution,
    hparsed.network_eq hg hp hi]
  unfold IsDerivation
  rw [hstart, hstop]

/-- A pair of brackets is parsed without events just if it has one derivation. -/
theorem brackets_events_eq_nil_iff : ∃ g b' p r x,
    Builder.build.run.run Builder.brackets = (.ok g, b') ∧ ParseTables.ofGrammar g = .ok p ∧
      g.rules[0]? = some r ∧
      (p.parse (0 : Nat) (.ofTypes ["'('", "')'"])).run none = .ok (x, none) ∧
      x.outcome = .succeeded ∧ ∃ k, (x.events = [] ↔
        ∃! d, g.network.IsDerivation (TokenStream.ofTypes ["'('", "')'"]).types r k d) := by
  have hb : Builder.build.run.run Builder.brackets = (.ok _, _) := rfl
  have hg := Builder.proper_of_build hb
  obtain ⟨p, hp, c, x, -, hx, -, hevents⟩ :=
    parse_events_eq_nil_iff hb (i := 0) rfl (.ofTypes ["'('", "')'"])
  have hsucceeded : x.outcome = .succeeded := by
    obtain ⟨_, _, _, _, _, hparsed⟩ := ParseTables.parsed_of_run hx
    exact (hparsed.succeeded_iff_derives hg hp rfl (TokenStream.types_ofTypes _)).2
      (.inl (Builder.brackets_derives hb rfl))
  obtain ⟨k, -, hiff⟩ := hevents hsucceeded
  exact ⟨_, _, p, _, x, hb, hp, rfl, hx, hsucceeded, k, hiff⟩

end RuleNetwork
