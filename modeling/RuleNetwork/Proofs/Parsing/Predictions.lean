import RuleNetwork.Proofs.Lookahead.Coming
import RuleNetwork.Proofs.Parsing.Totality

/-!
Static lookahead and derivations. Whatever alternative a derivation takes at a decision, its next token
is in the lookahead of the alternative. So a decision whose alternatives share no token is never met
with two that are viable, and no event tells of it.
-/

set_option autoImplicit false

namespace RuleNetwork

open Network

/-- At a position of an accepted input the token there comes next, past its end the end of input. -/
theorem upcoming_of_accepted {body : List String} {K k : Nat}
    (hK : K = body.length + 1 ∨ K = body.length) :
    Upcoming (body ++ [endOfInput]) K k (((body ++ [endOfInput])[k]?).getD endOfInput) where
  token hlt := by
    have hk : k < (body ++ [endOfInput]).length := by
      rw [List.length_append, List.length_singleton]
      omega
    rw [List.getElem?_eq_getElem hk, Option.getD_some]
  last := by
    rintro rfl
    obtain rfl | rfl := hK <;> simp

namespace Lookahead.Exact

variable {a : Lookahead} {g : Grammar} {entries : List Int} (h : a.Exact g entries) (hg : g.Proper)
  {types : List String} {i K : Nat} (hi : i < g.rules.size) (hentry : Int.ofNat i ∈ entries)
include h hg hi hentry

/-- The next token is in the lookahead of every alternative that a derivation takes. -/
theorem contains_of_takes {d : Decision} (hd : d ∈ g.decisions) :
    ∃ sets, a.lookaheads d = .ok sets ∧ ∀ {types : List String} {K : Nat} v x, v.state = d.state →
      Upcoming types K v.position x → ∀ n id, g.network.Offers v.state n id →
        g.network.Takes types i K v id →
          ∃ set, sets[n - 1]? = some set ∧ (set.dynamic = true ∨ set.contains x = true) := by
  obtain ⟨sets, hsets, j, hj, ho, -, hspec⟩ := h.lookaheads_ok hg hd
  refine ⟨sets, hsets, fun {types K} v x hs hx n id hoffers htakes => ?_⟩
  obtain ⟨l, ⟨p, hrun⟩, q, hrest⟩ := htakes
  obtain ⟨e, he, -⟩ := run_cons_iff.1 hrest
  obtain ⟨t, ht, -⟩ := step_along_iff.1 he
  have hnumber := hoffers
  obtain ⟨-, -, k, -, rfl⟩ := hnumber
  rw [← hs] at ho hspec
  obtain ⟨set, hset, -, hcontains⟩ := hspec k id t hoffers ht
  refine ⟨set, hset, hcontains.imp_right fun hahead => (hahead x).2 ?_⟩
  exact hg.ahead_of_run hi hentry hx hj ho hrun hrest ht

/-- At a decision without conflicts derivations take one alternative. -/
theorem eq_of_takes {d : Decision} (hd : d ∈ g.decisions) {sets : List LookaheadSet}
    (hsets : a.lookaheads d = .ok sets) (hstatic : ∀ set ∈ sets, set.dynamic = false)
    (hconflict : a.hasConflict d = .ok false) {v : Visit} (hs : v.state = d.state) {x : String}
    (hx : Upcoming types K v.position x) {n n' : Nat} {id id' : Int}
    (ho : g.network.Offers v.state n id) (ho' : g.network.Offers v.state n' id')
    (ht : g.network.Takes types i K v id) (ht' : g.network.Takes types i K v id') : n = n' := by
  obtain ⟨sets', hsets', hcontains⟩ := h.contains_of_takes hg hi hentry hd
  rw [hsets] at hsets'
  obtain rfl := Except.ok.inj hsets'
  have hnormal := normal_of_lookaheads hsets
  have hsize : ¬ 0 < (LookaheadSet.shared sets {}).size := by
    unfold hasConflict conflictingTokens at hconflict
    rw [hsets] at hconflict
    simpa using Except.ok.inj hconflict
  have hmem : ∀ {m id}, g.network.Offers v.state m id → g.network.Takes types i K v id →
      ∃ set, sets[m - 1]? = some set ∧ set.contains x = true := fun ho ht => by
    obtain ⟨set, hget, hdynamic | hin⟩ := hcontains v x hs hx _ _ ho ht
    · rw [hstatic set (List.mem_of_getElem? hget)] at hdynamic
      cases hdynamic
    · exact ⟨set, hget, hin⟩
  obtain ⟨set, hget, hin⟩ := hmem ho ht
  obtain ⟨set', hget', hin'⟩ := hmem ho' ht'
  have hsame : n - 1 = n' - 1 := by
    by_contra hne
    have hcommon : LookaheadSet.InTwo sets x := ⟨_, _, set, set', hne, hget, hget',
      hstatic set (List.mem_of_getElem? hget), hstatic set' (List.mem_of_getElem? hget'), hin, hin'⟩
    refine hsize ((LookaheadSet.bare_shared sets LookaheadSet.bare_empty).size_pos_iff.2 ⟨x, ?_⟩)
    exact (LookaheadSet.contains_shared_iff fun s hs _ => hnormal s hs).2 hcommon
  obtain ⟨-, -, k, -, rfl⟩ := ho
  obtain ⟨-, -, k', -, rfl⟩ := ho'
  omega

end Lookahead.Exact

/-- In an accepted parse the token at a useful visit of a decision is in the lookahead of each viable
alternative. Where no alternative is dynamic and there is no conflict, one alternative is viable at
most and no event tells of the decision. -/
theorem viable_lookahead {b b' : Builder} {g : Grammar} (hb : Builder.build.run.run b = (.ok g, b'))
    {name : String} (hn : b.declares name = true) (firstOnly : Bool) {tokens : TokenStream}
    {body : List String} (htypes : tokens.types = body ++ [endOfInput]) :
    ∃ p, ParseTables.ofGrammar g = .ok p ∧ ∃ a r x c u m n t,
      Lookahead.ofGrammar g [name] firstOnly = .ok a ∧ g.rule name = .ok r ∧
      p.Parsed r.index tokens x c u m n t ∧ (p.parse r.index tokens).run none = .ok (x, none) ∧
      (∀ granted y left, (p.parse r.index tokens).run granted = .ok (y, left) → y = x) ∧
      (x.outcome = .succeeded → ∀ d ∈ g.decisions, ∃ sets, a.lookaheads d = .ok sets ∧
        (∀ v ∈ u.toList, v.state = d.state → ∃ viable, (p.traces tokens u t).viable v = .ok viable ∧
          (∀ k ∈ viable, ∃ set, sets[k - 1]? = some set ∧ (set.dynamic = true ∨
            set.contains ((tokens.types[v.position]?).getD endOfInput) = true)) ∧
          ((∀ set ∈ sets, set.dynamic = false) → a.hasConflict d = .ok false → viable.length ≤ 1)) ∧
        ((∀ set ∈ sets, set.dynamic = false) → a.hasConflict d = .ok false →
          ∀ e ∈ x.events, e.decision ≠ d.id)) := by
  have hg := Builder.proper_of_build hb
  obtain ⟨i, r, hr, -, hname, hrule⟩ :=
    hg.rule_of_hasRule ((Builder.hasRule_of_build hb name).trans hn)
  have hi := (Array.getElem?_eq_some_iff.1 hr).1
  obtain ⟨a, ha, hexact⟩ := hg.lookahead_of_entry hname firstOnly
  obtain ⟨p, hp⟩ := ParseTables.exists_tables hg
  obtain ⟨x, c, u, m, n, t, hparsed, hrun, hunique⟩ := ParseTables.parse_ok hg hp hi tokens
  refine ⟨p, hp, a, r, x, c, u, m, n, t, ha, hrule, ?_, ?_, ?_, fun hx d hd => ?_⟩
  · rwa [(hg.rule hr).1]
  · rwa [(hg.rule hr).1]
  · rwa [(hg.rule hr).1]
  obtain ⟨K, hK⟩ := Option.isSome_iff_exists.1 (hparsed.succeeded_iff.1 hx)
  have hcomplete := hparsed.complete hg hp hi hK
  have hnet := hparsed.network_eq hg hp hi
  have hlast : K = body.length + 1 ∨ K = body.length := by
    obtain ⟨-, -, hrec⟩ := hparsed.recognizes hg hp hi
    rw [htypes] at hrec
    rw [hrec.accept?_eq] at hK
    simpa using List.mem_of_find?_eq_some hK
  have hcoming : ∀ v : Visit, Upcoming tokens.types K v.position
      ((tokens.types[v.position]?).getD endOfInput) := fun v => htypes ▸ upcoming_of_accepted hlast
  obtain ⟨sets, hsets, hcontains⟩ :=
    hexact.contains_of_takes hg hi (List.mem_singleton_self _) hd
  have hone : (∀ set ∈ sets, set.dynamic = false) → a.hasConflict d = .ok false →
      ∀ v : Visit, v.state = d.state → ∀ {k k' id id'}, g.network.Offers v.state k id →
        g.network.Offers v.state k' id' → g.network.Takes tokens.types i K v id →
        g.network.Takes tokens.types i K v id' → k = k' := fun hstatic hconflict v hs =>
    hexact.eq_of_takes hg hi (List.mem_singleton_self _) hd hsets hstatic hconflict hs (hcoming v)
  refine ⟨sets, hsets, fun v hv hs => ?_, fun hstatic hconflict e he hid => ?_⟩
  · obtain ⟨viable, hviable, hsorted, hmem⟩ := hcomplete.viable_ok (hparsed.useful_eq.symm ▸ hv)
    rw [hnet] at hmem
    refine ⟨viable, hviable, fun k hk => ?_, fun hstatic hconflict => ?_⟩
    · obtain ⟨id, ho, ht⟩ := (hmem k).1 hk
      exact hcontains v _ hs (hcoming v) k id ho ht
    · by_contra hlen
      obtain ⟨k, l, rfl⟩ : ∃ k l, viable = k :: l := List.exists_cons_of_length_pos (by omega)
      have hk := List.mem_cons_self (a := k) (l := l)
      obtain ⟨k', hk', hne⟩ :=
        (two_le_length_iff (hsorted.imp Nat.ne_of_lt) hk).1 (by omega)
      obtain ⟨id, ho, ht⟩ := (hmem k).1 hk
      obtain ⟨id', ho', ht'⟩ := (hmem k').1 hk'
      exact hne (hone hstatic hconflict v hs ho' ho ht' ht)
  · obtain ⟨d', hd', k, hid', -, -, ⟨v, hv, hs, -, k', htied⟩, -⟩ :=
      hcomplete.mem_events hparsed.execution he
    obtain ⟨k'', id, id', hne, ho, ho', ht, ht'⟩ := hcomplete.takes_of_tied hv htied
    rw [hnet] at hd' ho ho' ht ht'
    have hsame := eq_of_decision_id hd' hd (Int.ofNat.inj (hid'.symm.trans hid))
    exact hne (hone hstatic hconflict v (hsame ▸ hs) ho' ho ht' ht)

/-- A pair of brackets is parsed in line with the lookahead of its decisions. -/
theorem brackets_viable_lookahead : ∃ g b' p a, ∃ r : Rule, ∃ x c u m n t,
    Builder.build.run.run Builder.brackets = (.ok g, b') ∧ ParseTables.ofGrammar g = .ok p ∧
      Lookahead.ofGrammar g ["row"] false = .ok a ∧
      p.Parsed r.index (.ofTypes ["'('", "')'"]) x c u m n t ∧ x.outcome = .succeeded ∧
      ∀ d ∈ g.decisions, ∃ sets, a.lookaheads d = .ok sets ∧
        ∀ v ∈ u.toList, v.state = d.state → ∃ viable,
          (p.traces (.ofTypes ["'('", "')'"]) u t).viable v = .ok viable ∧
          ∀ k ∈ viable, ∃ set, sets[k - 1]? = some set ∧ (set.dynamic = true ∨ set.contains
            (((TokenStream.ofTypes ["'('", "')'"]).types[v.position]?).getD endOfInput) = true) := by
  have hb : Builder.build.run.run Builder.brackets = (.ok _, _) := rfl
  have hg := Builder.proper_of_build hb
  obtain ⟨p, hp, a, r, x, c, u, m, n, t, ha, hr, hparsed, -, -, hsound⟩ := viable_lookahead hb
    (show Builder.brackets.declares "row" = true by decide) false
    (TokenStream.types_ofTypes ["'('", "')'"])
  have hindex : r.index = (0 : Nat) := Except.ok.inj hr ▸ rfl
  have hsucceeded : x.outcome = .succeeded := by
    rw [hindex] at hparsed
    exact (hparsed.succeeded_iff_derives hg hp rfl (TokenStream.types_ofTypes _)).2
      (.inl (Builder.brackets_derives hb rfl))
  refine ⟨_, _, p, a, r, x, c, u, m, n, t, hb, hp, ha, hparsed, hsucceeded, fun d hd => ?_⟩
  obtain ⟨sets, hsets, hviable, -⟩ := hsound hsucceeded d hd
  refine ⟨sets, hsets, fun v hv hs => ?_⟩
  obtain ⟨viable, hok, hin, -⟩ := hviable v hv hs
  exact ⟨viable, hok, hin⟩

end RuleNetwork
