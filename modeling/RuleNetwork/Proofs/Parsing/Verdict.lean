import RuleNetwork.Proofs.Parsing.Totality
import RuleNetwork.Sample.Lexer

/-!
The verdict of a parse on its input: whether it is accepted, where a derivation ends, and which token
a rejected input is rejected at.
-/

set_option autoImplicit false

namespace RuleNetwork

open Network

namespace TokenStream

/-- Every token bears its position. -/
def Numbered (s : TokenStream) : Prop := ∀ (k : Nat) (t : Token), s.tokens[k]? = some t → t.index = k

theorem tokens_tokenAt (s : TokenStream) (k : Nat) :
    s.tokens[min k s.size]? = some (s.tokenAt k) := by
  unfold tokens tokenAt size
  by_cases hk : k < s.body.size
  · rw [Nat.min_eq_left (by omega), Array.getElem?_push_lt hk, Int.toNat_natCast,
      Array.getElem?_eq_getElem hk]
    rfl
  · rw [Nat.min_eq_right (by omega), Int.toNat_natCast, Array.getElem?_push_size,
      Array.getElem?_eq_none (by omega)]
    rfl

theorem tokenAt_min (s : TokenStream) (k : Nat) :
    s.tokenAt (min k s.size : Nat) = s.tokenAt k := by
  have h := s.tokens_tokenAt (min k s.size)
  rw [Nat.min_assoc, Nat.min_self, s.tokens_tokenAt k] at h
  exact (Option.some.inj h).symm

end TokenStream

namespace Lexer

theorem numbered_finish {text : Array Char} {spot : Spot} {body : Array Token}
    (h : ∀ (k : Nat) (t : Token), body[k]? = some t → t.index = k) :
    (finish text spot body).Numbered := by
  intro k t ht
  unfold TokenStream.tokens finish at ht
  rw [Array.getElem?_push] at ht
  split at ht
  · rename_i hk
    cases ht
    exact hk.symm
  · exact h k t ht

theorem numbered_scan {l : Lexer} {text : Array Char} {sample : Option Int} {spot : Spot}
    {body : Array Token} {s : TokenStream}
    (hbody : ∀ (k : Nat) (t : Token), body[k]? = some t → t.index = k)
    (h : l.scan text sample spot body = .ok s) : s.Numbered := by
  induction spot, body using scan.induct l text with
  | case1 spot body hlt hnone =>
    unfold scan at h
    rw [dif_pos hlt] at h
    split at h
    · cases h
    · simp_all
  | case2 spot body hlt m hm piece token ih =>
    unfold scan at h
    rw [dif_pos hlt] at h
    split at h
    · simp_all
    · rename_i m' hm'
      rw [hm] at hm'
      cases hm'
      refine ih ?_ h
      split
      · exact hbody
      · intro k t ht
        rw [Array.getElem?_push] at ht
        split at ht
        · rename_i hk
          cases ht
          exact hk.symm
        · exact hbody k t ht
  | case3 spot body hge =>
    unfold scan at h
    rw [dif_neg hge] at h
    cases h
    exact numbered_finish hbody

/-- The tokens cut out of a text bear their positions. -/
theorem numbered_tokenize {l : Lexer} {source : String} {sample : Option Int} {s : TokenStream}
    (h : l.tokenize source sample = .ok s) : s.Numbered :=
  numbered_scan (fun k t ht => by simp at ht) h

end Lexer

/-- A parse that rejects its input tells of the token at which the longest run stops. -/
theorem errorToken_of_rejected {p : ParseTables} {i : Nat} {tokens : TokenStream}
    {x : Execution} {c : Chart} {u : OrderedSet Visit} {m : Groups} {n : Counts} {t : Ties}
    (h : p.Parsed i tokens x c u m n t) (hx : x.outcome ≠ .succeeded) :
    x.errorToken = some ((tokens.tokenAt c.furthest).index : Int) := by
  have htells := Traces.tells_of_execution h.execution
  have hchart : (p.traces tokens u t).chart = c := h.chart_eq
  have hrej : ¬ c.isAccepted = true := fun ha => hx (htells.outcome.2 (hchart ▸ ha))
  rw [htells.errorToken, hchart, if_neg hrej]
  rfl

/-- Recognizing the input of a built grammar: it never fails, the chart holds what runs reach, the
verdict is whether the start rule derives the input, with or without the token that ends it, and a
rejected parse tells of the token after the longest part of the input that a run can read. -/
theorem recognize_correct {b b' : Builder} {g : Grammar} (hb : Builder.build.run.run b = (.ok g, b'))
    {i : Nat} {r : Rule} (hr : g.rules[i]? = some r) (body : List String) :
    ∃ ix c, ChartIndex.ofGrammar g = .ok ix ∧
      (Chart.recognize ix (body ++ [endOfInput]) i).result = .ok c ∧
      (∀ v, c.contains v = true ↔ g.network.Reaches (body ++ [endOfInput]) r.start v) ∧
      (c.isAccepted = true ↔
        g.network.Derives r body ∨ g.network.Derives r (body ++ [endOfInput])) ∧
      (g.network.Derives r (body ++ [endOfInput]) → c.accept? = some (body.length + 1)) ∧
      (¬ g.network.Derives r (body ++ [endOfInput]) → g.network.Derives r body →
        c.accept? = some body.length) ∧
      (∃ v, g.network.Reaches (body ++ [endOfInput]) r.start v ∧ v.position = c.furthest) ∧
      (∀ v, g.network.Reaches (body ++ [endOfInput]) r.start v → v.position ≤ c.furthest) ∧
      ∃ p, ParseTables.ofGrammar g = .ok p ∧ ∀ tokens, tokens.types = body ++ [endOfInput] →
        ∃ x, (p.parse i tokens).run none = .ok (x, none) ∧
          (∀ granted y left, (p.parse i tokens).run granted = .ok (y, left) → y = x) ∧
          (x.outcome = .succeeded ↔ c.isAccepted = true) ∧ (x.outcome ≠ .succeeded →
            x.errorToken = some ((tokens.tokenAt (min c.furthest body.length : Nat)).index : Int) ∧
              (tokens.Numbered → x.errorToken = some ((min c.furthest body.length : Nat) : Int))) := by
  have hg := Builder.proper_of_build hb
  have hi := (Array.getElem?_eq_some_iff.1 hr).1
  obtain ⟨-, hstart, -⟩ := hg.rule hr
  obtain ⟨ix, hix, rfl, hproper⟩ := ChartIndex.ofGrammar_ok hg
  obtain ⟨c, hc, rfl, hrec⟩ := Chart.recognize_ok hproper hi (body ++ [endOfInput])
  rw [hstart]
  refine ⟨c.index, c, hix, hc, hrec.contains, hrec.isAccepted_iff hr, hrec.accept?_of_full hr,
    hrec.accept?_of_body hr, hrec.furthest_spec.1, hrec.furthest_spec.2, ?_⟩
  obtain ⟨p, hp⟩ := ParseTables.exists_tables hg
  refine ⟨p, hp, fun tokens htypes => ?_⟩
  obtain ⟨x, c', u, m, n, t, hparsed, hrun, hunique⟩ := ParseTables.parse_ok hg hp hi tokens
  have hindex := (ParseTables.ofGrammar_ok hp).2.1
  rw [hix] at hindex
  obtain rfl : c' = c := by
    have hchart := hparsed.chart
    rw [htypes, ← Except.ok.inj hindex, hc] at hchart
    exact (Except.ok.inj hchart).symm
  refine ⟨x, hrun, hunique, hparsed.succeeded_iff, fun hx => ?_⟩
  have hsize : tokens.size = body.length := by
    have := congrArg List.length htypes
    simpa [TokenStream.types, TokenStream.tokens, TokenStream.size] using this
  have herror := errorToken_of_rejected hparsed hx
  rw [← tokens.tokenAt_min, hsize] at herror
  refine ⟨herror, fun hnum => ?_⟩
  have htoken := tokens.tokens_tokenAt (min c'.furthest body.length)
  rw [hsize, Nat.min_assoc, Nat.min_self] at htoken
  rw [herror, hnum _ _ htoken]

/-- A pair of brackets is recognized. -/
theorem brackets_recognized : ∃ g b' r ix c,
    Builder.build.run.run Builder.brackets = (.ok g, b') ∧ g.rules[0]? = some r ∧
      ChartIndex.ofGrammar g = .ok ix ∧
      (Chart.recognize ix (["'('", "')'"] ++ [endOfInput]) (0 : Nat)).result = .ok c ∧
      c.isAccepted = true := by
  have hb : Builder.build.run.run Builder.brackets = (.ok _, _) := rfl
  obtain ⟨ix, c, hix, hc, -, haccepted, -⟩ := recognize_correct (i := 0) hb rfl ["'('", "')'"]
  refine ⟨_, _, _, ix, c, hb, rfl, hix, hc, haccepted.2 (.inl ⟨?_, ?_⟩)⟩
  · exact [.along 4, .along 1, .along 0, .along 11, .along 6, .along 8, .along 7, .along 4, .along 2,
      .along 5, .back, .along 10, .along 9, .along 12, .back, .along 3, .along 2, .along 5]
  · decide +kernel

end RuleNetwork
