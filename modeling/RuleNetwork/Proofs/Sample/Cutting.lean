import Mathlib.Data.Nat.Find
import Mathlib.Data.Prod.Lex
import Mathlib.Data.List.Induction
import RuleNetwork.Proofs.Attempt
import RuleNetwork.Sample.Lexer

/-!
What the scan of a sample yields, whatever engine looks for the tokens. A text is cut from its start
into segments without gaps. Each segment is the best match at its offset: the longest, of those as long a
literal one, of those the one whose token type is declared first. Where no token type offers a match
the scan stops.
-/

set_option autoImplicit false

namespace RuleNetwork

namespace Spot

/-- The offset right after the last newline before an offset, or the start of the text. -/
def lineStart (text : Array Char) (i : Nat) : Nat :=
  Nat.findGreatest (fun s => 0 < s ∧ text[s - 1]? = some '\n') i

/-- The spot of an offset, read off the text as a whole. -/
def ofOffset (text : Array Char) (i : Nat) : Spot :=
  ⟨i, 1 + (text.toList.take i).count '\n', i - lineStart text i⟩

theorem lineStart_le (text : Array Char) (i : Nat) : lineStart text i ≤ i := Nat.findGreatest_le i

theorem lineStart_succ (text : Array Char) (i : Nat) :
    lineStart text (i + 1) = if text[i]? = some '\n' then i + 1 else lineStart text i := by
  simp [lineStart, Nat.findGreatest_succ]

theorem ofOffset_zero (text : Array Char) : ofOffset text 0 = {} := by simp [ofOffset]

theorem step_ofOffset {text : Array Char} {i : Nat} (hi : i < text.size) :
    (ofOffset text i).step text[i] = ofOffset text (i + 1) := by
  have hget : text[i]? = some text[i] := Array.getElem?_eq_getElem hi
  have hcount : (text.toList.take (i + 1)).count '\n'
      = (text.toList.take i).count '\n' + if text[i] = '\n' then 1 else 0 := by
    rw [List.take_succ_eq_append_getElem (by simpa using hi)]
    simp [List.count_append, List.count_singleton]
  have hle := lineStart_le text i
  by_cases hc : text[i] = '\n'
  · simp [ofOffset, step, lineStart_succ, hcount, hget, hc]
    omega
  · simp [ofOffset, step, lineStart_succ, hcount, hget, hc]
    omega

/-- Counting on over a segment of the text comes to the spot of its end. -/
theorem after_ofOffset {text : Array Char} {i j : Nat} (hij : i ≤ j) (hj : j ≤ text.size) :
    (ofOffset text i).after (text.extract i j).toList = ofOffset text j := by
  induction j, hij using Nat.le_induction with
  | base => simp
  | succ j hij ih =>
    have hlt : j < text.size := by omega
    have hpush : text.extract i (j + 1) = (text.extract i j).push text[j] := by
      rw [Array.push_extract_getElem hlt, Nat.min_eq_left hij]
    rw [hpush, Array.toList_push, after_append, ih (by omega), after_cons, after_nil,
      step_ofOffset hlt]

example : ofOffset #['a', '\n', 'b', 'c'] 3 = ⟨3, 2, 1⟩ := by decide

end Spot

namespace Lexer

variable {l : Lexer} {text : Array Char} {i : Nat}

/-! ## The best match at an offset -/

/-- The token type at a place of the vocabulary matches, and takes at least one character. -/
def Offers (l : Lexer) (text : Array Char) (i k : Nat) (m : Match) : Prop :=
  ∃ a, l.matchers[k]? = some a ∧ a.token = m.token ∧ a.matchEnd? text i = some m.stop ∧ i < m.stop

/-- How a match ranks: by its length, then literals above patterns, then by how early its token type
is declared. -/
def rank (i k : Nat) (m : Match) : Nat ×ₗ Bool ×ₗ Natᵒᵈ :=
  toLex (m.stop - i, toLex (m.token.isLiteral, OrderDual.toDual k))

/-- A match that ranks above every other one at its offset. -/
def Picks (l : Lexer) (text : Array Char) (i : Nat) (m : Match) : Prop :=
  ∃ k, l.Offers text i k m ∧
    ∀ k' m', l.Offers text i k' m' → k' ≠ k → rank i k' m' < rank i k m

theorem rank_lt_rank {k k' : Nat} {a b : Match} (ha : i < a.stop) (hb : i < b.stop)
    (hk : k < k') : rank i k a < rank i k' b ↔ a.yieldsTo b = true := by
  have hdual : ¬ OrderDual.toDual k < OrderDual.toDual k' := by simp; omega
  have hlen : a.stop - i < b.stop - i ↔ a.stop < b.stop := by omega
  have heq : a.stop - i = b.stop - i ↔ a.stop = b.stop := by omega
  simp [rank, Prod.Lex.toLex_lt_toLex, Match.yieldsTo, Bool.lt_iff, hdual, hlen, heq, and_assoc]

theorem place_eq_of_rank_eq {k k' : Nat} {a b : Match} (h : rank i k a = rank i k' b) : k = k' := by
  simp_all [rank]

theorem Offers.lt_stop {k : Nat} {m : Match} (h : l.Offers text i k m) : i < m.stop := by
  obtain ⟨-, -, -, -, hlt⟩ := h
  exact hlt

theorem Offers.lt_length {ms : List Matcher} {k : Nat} {m : Match} (h : Offers ⟨ms⟩ text i k m) :
    k < ms.length := by
  obtain ⟨a, ha, -⟩ := h
  exact (List.getElem?_eq_some_iff.1 ha).1

theorem not_offers_nil {k : Nat} {m : Match} : ¬ Offers ⟨[]⟩ text i k m := fun h => by
  simpa using h.lt_length

theorem Offers.unique {k : Nat} {m m' : Match} (h : l.Offers text i k m)
    (h' : l.Offers text i k m') : m = m' := by
  obtain ⟨a, ha, ht, hs, -⟩ := h
  obtain ⟨a', ha', ht', hs', -⟩ := h'
  cases m
  cases m'
  simp_all

/-- What a longer vocabulary offers: what it offered before, or the match of its last token type. -/
theorem offers_append {ms : List Matcher} {a : Matcher} {k : Nat} {m : Match} :
    Offers ⟨ms ++ [a]⟩ text i k m ↔
      Offers ⟨ms⟩ text i k m ∨ k = ms.length ∧ a.token = m.token ∧ a.end? text i = some m.stop := by
  have hend : a.end? text i = some m.stop ↔ a.matchEnd? text i = some m.stop ∧ i < m.stop := by
    simp [Matcher.end?, Option.filter_eq_some_iff]
  by_cases hk : k < ms.length
  · have hne : k ≠ ms.length := by omega
    simp [Offers, List.getElem?_append_left hk, hne]
  · by_cases hlast : k = ms.length
    · simp [Offers, hlast, hend]
    · have hms : ms[k]? = none := List.getElem?_eq_none (Nat.le_of_not_lt hk)
      have hall : (ms ++ [a])[k]? = none := by
        rw [List.getElem?_eq_none_iff, List.length_append, List.length_singleton]
        omega
      simp only [Offers, hms, hall, hlast, reduceCtorEq, false_and, exists_false, or_self]

theorem candidates_append (ms : List Matcher) (a : Matcher) :
    candidates ⟨ms ++ [a]⟩ text i
      = candidates ⟨ms⟩ text i ++ ((a.end? text i).map fun n => ⟨a.token, n⟩).toList := by
  cases h : a.end? text i <;> simp [candidates, h]

/-- What `longest?` says of an offset. -/
def Settles (l : Lexer) (text : Array Char) (i : Nat) : Option Match → Prop
  | none => ∀ k m, ¬ l.Offers text i k m
  | some m => l.Picks text i m

theorem settles_append_none {ms : List Matcher} {a : Matcher} {best : Option Match}
    (h : Settles ⟨ms⟩ text i best) (hn : a.end? text i = none) :
    Settles ⟨ms ++ [a]⟩ text i best := by
  cases best <;> simpa [Settles, Picks, offers_append, hn] using h

/-- One more token type replaces the best match so far exactly if its own match ranks above it. -/
theorem settles_append_some {ms : List Matcher} {a : Matcher} {best : Option Match} {n : Nat}
    (h : Settles ⟨ms⟩ text i best) (hn : a.end? text i = some n) :
    Settles ⟨ms ++ [a]⟩ text i (Match.best? best ⟨a.token, n⟩) := by
  have hlast : Offers ⟨ms ++ [a]⟩ text i ms.length ⟨a.token, n⟩ :=
    offers_append.2 (.inr ⟨rfl, rfl, hn⟩)
  have hcases : ∀ k m, Offers ⟨ms ++ [a]⟩ text i k m →
      Offers ⟨ms⟩ text i k m ∨ k = ms.length ∧ m = ⟨a.token, n⟩ := by
    intro k m hm
    rcases offers_append.1 hm with hm | ⟨hk, htoken, hstop⟩
    · exact .inl hm
    · rw [hn, Option.some.injEq] at hstop
      exact .inr ⟨hk, by rw [htoken, hstop]⟩
  cases best with
  | none =>
    -- nothing matched before, so the new match has no rival
    refine ⟨ms.length, hlast, fun k m hm hk => ?_⟩
    rcases hcases k m hm with hm | ⟨hk', -⟩
    · exact absurd hm (h k m)
    · exact absurd hk' hk
  | some b =>
    obtain ⟨kb, hb, hbest⟩ := h
    have hkb := hb.lt_length
    have hrank := rank_lt_rank hb.lt_stop hlast.lt_stop hkb
    simp only [Match.best?]
    by_cases hy : b.yieldsTo ⟨a.token, n⟩ = true
    · have hlt := hrank.2 hy
      simp only [hy, if_true]
      refine ⟨ms.length, hlast, fun k m hm hk => ?_⟩
      rcases hcases k m hm with hm | ⟨hk', -⟩
      · by_cases hkk : k = kb
        · subst hkk
          exact hb.unique hm ▸ hlt
        · exact lt_trans (hbest k m hm hkk) hlt
      · exact absurd hk' hk
    · -- ranks never tie, since each holds the place of its token type
      simp only [hy]
      refine ⟨kb, offers_append.2 (.inl hb), fun k m hm hk => ?_⟩
      rcases hcases k m hm with hm | ⟨rfl, rfl⟩
      · exact hbest k m hm hk
      · rcases lt_trichotomy (rank i ms.length ⟨a.token, n⟩) (rank i kb b) with hlt | heq | hlt
        · exact hlt
        · exact absurd (place_eq_of_rank_eq heq) hk
        · exact absurd (hrank.1 hlt) hy

theorem settles_longest? (l : Lexer) (text : Array Char) (i : Nat) :
    l.Settles text i (l.longest? text i) := by
  obtain ⟨ms⟩ := l
  induction ms using List.reverseRecOn with
  | nil => exact fun k m => not_offers_nil
  | append_singleton ms a ih =>
    unfold longest? at ih ⊢
    rw [candidates_append, List.foldl_append]
    cases hn : a.end? text i with
    | none => exact settles_append_none ih hn
    | some n => exact settles_append_some ih hn

end Lexer

/-! ## Cutting a text -/

/-- A segment of a text: where it starts, and the match that ends it. -/
structure Segment where
  start : Nat
  found : Match

namespace Segment

/-- The token of a segment, as the one at a position of its stream. -/
def asToken (text : Array Char) (index : Nat) (p : Segment) : Token :=
  let spot := Spot.ofOffset text p.start
  ⟨p.found.token.name, String.ofList (text.extract p.start p.found.stop).toList, index, p.start,
    p.found.stop, spot.line, spot.column⟩

/-- The segments that a stream keeps. -/
def kept (segments : List Segment) : List Segment := segments.filter fun p => !p.found.token.skip

/-- The tokens of the segments that are kept, as those from a position on. -/
def asTokens (text : Array Char) (first : Nat) (segments : List Segment) : List Token :=
  (kept segments).mapIdx fun k p => p.asToken text (first + k)

theorem asTokens_cons (text : Array Char) (first : Nat) (p : Segment) (rest : List Segment) :
    asTokens text first (p :: rest) =
      if p.found.token.skip then asTokens text first rest
      else p.asToken text first :: asTokens text (first + 1) rest := by
  by_cases h : p.found.token.skip = true
  · simp [asTokens, kept, h]
  · simp [asTokens, kept, h, List.mapIdx_cons, Nat.add_comm, Nat.add_left_comm]

end Segment

namespace Lexer

variable {l : Lexer} {text : Array Char} {i : Nat} {sample : Option Int}

/-- Adjacent segments of a text from one offset to another, each the best match at its start. -/
inductive Cut (l : Lexer) (text : Array Char) : Nat → List Segment → Nat → Prop
  | none (i : Nat) : Cut l text i [] i
  | segment {i j : Nat} {m : Match} {rest : List Segment} : i < m.stop → m.stop ≤ text.size →
      l.Picks text i m → Cut l text m.stop rest j → Cut l text i (⟨i, m⟩ :: rest) j

/-- The token at the end of a text. -/
def endToken (text : Array Char) (index : Nat) : Token :=
  let spot := Spot.ofOffset text text.size
  ⟨endOfInput, "<EOF>", index, text.size, text.size, spot.line, spot.column⟩

theorem scan_end {spot : Spot} {body : Array Token} (h : ¬ spot.offset < text.size) :
    l.scan text sample spot body = .ok (finish text spot body) := by
  rw [scan, dif_neg h]

theorem scan_none {spot : Spot} {body : Array Token} (hi : spot.offset < text.size)
    (h : l.longest? text spot.offset = none) :
    l.scan text sample spot body = .error (noMatch text spot sample) := by
  rw [scan, dif_pos hi]
  split
  · rfl
  · simp_all

theorem scan_some {spot : Spot} {body : Array Token} {m : Match} (hi : spot.offset < text.size)
    (h : l.longest? text spot.offset = some m) :
    let segment := (text.extract spot.offset m.stop).toList
    l.scan text sample spot body = l.scan text sample (spot.after segment)
      (if m.token.skip then body else body.push ⟨m.token.name, String.ofList segment, body.size,
        spot.offset, m.stop, spot.line, spot.column⟩) := by
  rw [scan, dif_pos hi]
  split
  · simp_all
  · rename_i m' hm'
    rw [h] at hm'
    cases hm'
    rfl

/-- One round of the scan: it goes on at the end of the segment, with the token of the segment if that is
kept. -/
theorem scan_piece {body : Array Token} {m : Match} (hi : i < text.size)
    (h : l.longest? text i = some m) :
    l.scan text sample (.ofOffset text i) body =
      l.scan text sample (.ofOffset text m.stop)
        (if m.token.skip then body else body.push ((⟨i, m⟩ : Segment).asToken text body.size)) := by
  have hb := longest?_bounds (Nat.le_of_lt hi) h
  have hspot := Spot.after_ofOffset (Nat.le_of_lt hb.1) hb.2
  rw [← hspot]
  exact scan_some hi h

/-- From an offset on, the scan adds the tokens of a cut that reaches the end of the text, or refuses
the offset at which a cut is stuck. -/
theorem scan_ok (hi : i ≤ text.size) (body : Array Token) :
    ∃ segments stop, l.Cut text i segments stop ∧
      (stop = text.size ∧
          l.scan text sample (.ofOffset text i) body
            = .ok ⟨text, body ++ (Segment.asTokens text body.size segments).toArray,
                endToken text (body.size + (Segment.kept segments).length)⟩ ∨
        stop < text.size ∧ (∀ k m, ¬ l.Offers text stop k m) ∧
          l.scan text sample (.ofOffset text i) body
            = .error (noMatch text (.ofOffset text stop) sample)) := by
  -- on what is left of the text; the spot is that of the offset throughout
  induction hn : text.size - i using Nat.strong_induction_on generalizing i body with
  | _ n ih =>
    by_cases hlt : i < text.size
    · have hsettles := l.settles_longest? text i
      cases hm : l.longest? text i with
      | none =>
        rw [hm] at hsettles
        exact ⟨[], i, .none i, .inr ⟨hlt, hsettles, scan_none hlt hm⟩⟩
      | some m =>
        rw [hm] at hsettles
        obtain ⟨hstart, hstop⟩ := longest?_bounds hi hm
        rw [scan_piece hlt hm]
        obtain ⟨segments, stop, hcut, h⟩ := ih (text.size - m.stop) (by omega) hstop
          (if m.token.skip then body else body.push ((⟨i, m⟩ : Segment).asToken text body.size)) rfl
        refine ⟨⟨i, m⟩ :: segments, stop, .segment hstart hstop hsettles hcut, ?_⟩
        rcases h with ⟨hend, hok⟩ | h
        · refine .inl ⟨hend, ?_⟩
          rw [hok, Segment.asTokens_cons]
          by_cases hskip : m.token.skip = true
          · simp [hskip, Segment.kept]
          · simp [hskip, Segment.kept, Nat.add_assoc, Nat.add_comm]
        · exact .inr h
    · have hend : i = text.size := by omega
      subst hend
      refine ⟨[], text.size, .none _, .inl ⟨rfl, ?_⟩⟩
      rw [scan_end (by simp [Spot.ofOffset])]
      simp [Segment.asTokens, Segment.kept, finish, endToken, Spot.ofOffset]

theorem token_of_ofToken {patterns : PatternEngine} {t : TokenType} {a : Matcher}
    (h : Matcher.ofToken patterns t = .ok a) : a.token = t := by
  unfold Matcher.ofToken at h
  split at h
  · cases h
    rfl
  · split at h <;> cases h
    rfl

/-- The lexer of a grammar looks for its token types, in the order of their declaration. -/
theorem tokens_of_ofGrammar {patterns : PatternEngine} {g : Grammar} (h : ofGrammar patterns g = .ok l) :
    l.matchers.map Matcher.token = g.tokens := by
  obtain ⟨ms, hms, h⟩ := bind_eq_ok.1 h
  cases h
  rw [mapM_eq_ok] at hms
  have heq : List.Forall₂ (· = ·) g.tokens (ms.map Matcher.token) :=
    List.forall₂_map_right_iff.2 (hms.imp fun _ _ h => (token_of_ofToken h).symm)
  exact (List.forall₂_eq_eq_eq ▸ heq).symm

/-- A text is cut from its start into adjacent segments, each the best match at its offset. If they
reach the end, they are the stream, less the skipped ones and closed by the end of input; every token
bears its position and its spot. Else the first offset at which no token type matches is refused,
under its line and column. This holds for every vocabulary and every engine whose matches end between
their start and the end of the text; a grammar's lexer has the vocabulary of the grammar. -/
theorem tokenize_ok (l : Lexer) (source : String) (sample : Option Int) :
    (∀ patterns g, ofGrammar patterns g = .ok l → l.matchers.map Matcher.token = g.tokens) ∧
    let text := source.toList.toArray
    ∃ segments stop, l.Cut text 0 segments stop ∧
      ((stop = text.size ∧ ∃ s, l.tokenize source sample = .ok s ∧ s.source = text ∧
          s.tokens.toList
            = Segment.asTokens text 0 segments ++ [endToken text (Segment.kept segments).length]) ∨
        stop < text.size ∧ (∀ k m, ¬ l.Offers text stop k m) ∧
          l.tokenize source sample = .error (.noToken
            (String.ofList (text.extract stop (stop + excerptLength)).toList)
            { sample := sample
              line := some (Spot.ofOffset text stop).line
              column := some (Spot.ofOffset text stop).column })) := by
  refine ⟨fun _ _ => tokens_of_ofGrammar, ?_⟩
  intro text
  obtain ⟨segments, stop, hcut, h⟩ := scan_ok (Nat.zero_le _) #[]
  rw [Spot.ofOffset_zero] at h
  refine ⟨segments, stop, hcut, ?_⟩
  rcases h with ⟨hend, hok⟩ | ⟨hlt, hnone, herror⟩
  · exact .inl ⟨hend, _, hok, rfl, by simp [TokenStream.tokens]⟩
  · exact .inr ⟨hlt, hnone, herror⟩

end Lexer

end RuleNetwork
