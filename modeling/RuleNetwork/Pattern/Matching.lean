import RuleNetwork.Pattern.Basic

/-!
Matching a pattern from a position. Where there are several ways on, the first one that lets the
whole pattern succeed is taken, even if a later one would reach further.

Main statement: the end of a match lies between its start and the end of the text.
-/

set_option autoImplicit false

namespace RuleNetwork

namespace Anchor

def wordAt (text : Array Char) (i : Nat) : Bool := (text[i]?.map Text.isWordChar).getD false

def wordBefore (text : Array Char) (i : Nat) : Bool := i != 0 && wordAt text (i - 1)

def holds (text : Array Char) (i : Nat) : Anchor → Bool
  | .textStart => i == 0
  | .textEnd => i == text.size
  | .lastLineEnd => i == text.size || (i + 1 == text.size && text[i]? == some '\n')
  | .wordEdge => wordBefore text i != wordAt text i
  | .noWordEdge => wordBefore text i == wordAt text i

end Anchor

namespace Pattern

/-- What is left to do from a position on: the end reached, if there is one. -/
abbrev Rest := Nat → Option Nat

/-- Repeats `body`. A round beyond the least number is entered only where the round before it did not
start. -/
def rounds (body : Rest → Rest) (least : Nat) (most : Option Nat) (lazy : Bool) (rest : Rest) :
    Nat → Nat → Option Nat → Rest
  | 0, _, _, i => rest i
  | fuel + 1, done, previous, i =>
    if done < least then body (rounds body least most lazy rest fuel (done + 1) previous) i
    else if most.all (done < ·) && previous != some i then
      if lazy then
        (rest i).or (body (rounds body least most lazy rest fuel (done + 1) (some i)) i)
      else
        (body (rounds body least most lazy rest fuel (done + 1) (some i)) i).or (rest i)
    else rest i

/-- Every round beyond the least number moves on, so the text bounds their number. -/
def roundLimit (text : Array Char) (least : Nat) : Nat := least + text.size + 2

def single (text : Array Char) (accept : Char → Bool) (rest : Rest) (i : Nat) : Option Nat :=
  match text[i]? with
  | some c => if accept c then rest (i + 1) else none
  | none => none

def run (text : Array Char) : Pattern → Rest → Rest
  | .empty, rest, i => rest i
  | .any, rest, i => single text (· != '\n') rest i
  | .oneOf negated items, rest, i => single text (fun c => items.any (·.contains c) != negated) rest i
  | .anchor a, rest, i => if a.holds text i then rest i else none
  | .seq p q, rest, i => p.run text (q.run text rest) i
  | .alt p q, rest, i => (p.run text rest i).or (q.run text rest i)
  | .ahead expected body, rest, i =>
    if (body.run text some i).isSome = expected then rest i else none
  | .atomic body, rest, i => (body.run text some i).bind rest
  | .loop body least most .possessive, rest, i =>
    let round (rest : Rest) (i : Nat) := (body.run text some i).bind rest
    (rounds round least most false some (roundLimit text least) 0 none i).bind rest
  | .loop body least most appetite, rest, i =>
    rounds (body.run text) least most (appetite == .lazy) rest (roundLimit text least) 0 none i

/-- Where a match that starts at `i` ends. -/
def matchEnd? (p : Pattern) (text : Array Char) (i : Nat) : Option Nat := p.run text some i

/-- A way on that ends between its start and the end of the text. -/
def Bounded (text : Array Char) (rest : Rest) : Prop :=
  ∀ i n, i ≤ text.size → rest i = some n → i ≤ n ∧ n ≤ text.size

theorem bounded_some (text : Array Char) : Bounded text some := by
  intro i n hi h
  cases h
  exact ⟨Nat.le_refl _, hi⟩

theorem bounded_single {text : Array Char} {accept : Char → Bool} {rest : Rest}
    (h : Bounded text rest) : Bounded text (single text accept rest) := by
  intro i n hi hn
  unfold single at hn
  split at hn
  · rename_i c hc
    split at hn
    · have hlt : i < text.size := by
        rcases Array.getElem?_eq_some_iff.1 hc with ⟨hlt, -⟩
        exact hlt
      have := h (i + 1) n hlt hn
      omega
    · cases hn
  · cases hn

theorem bounded_rounds {text : Array Char} {body : Rest → Rest} {least : Nat} {most : Option Nat}
    {lazy : Bool} {rest : Rest} (hb : ∀ r, Bounded text r → Bounded text (body r))
    (h : Bounded text rest) (fuel done : Nat) (previous : Option Nat) :
    Bounded text (rounds body least most lazy rest fuel done previous) := by
  induction fuel generalizing done previous with
  | zero => exact h
  | succ fuel ih =>
    intro i n hi hn
    simp only [rounds] at hn
    split at hn
    · exact hb _ (ih _ _) i n hi hn
    · split at hn
      · split at hn
        · rcases Option.or_eq_some_iff.1 hn with hn | ⟨-, hn⟩
          · exact h i n hi hn
          · exact hb _ (ih _ _) i n hi hn
        · rcases Option.or_eq_some_iff.1 hn with hn | ⟨-, hn⟩
          · exact hb _ (ih _ _) i n hi hn
          · exact h i n hi hn
      · exact h i n hi hn

theorem bounded_bind {text : Array Char} {first rest : Rest} (hf : Bounded text first)
    (h : Bounded text rest) : Bounded text (fun i => (first i).bind rest) := by
  intro i n hi hn
  obtain ⟨m, hm, hn⟩ := Option.bind_eq_some_iff.1 hn
  have h1 := hf i m hi hm
  have h2 := h m n h1.2 hn
  exact ⟨Nat.le_trans h1.1 h2.1, h2.2⟩

theorem bounded_run (text : Array Char) (p : Pattern) :
    ∀ rest, Bounded text rest → Bounded text (p.run text rest) := by
  induction p with
  | empty => intro rest h; exact h
  | any => intro rest h; exact bounded_single h
  | oneOf negated items => intro rest h; exact bounded_single h
  | anchor a =>
    intro rest h i n hi hn
    simp only [run] at hn
    split at hn
    · exact h i n hi hn
    · cases hn
  | seq p q ihp ihq => intro rest h; exact ihp _ (ihq _ h)
  | alt p q ihp ihq =>
    intro rest h i n hi hn
    simp only [run] at hn
    rcases Option.or_eq_some_iff.1 hn with hn | ⟨-, hn⟩
    · exact ihp _ h i n hi hn
    · exact ihq _ h i n hi hn
  | ahead expected body ih =>
    intro rest h i n hi hn
    simp only [run] at hn
    split at hn
    · exact h i n hi hn
    · cases hn
  | atomic body ih => intro rest h; exact bounded_bind (ih _ (bounded_some text)) h
  | loop body least most appetite ih =>
    intro rest h
    have once : ∀ r, Bounded text r → Bounded text (fun i => (body.run text some i).bind r) :=
      fun r hr => bounded_bind (ih _ (bounded_some text)) hr
    cases appetite with
    | greedy => exact bounded_rounds ih h _ _ _
    | lazy => exact bounded_rounds ih h _ _ _
    | possessive => exact bounded_bind (bounded_rounds once (bounded_some text) _ _ _) h

theorem matchEnd?_bounds {p : Pattern} {text : Array Char} {i n : Nat} (hi : i ≤ text.size)
    (h : p.matchEnd? text i = some n) : i ≤ n ∧ n ≤ text.size :=
  bounded_run text p some (bounded_some text) i n hi h

end Pattern

end RuleNetwork
