import Mathlib.Algebra.Group.Int.Defs
import RuleNetwork.Grammar.Cache
import RuleNetwork.Proofs.Grammar.Schema
import RuleNetwork.Proofs.Json.Reading
import RuleNetwork.Proofs.Text.Utf8

/-!
A grammar is read back from its document, compact or indented, as text or as bytes, whatever strings it
holds. No two grammars share a compact document, and so the fingerprint is taken of one grammar only.

This rests on what a codec is documented to do, and on nothing else about it. How long a number it reads
may be is its own affair within the limit that is documented.
-/

set_option autoImplicit false

namespace RuleNetwork

/-- What a codec is documented to do, if these are the whole numbers that it takes. -/
structure GrammarCodec.Documented (c : GrammarCodec) (takes : Int → Prop) : Prop where
  /-- The document of a grammar is a JSON text with all fields, in some layout. -/
  compact : ∀ g : Grammar, Json.IsText g.toJson (c.compact g).toList
  indented : ∀ g : Grammar, Json.IsText g.toJson (c.indented g).toList
  /-- A JSON text that describes a grammar is read as that grammar. -/
  reads : ∀ {v : Json} {text : String} {g : Grammar}, Json.IsText v text.toList → v.Nests 5 →
    Grammar.described v g → (∀ i ∈ v.numbers, takes i) → c.read (Text.Utf8.encode text) = .ok g
  /-- A number that is not taken spoils the text. -/
  refuses : ∀ {v : Json} {text : String} {i : Int}, Json.IsText v text.toList → v.Nests 5 →
    i ∈ v.numbers → ¬ takes i → ∃ m, c.read (Text.Utf8.encode text) = .error m
  short : ∀ {i : Int}, Json.Short Number.digitLimit i → takes i
  long : ∀ {i : Int}, 10 ^ Number.digitLimit ≤ i.natAbs → ¬ takes i

/-- The codec at hand takes what is no longer than the limit with its sign. -/
theorem GrammarCodec.documented_builtIn : builtIn.Documented (Json.Short Number.digitLimit) where
  compact g := Json.isText_compact g.nests
  indented g := Json.isText_indented g.nests
  reads {v text g} htext hnests hg hshort := by
    have hread := (htext.read (hnests.mono (by decide))).eq_ok hshort
    have hvalue : readValue v = .ok g := by rw [readValue, Grammar.readBy v g hg]; rfl
    simp only [builtIn, Text.Utf8.symbols_encode, hread, hvalue]
  refuses {v text i} htext hnests hi hlong := by
    obtain ⟨e, hread⟩ := (htext.read (hnests.mono (by decide))).eq_error hi hlong
    simp only [builtIn, Text.Utf8.symbols_encode, hread]
    exact ⟨_, rfl⟩
  short h := h
  long h := Json.not_short (by decide) h

namespace Grammar

/-- Every rule and every state bears the number of its place. -/
structure InPlace (g : Grammar) : Prop where
  rules : ∀ {k : Nat} {r : Rule}, g.rules[k]? = some r → r.index = k
  states : ∀ {k : Nat} {s : State}, g.network.states[k]? = some s → s.id = k

theorem find?_misplaced {α : Type} {number : α → Int} {xs : Array α}
    (h : ∀ {k : Nat} {a : α}, xs[k]? = some a → number a = k) :
    (xs.toList.zipIdx.find? fun (a, i) => number a != Int.ofNat i) = none := by
  rw [List.find?_eq_none]
  rintro ⟨a, k⟩ ha
  have hget : xs[k]? = some a := by
    rwa [List.mem_zipIdx_iff_getElem?, Array.getElem?_toList] at ha
  simp [h hget]

theorem InPlace.inPlace {g : Grammar} (h : g.InPlace) : g.inPlace = .ok g := by
  have hrules : g.misplacedRule? = none := Option.map_eq_none_iff.2 (find?_misplaced h.rules)
  have hstates : g.misplacedState? = none := Option.map_eq_none_iff.2 (find?_misplaced h.states)
  rw [Grammar.inPlace, hrules, hstates]

section Documented

variable {c : GrammarCodec} {takes : Int → Prop} (hc : c.Documented takes) {g : Grammar}
include hc

/-- A text of the document of a grammar in place is read as that grammar, unless a number is not taken. -/
theorem InPlace.ofText_eq_ok_iff (h : g.InPlace) {text : String} (htext : Json.IsText g.toJson text.toList)
    {g' : Grammar} : ofText c text = .ok g' ↔ (∀ i ∈ g.toJson.numbers, takes i) ∧ g' = g := by
  by_cases htaken : ∀ i ∈ g.toJson.numbers, takes i
  · have hread : ofText c text = .ok g := by
      rw [ofText, ofBytes, hc.reads htext g.nests g.described_toJson htaken]
      exact h.inPlace
    rw [hread]
    exact ⟨fun hg => ⟨htaken, (Except.ok.inj hg).symm⟩, fun hg => hg.2 ▸ rfl⟩
  · obtain ⟨i, hi⟩ := not_forall.1 htaken
    obtain ⟨hmem, hlong⟩ := Classical.not_imp.1 hi
    obtain ⟨m, hm⟩ := hc.refuses htext g.nests hmem hlong
    rw [ofText, ofBytes, hm]
    exact ⟨nofun, fun hg => absurd hg.1 htaken⟩

theorem isText_of_mem {text : String} (htext : text ∈ [c.compact g, g.dump c]) :
    Json.IsText g.toJson text.toList := by
  obtain rfl | htext := List.mem_cons.1 htext
  · exact hc.compact g
  · rw [List.mem_singleton.1 htext]
    exact hc.indented g

/-- A document belongs to one grammar only, however long its numbers are. -/
theorem compact_inj {g' : Grammar} (h : c.compact g' = c.compact g) : g' = g := by
  have hjson : g'.toJson = g.toJson :=
    Json.IsText.unique (h ▸ hc.compact g') g'.nests (hc.compact g) g.nests
  have hread := Grammar.readBy _ _ g'.described_toJson
  rw [hjson, Grammar.readBy _ _ g.described_toJson] at hread
  exact (Except.ok.inj hread).symm

/-- Both documents of a grammar in place are read as that grammar, from text and from the bytes of a file,
exactly if all numbers in it are taken, as those within the limit are; in no case are they read as another
grammar. Loading what was dumped keeps the fingerprint, and the text that the fingerprint is taken of is
that of no other grammar. -/
theorem document_round_trip (h : g.InPlace) :
    (∀ text ∈ [c.compact g, g.dump c], ∀ path g',
      (ofText c text = .ok g' ↔ (∀ i ∈ g.toJson.numbers, takes i) ∧ g' = g) ∧
      (ofFile c path (.ok (Text.Utf8.encode text)) = .ok g' ↔
        (∀ i ∈ g.toJson.numbers, takes i) ∧ g' = g)) ∧
    ((∀ i ∈ g.toJson.numbers, Json.Short Number.digitLimit i) →
      ∀ text ∈ [c.compact g, g.dump c], ofText c text = .ok g) ∧
    (∀ path g', ofFile c path (.ok (Text.Utf8.encode (g.dump c))) = .ok g' →
      g'.fingerprint c = g.fingerprint c) ∧
    ∀ g' : Grammar, c.compact g' = c.compact g → g' = g := by
  have hiff : ∀ text ∈ [c.compact g, g.dump c], ∀ {g'},
      ofText c text = .ok g' ↔ (∀ i ∈ g.toJson.numbers, takes i) ∧ g' = g :=
    fun text htext => h.ofText_eq_ok_iff hc (isText_of_mem hc htext)
  -- a file is read as its text
  refine ⟨fun text htext path g' => ⟨hiff text htext, hiff text htext⟩, fun hshort text htext => ?_,
    fun path g' hg => ?_, fun g' => compact_inj hc⟩
  · exact (hiff text htext).2 ⟨fun i hi => hc.short (hshort i hi), rfl⟩
  · have hread : ofText c (g.dump c) = .ok g' := hg
    rw [((hiff _ (by simp)).1 hread).2]

end Documented

/-- A grammar with characters to escape, negative numbers and one beyond a machine word. -/
def awkward : Grammar where
  name := "\"\\\n\x01é"
  rules := #[⟨0, "", .fragment, -12, 10 ^ 20, 0, none⟩]
  network := ⟨#[⟨0, 7, .ruleStop, [-1]⟩], #[⟨.terminal, -3, ["'", ""], none, some 4, some "\t"⟩]⟩
  tokens := [⟨"t", "\\d+", true, false⟩]

theorem inPlace_awkward : awkward.InPlace where
  rules {k r} h := by
    obtain _ | k := k
    · exact Option.some.inj h ▸ rfl
    · exact absurd h nofun
  states {k s} h := by
    obtain _ | k := k
    · exact Option.some.inj h ▸ rfl
    · exact absurd h nofun

theorem awkward_round_trip : GrammarCodec.builtIn.Documented (Json.Short Number.digitLimit) ∧
    awkward.InPlace ∧ ofText .builtIn (awkward.dump .builtIn) = .ok awkward ∧
    ∀ path, ofFile .builtIn path (.ok (Text.Utf8.encode (GrammarCodec.builtIn.compact awkward))) =
      .ok awkward := by
  have hshort : ∀ i ∈ awkward.toJson.numbers, Json.Short Number.digitLimit i := by decide
  obtain ⟨hread, hall, -⟩ := document_round_trip GrammarCodec.documented_builtIn inPlace_awkward
  exact ⟨GrammarCodec.documented_builtIn, inPlace_awkward, hall hshort _ (by simp), fun path =>
    (hread _ (by simp) path _).2.2 ⟨hshort, rfl⟩⟩

/-- The line of a rule is among the numbers of the document. -/
theorem mem_numbers_line {g : Grammar} {r : Rule} (hr : r ∈ g.rules.toList) {i : Int}
    (hi : r.line = some i) : i ∈ g.toJson.numbers := by
  have hrule : i ∈ r.toJson.numbers := by
    refine Json.mem_fieldNumbers.2 ⟨("line", Json.ofOption .int r.line), by simp, ?_⟩
    rw [hi]
    exact List.mem_singleton_self i
  refine Json.mem_fieldNumbers.2 ⟨("rules", Json.ofList Rule.toJson g.rules.toList), by simp, ?_⟩
  exact Json.mem_itemNumbers.2 ⟨r.toJson, List.mem_map_of_mem hr, hrule⟩

/-- A grammar with a number of one digit more than the limit. -/
def long : Grammar where
  name := "g"
  rules := #[⟨0, "r", .parser, 1, 0, 0, some (.ofNat (10 ^ Number.digitLimit))⟩]

theorem inPlace_long : long.InPlace where
  rules {k r} h := by
    obtain _ | k := k
    · exact Option.some.inj h ▸ rfl
    · exact absurd h nofun
  states h := absurd h nofun

theorem long_not_read : GrammarCodec.builtIn.Documented (Json.Short Number.digitLimit) ∧ long.InPlace ∧
    ofText .builtIn (GrammarCodec.builtIn.compact long) ≠ .ok long := by
  have hc := GrammarCodec.documented_builtIn
  have hline : Int.ofNat (10 ^ Number.digitLimit) ∈ long.toJson.numbers :=
    mem_numbers_line (List.mem_singleton_self _) rfl
  refine ⟨hc, inPlace_long, fun h => ?_⟩
  obtain ⟨htaken, -⟩ := (inPlace_long.ofText_eq_ok_iff hc (hc.compact long)).1 h
  have hdigits (n : Nat) : n ≤ (Int.ofNat n).natAbs := Nat.le_refl n
  exact hc.long (hdigits _) (htaken _ hline)

end Grammar

end RuleNetwork
