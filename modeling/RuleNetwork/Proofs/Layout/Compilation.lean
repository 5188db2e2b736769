import RuleNetwork.Proofs.Layout.Reading
import RuleNetwork.Proofs.Layout.Resolution
import RuleNetwork.Proofs.Layout.Rules

/-!
A build is correct: a rule of the network derives exactly the language that the declarations give to
it. The runs through the rules solve the equations, so the least solution lies within them; a run
through a rule reads a word of any solution, by induction on its number of moves.
-/

set_option autoImplicit false

namespace RuleNetwork

open Network

/-- What the network reads through the rule of a number. -/
def Network.reading (n : Network) (i : Nat) : Language String :=
  {w | n.Spans (startState i) w (stopState i)}

section Bodies

variable {n : Network} {bodies : List (Element Nat)} {callee : Nat → Language String}

/-- The words of a body are read between the bounds of its rule. -/
theorem spans_of_laidAs {i : Nat} {e : Element Nat} (hl : e.LaidAs n i)
    (he : e.Within (· < bodies.length)) (hp : n.Proper bodies.length)
    (hcallee : ∀ i < bodies.length, callee i ≤ n.reading i) {w : List String}
    (hw : w ∈ e.language callee) : w ∈ n.reading i := by
  obtain ⟨p, q, hstart, hpq, hq⟩ := hl
  have hin := spans_of_laid (fun i hi => hp.ends_stop hi) hcallee e he hpq hw
  have h := (hstart.spans_free (List.mem_singleton_self _)).trans
    (hin.trans (hq.spans_free (List.mem_singleton_self _)))
  rwa [List.append_nil] at h

/-- A run through a rule reads a word of every solution of the equations. -/
theorem language_of_rule {types : List String} (hp : n.Proper bodies.length)
    (hl : ∀ (i : Nat) (e : Element Nat), bodies[i]? = some e → e.LaidAs n i)
    (hw : ∀ e ∈ bodies, e.Within (· < bodies.length))
    (hcallee : ∀ (i : Nat) (e : Element Nat), bodies[i]? = some e → e.language callee ≤ callee i)
    (l i : Nat) (hi : i < bodies.length) (z : Int) (k k' : Nat) (hz : n.Ends z)
    (h : n.Leads types l (startState i) z k k') : ∃ w ∈ callee i, Stands types k w k' := by
  induction l using Nat.strongRecOn generalizing i z k k' with
  | ind l ih =>
    have hget : bodies[i]? = some bodies[i] := List.getElem?_eq_getElem hi
    obtain ⟨p, q, hstart, hpq, hq⟩ := hl i _ hget
    obtain ⟨l₁, hl₁, h⟩ := h.next hz hstart
    have hin : ∀ l' < l₁, ∀ i < bodies.length, ∀ z k k', n.Ends z →
        n.Leads types l' (startState i) z k k' → ∃ w ∈ callee i, Stands types k w k' :=
      fun l' hl' i hi z k k' hz h => ih l' (hl'.trans hl₁) i hi z k k' hz h
    obtain ⟨w, hlang, j, hj, h⟩ :=
      passed_of_callee hin bodies[i] (hw _ (List.getElem_mem hi)) hpq _ _ _ hz h
    obtain ⟨l₂, -, h⟩ := h.next hz hq
    rw [h.of_ends (hp.ends_stop hi)]
    exact ⟨w, hcallee i _ hget hlang, hj⟩

end Bodies

namespace Builder

variable {b b' : Builder} {g : Grammar}

/-- The first declaration of a name stands at the number of the name. -/
theorem declaration?_of_declares {name : String} (h : b.declares name = true) :
    ∃ d, b.declaration? name = some d ∧ d.name = name ∧ b.rules[b.number name]? = some d ∧
      ∀ (j : Nat) (d' : Declaration), j < b.number name → b.rules[j]? = some d' → d'.name ≠ name := by
  have hlt := number_lt h
  unfold number index? at hlt ⊢
  unfold declaration?
  cases hi : b.rules.findIdx? (fun d => d.name == name) with
  | none =>
    obtain ⟨d, hd, hn⟩ := List.any_eq_true.1 h
    exact absurd hn (by simpa using List.findIdx?_eq_none_iff.1 hi d hd)
  | some i =>
    obtain ⟨hlt, hn, hbefore⟩ := List.findIdx?_eq_some_iff_getElem.1 hi
    refine ⟨b.rules[i], ?_, by simpa using hn, List.getElem?_eq_getElem hlt, fun j d' hj hd' => ?_⟩
    · exact List.find?_eq_some_iff_getElem.2
        ⟨hn, i, hlt, rfl, fun j hj => by simpa using hbefore j hj⟩
    · obtain ⟨hj', rfl⟩ := List.getElem?_eq_some_iff.1 hd'
      simpa using hbefore j hj

theorem proper_bodies (h : build.run.run b = (.ok g, b')) : (networkOf b.bodies).Proper b.rules.length := by
  obtain ⟨-, -, -, -, hwithin⟩ := build_ok h
  obtain ⟨hp, -⟩ := proper_networkOf hwithin
  rwa [bodies, List.length_map] at hp

/-- Whatever a builder builds is proper. -/
theorem proper_of_build (h : build.run.run b = (.ok g, b')) : g.Proper := by
  obtain ⟨hr, hnet, -⟩ := build_ok h
  have hsize : g.rules.size = b.rules.length := by simp [hr]
  refine ⟨by rw [hnet, hsize]; exact proper_bodies h, fun {i r} hi => ?_⟩
  simp only [hr, List.getElem?_toArray, List.getElem?_mapIdx, Option.map_eq_some_iff] at hi
  obtain ⟨d, -, rfl⟩ := hi
  exact ⟨rfl, rfl, rfl⟩

/-- The rule that a grammar finds under a declared name. -/
theorem rule_of_build (h : build.run.run b = (.ok g, b')) {name : String}
    (hn : b.declares name = true) : ∃ r, g.rule name = .ok r ∧ r.name = name ∧
      r.start = startState (b.number name) ∧ r.stop = stopState (b.number name) := by
  obtain ⟨hr, -⟩ := build_ok h
  obtain ⟨d, hd, rfl, hget, hfirst⟩ := declaration?_of_declares hn
  obtain ⟨hlt, hd'⟩ := List.getElem?_eq_some_iff.1 hget
  have hsize : b.number d.name < g.rules.size := by simpa [hr] using hlt
  have hrule : g.rules[b.number d.name]? = some (ruleOf (b.number d.name) d) := by
    simp [hr, hget]
  have hfind : g.rules.find? (fun r => r.name == d.name) =
      some (ruleOf (b.number d.name) d) := by
    refine Array.find?_eq_some_iff_getElem.2
      ⟨by simp [ruleOf], b.number d.name, hsize, ?_, fun j hj => ?_⟩
    · exact (Array.getElem?_eq_some_iff.1 hrule).2
    · have hj' : j < b.rules.length := by omega
      have := hfirst j b.rules[j] hj (List.getElem?_eq_getElem hj')
      simpa [hr, ruleOf] using this
  refine ⟨ruleOf (b.number d.name) d, ?_, rfl, rfl, rfl⟩
  unfold Grammar.rule Grammar.ruleIndex
  rw [hfind]
  simp only [bind, Except.bind, ruleOf, Position.get?, Int.ofNat_eq_natCast,
    Position.resolve_of_lt hsize, Option.bind_some, hrule]

theorem hasRule_of_build (h : build.run.run b = (.ok g, b')) (name : String) :
    g.hasRule name = b.declares name := by
  obtain ⟨hr, -⟩ := build_ok h
  unfold Grammar.hasRule declares
  rw [hr, List.any_toArray]
  have hnames : (b.rules.mapIdx ruleOf).map Rule.name = b.rules.map Declaration.name := by
    refine List.ext_getElem (by simp) fun k hk hk' => ?_
    simp [ruleOf]
  have hany := congrArg (List.any · (· == name)) hnames
  simpa [List.any_map, Function.comp_def] using hany

theorem equations_of_declaration? {name : String} {d : Declaration}
    (h : b.declaration? name = some d) (callee : String → Language String) :
    b.equations callee name = d.language callee := by
  simp only [equations, OrderHom.coe_mk, h, Option.elim]

/-- What the rules of a built network read is closed under the equations. -/
theorem equations_reading_le (h : build.run.run b = (.ok g, b')) :
    b.equations (fun name => g.network.reading (b.number name)) ≤
      fun name => g.network.reading (b.number name) := by
  obtain ⟨-, hnet, -, hdecl, hwithin⟩ := build_ok h
  obtain ⟨hp, hl⟩ := proper_networkOf hwithin
  rw [hnet]
  intro name w hw
  cases hn : b.declares name with
  | false =>
    have hnone : b.declaration? name = none := by
      simpa [declares, declaration?] using hn
    simp only [equations, OrderHom.coe_mk, hnone, Option.elim] at hw
    exact absurd hw (Language.notMem_zero w)
  | true =>
    obtain ⟨d, hd, -, hget, -⟩ := declaration?_of_declares hn
    have hbody : b.bodies[b.number name]? = some ((bodyOf d).rename b.number) := by
      simp [bodies, hget]
    rw [equations_of_declaration? hd, ← language_bodyOf,
      ← language_rename b.number (fun _ _ => rfl) _ (hdecl d (List.mem_of_getElem? hget))] at hw
    exact spans_of_laidAs (hl _ _ hbody) (hwithin _ (List.mem_of_getElem? hbody)) hp
      (fun _ _ _ hw => hw) hw

/-- The language that the least solution gives to the declaration in a place. -/
def languageAt (b : Builder) (i : Nat) : Language String :=
  (b.rules[i]?).elim 0 (Declaration.language b.language)

theorem languageAt_number {name : String} (hn : b.declares name = true) :
    b.languageAt (b.number name) = b.language name := by
  obtain ⟨d, hd, -, hget, -⟩ := declaration?_of_declares hn
  rw [languageAt, hget, language_eq hd]
  rfl

theorem language_languageAt (hdecl : ∀ d ∈ b.rules,
    (bodyOf d).Within fun name => b.declares name = true) {i : Nat} {e : Element Nat}
    (he : b.bodies[i]? = some e) : e.language b.languageAt = b.languageAt i := by
  unfold bodies at he
  rw [List.getElem?_map, Option.map_eq_some_iff] at he
  obtain ⟨d, hget, rfl⟩ := he
  rw [language_rename b.number (fun _ hn => languageAt_number hn) _
    (hdecl d (List.mem_of_getElem? hget)), language_bodyOf, languageAt, hget]
  rfl

/-- A built network is a correct layout of its declarations: it runs through a declared rule over
exactly the words of the rule's language. -/
theorem derives_iff_mem_language (h : build.run.run b = (.ok g, b')) {name : String}
    (hn : b.declares name = true) :
    ∃ r, g.rule name = .ok r ∧ r.name = name ∧
      ∀ w, g.network.Derives r w ↔ w ∈ b.language name := by
  obtain ⟨r, hr, hname, hstart, hstop⟩ := rule_of_build h hn
  obtain ⟨-, hnet, -, hdecl, hwithin⟩ := build_ok h
  obtain ⟨hp, hl⟩ := proper_networkOf hwithin
  refine ⟨r, hr, hname, fun w => ?_⟩
  have hlt : b.number name < b.bodies.length := by
    simpa [bodies] using number_lt hn
  unfold Network.Derives Network.IsDerivation Config.enter
  rw [hstart, hstop, hnet]
  constructor
  · rintro ⟨ms, hms⟩
    obtain ⟨v, hv, hpre, hlen⟩ := language_of_rule hp hl hwithin
      (fun i e he => (language_languageAt hdecl he).le) ms.length _ hlt _ 0 w.length
      (hp.ends_stop hlt) ⟨0, ms, Nat.le_refl _, hms⟩
    rw [Nat.zero_add] at hlen
    rw [List.drop_zero] at hpre
    rw [languageAt_number hn] at hv
    rwa [← hpre.eq_of_length hlen.symm]
  · intro hw
    have := OrderHom.lfp_le _ (equations_reading_le h) name hw
    rwa [hnet] at this

/-- Rows of matched brackets, with two rules that call each other. -/
def brackets : Builder where
  name := "brackets"
  rules := [
    { name := "row", kind := .parser, body := some (.star (.call "pair")) },
    { name := "pair", kind := .parser,
      body := some (.sequence [.token ["'('"], .call "row", .token ["')'"]]) }]

/-- A pair of brackets is a row of them. -/
theorem brackets_derives (h : build.run.run brackets = (.ok g, b')) {r : Rule}
    (hr : g.rules[0]? = some r) : g.network.Derives r ["'('", "')'"] := by
  cases h
  cases hr
  refine ⟨?_, ?_⟩
  · exact [.along 4, .along 1, .along 0, .along 11, .along 6, .along 8, .along 7, .along 4, .along 2,
      .along 5, .back, .along 10, .along 9, .along 12, .back, .along 3, .along 2, .along 5]
  · decide +kernel

theorem brackets_language : ∃ g b' r, build.run.run brackets = (.ok g, b') ∧
    g.rule "row" = .ok r ∧ ∀ w, g.network.Derives r w ↔ w ∈ brackets.language "row" := by
  have hb : build.run.run brackets = (.ok _, _) := rfl
  have hn : brackets.declares "row" = true := by decide
  obtain ⟨r, hr, -, hw⟩ := derives_iff_mem_language hb hn
  exact ⟨_, _, r, hb, hr, hw⟩

end Builder

end RuleNetwork
