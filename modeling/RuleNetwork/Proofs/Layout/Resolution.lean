import RuleNetwork.Proofs.Layout.Language

/-!
What a build makes of the declared bodies: it only replaces the names of the callees by the numbers
of their rules, and it leaves the declarations as they are.
-/

set_option autoImplicit false

namespace RuleNetwork

namespace Building

variable {α β : Type} {b b' : Builder}

theorem bind_ok {x : Building α} {f : α → Building β} {v : β} (h : (x >>= f) b = (.ok v, b')) :
    ∃ a c, x b = (.ok a, c) ∧ f a c = (.ok v, b') := by
  change ExceptT.bindCont f (x b).1 (x b).2 = _ at h
  cases hr : (x b).1 with
  | ok a =>
    rw [hr] at h
    exact ⟨a, (x b).2, Prod.ext hr rfl, h⟩
  | error e =>
    rw [hr] at h
    cases h

theorem pure_ok {v w : α} (h : (pure v : Building α) b = (.ok w, b')) : v = w ∧ b = b' := by
  cases h
  exact ⟨rfl, rfl⟩

theorem throw_ne_ok {f : Fault} {v : α} : (throw f : Building α) b ≠ (.ok v, b') := by
  intro h
  cases h

end Building

namespace Builder

open Building

/-- The same declarations of rules and named tokens. -/
def SameRules (b b' : Builder) : Prop :=
  b'.rules = b.rules ∧ b'.entryRules = b.entryRules

theorem SameRules.trans {a b c : Builder} (h : a.SameRules b) (h' : b.SameRules c) :
    a.SameRules c := ⟨h'.1.trans h.1, h'.2.trans h.2⟩

theorem sameRules_addLiteral (text : String) (b : Builder) : b.SameRules (b.addLiteral text) := by
  unfold addLiteral
  split <;> exact ⟨rfl, rfl⟩

theorem sameRules_resolveToken {d : Declaration} {name : String} {b b' : Builder}
    (h : resolveToken d name b = (.ok (), b')) : b.SameRules b' := by
  unfold resolveToken at h
  split at h
  · cases h
    exact ⟨rfl, rfl⟩
  · generalize unquoted? name = quoted at h
    cases quoted with
    | some text =>
      cases h
      exact sameRules_addLiteral _ b
    | none =>
      obtain ⟨c, c', hc, h⟩ := bind_ok h
      cases hc
      split at h
      · cases h
        exact ⟨rfl, rfl⟩
      · exact absurd h throw_ne_ok

theorem sameRules_resolveTokens {d : Declaration} {names : List String} {b b' : Builder}
    (h : names.forM (resolveToken d) b = (.ok (), b')) : b.SameRules b' := by
  induction names generalizing b with
  | nil => cases h; exact ⟨rfl, rfl⟩
  | cons x r ih =>
    obtain ⟨_, c, hx, h⟩ := bind_ok (x := resolveToken d x) h
    exact (sameRules_resolveToken hx).trans (ih h)

/-- The number of a declared rule. -/
def number (b : Builder) (name : String) : Nat := (b.index? name).getD 0

theorem number_eq {b b' : Builder} (h : b.SameRules b') : b'.number = b.number := by
  funext name
  simp only [number, index?, h.1]

theorem declares_eq {b b' : Builder} (h : b.SameRules b') : b'.declares = b.declares := by
  funext name
  simp only [declares, h.1]

theorem declares_of_index? {b : Builder} {name : String} {i : Nat} (h : b.index? name = some i) :
    b.declares name = true := by
  obtain ⟨hi, hp, -⟩ := List.findIdx?_eq_some_iff_getElem.1 h
  exact List.any_eq_true.2 ⟨_, List.getElem_mem hi, hp⟩

/-- A body resolved: its calls are numbered, and all of them are declared. -/
def Resolved (b : Builder) (e : Element String) (e' : Element Nat) : Prop :=
  e' = e.rename b.number ∧ e.Within (fun name => b.declares name = true)

theorem resolveAll_ok {d : Declaration} {l : List (Element String)}
    (hl : ∀ e ∈ l, ∀ b b' e', resolve d e b = (.ok e', b') → b.SameRules b' ∧ b.Resolved e e')
    {b b' : Builder} {l' : List (Element Nat)} (h : resolveAll d l b = (.ok l', b')) :
    b.SameRules b' ∧ l' = renameAll b.number l ∧
      AllWithin (fun name => b.declares name = true) l := by
  induction l generalizing b l' with
  | nil => cases h; exact ⟨⟨rfl, rfl⟩, rfl, trivial⟩
  | cons e r ih =>
    obtain ⟨e', c, he, h⟩ := bind_ok h
    obtain ⟨r', c', hr, h⟩ := bind_ok h
    obtain ⟨rfl, rfl⟩ := pure_ok h
    obtain ⟨hs, rfl, hw⟩ := hl e (List.mem_cons_self ..) _ _ _ he
    obtain ⟨hs', hr', hw'⟩ := ih (fun e he => hl e (List.mem_cons_of_mem _ he)) hr
    rw [number_eq hs] at hr'
    rw [declares_eq hs] at hw'
    subst hr'
    exact ⟨hs.trans hs', rfl, hw, hw'⟩

theorem resolve_ok {d : Declaration} (e : Element String) {b b' : Builder} {e' : Element Nat}
    (h : resolve d e b = (.ok e', b')) : b.SameRules b' ∧ b.Resolved e e' := by
  induction e using Element.induction generalizing b b' e' with
  | token names =>
    obtain ⟨_, c, hn, h⟩ := bind_ok h
    obtain ⟨rfl, rfl⟩ := pure_ok h
    exact ⟨sameRules_resolveTokens hn, rfl, trivial⟩
  | call callee =>
    obtain ⟨c, c', hc, h⟩ := bind_ok h
    cases hc
    generalize hi : b.index? callee = found at h
    cases found with
    | some i =>
      obtain ⟨rfl, rfl⟩ := pure_ok h
      refine ⟨⟨rfl, rfl⟩, ?_, declares_of_index? hi⟩
      simp [Element.rename, number, hi]
    | none => exact absurd h throw_ne_ok
  | guard text =>
    obtain ⟨rfl, rfl⟩ := pure_ok h
    exact ⟨⟨rfl, rfl⟩, rfl, trivial⟩
  | empty =>
    obtain ⟨rfl, rfl⟩ := pure_ok h
    exact ⟨⟨rfl, rfl⟩, rfl, trivial⟩
  | unknown => exact absurd h throw_ne_ok
  | sequence items ih =>
    obtain ⟨l, c, hl, h⟩ := bind_ok h
    obtain ⟨rfl, rfl⟩ := pure_ok h
    obtain ⟨hs, rfl, hw⟩ := resolveAll_ok (fun e he b b' e' h => ih e he h) hl
    exact ⟨hs, rfl, hw⟩
  | choice options ih =>
    obtain ⟨l, c, hl, h⟩ := bind_ok h
    obtain ⟨rfl, rfl⟩ := pure_ok h
    obtain ⟨hs, rfl, hw⟩ := resolveAll_ok (fun e he b b' e' h => ih e he h) hl
    exact ⟨hs, rfl, hw⟩
  | star body ih =>
    obtain ⟨e₁, c, he, h⟩ := bind_ok h
    obtain ⟨rfl, rfl⟩ := pure_ok h
    obtain ⟨hs, rfl, hw⟩ := ih he
    exact ⟨hs, rfl, hw⟩
  | plus body ih =>
    obtain ⟨e₁, c, he, h⟩ := bind_ok h
    obtain ⟨rfl, rfl⟩ := pure_ok h
    obtain ⟨hs, rfl, hw⟩ := ih he
    exact ⟨hs, rfl, hw⟩
  | option body ih =>
    obtain ⟨e₁, c, he, h⟩ := bind_ok h
    obtain ⟨rfl, rfl⟩ := pure_ok h
    obtain ⟨hs, rfl, hw⟩ := ih he
    exact ⟨hs, rfl, hw⟩

/-- The body of a declared rule; without one it is the rule's terminal. -/
def bodyOf (d : Declaration) : Element String := d.body.getD (.token [terminalText d])

theorem language_bodyOf (d : Declaration) (callee : String → Language String) :
    (bodyOf d).language callee = d.language callee := by
  unfold bodyOf Declaration.language
  cases d.body with
  | some body => rfl
  | none =>
    ext w
    simp only [Option.getD, Element.language, List.mem_singleton, exists_eq_left]
    rfl

theorem resolveBody_ok {d : Declaration} {b b' : Builder} {e' : Element Nat}
    (h : resolveBody d b = (.ok e', b')) : b.SameRules b' ∧ b.Resolved (bodyOf d) e' := by
  unfold resolveBody at h
  unfold bodyOf
  cases hb : d.body with
  | some body =>
    rw [hb] at h
    exact resolve_ok body h
  | none =>
    rw [hb] at h
    obtain ⟨rfl, rfl⟩ := pure_ok h
    exact ⟨⟨rfl, rfl⟩, rfl, trivial⟩

theorem resolveRules_ok {l : List Declaration} {b b' : Builder} {bodies : List (Element Nat)}
    (h : resolveRules l b = (.ok bodies, b')) :
    b.SameRules b' ∧ bodies = l.map (fun d => (bodyOf d).rename b.number) ∧
      ∀ d ∈ l, (bodyOf d).Within (fun name => b.declares name = true) := by
  induction l generalizing b bodies with
  | nil => cases h; exact ⟨⟨rfl, rfl⟩, rfl, fun d hd => absurd hd List.not_mem_nil⟩
  | cons d r ih =>
    obtain ⟨e', c, he, h⟩ := bind_ok h
    obtain ⟨r', c', hr, h⟩ := bind_ok h
    obtain ⟨rfl, rfl⟩ := pure_ok h
    obtain ⟨hs, rfl, hw⟩ := resolveBody_ok he
    obtain ⟨hs', rfl, hw'⟩ := ih hr
    rw [number_eq hs, declares_eq hs] at *
    refine ⟨hs.trans hs', rfl, fun d' hd => ?_⟩
    obtain rfl | hd := List.mem_cons.1 hd
    · exact hw
    · exact hw' d' hd

/-- The bodies that a build lays out. -/
def bodies (b : Builder) : List (Element Nat) := b.rules.map fun d => (bodyOf d).rename b.number

theorem number_lt {b : Builder} {name : String} (h : b.declares name = true) :
    b.number name < b.rules.length := by
  unfold number index?
  cases hi : b.rules.findIdx? (fun d => d.name == name) with
  | none =>
    obtain ⟨d, hd, hn⟩ := List.any_eq_true.1 h
    exact absurd hn (by simpa using List.findIdx?_eq_none_iff.1 hi d hd)
  | some i => exact (List.findIdx?_eq_some_iff_getElem.1 hi).1

/-- A build that succeeds: its rules stand in the order of the declarations, and its network lays out
their bodies. -/
theorem build_ok {b b' : Builder} {g : Grammar} (h : build.run.run b = (.ok g, b')) :
    g.rules = (b.rules.mapIdx ruleOf).toArray ∧ g.network = networkOf b.bodies ∧
      (∀ name ∈ g.entryRules, b.declares name = true) ∧
      (∀ d ∈ b.rules, (bodyOf d).Within fun name => b.declares name = true) ∧
      ∀ e ∈ b.bodies, e.Within (· < b.bodies.length) := by
  obtain ⟨c, c', hc, h⟩ := bind_ok (x := get) h
  cases hc
  obtain ⟨bodies, c, hb, h⟩ := bind_ok h
  obtain ⟨c₁, c₂, hc, h⟩ := bind_ok h
  cases hc
  obtain ⟨hs, rfl, hw⟩ := resolveRules_ok hb
  generalize hmissing : c.entryRules.find? (fun name => !c.declares name) = missing at h
  cases missing with
  | some name => exact absurd h throw_ne_ok
  | none =>
    obtain ⟨rfl, rfl⟩ := pure_ok h
    refine ⟨rfl, rfl, fun name hn => ?_, hw, fun e he => ?_⟩
    · rw [← declares_eq hs]
      simpa using List.find?_eq_none.1 hmissing name hn
    obtain ⟨d, hd, rfl⟩ := List.mem_map.1 he
    exact within_rename _ (fun name hn => by simpa [Builder.bodies] using number_lt hn) _ (hw d hd)

end Builder

end RuleNetwork
