import Mathlib.Computability.Language
import Mathlib.Order.FixedPoints
import Mathlib.Order.CompletePartialOrder
import RuleNetwork.Grammar.Builder
import RuleNetwork.Proofs.Layout.Laid

/-!
The token language of a declared rule. A body denotes a language once its calls do, so the
declarations are equations between languages, and a rule denotes its part of the least solution.
-/

set_option autoImplicit false

open scoped Computability

namespace RuleNetwork

mutual

/-- The language of a body whose calls have the languages given. -/
def Element.language {ρ : Type} (callee : ρ → Language String) : Element ρ → Language String
  | .token names => {w | ∃ x ∈ names, w = [x]}
  | .call r => callee r
  | .guard _ | .empty => 1
  | .sequence items => productLanguage callee items
  | .choice options => unionLanguage callee options
  | .star body => (body.language callee)∗
  | .plus body => body.language callee * (body.language callee)∗
  | .option body => 1 + body.language callee
  | .unknown => 0

def productLanguage {ρ : Type} (callee : ρ → Language String) : List (Element ρ) → Language String
  | [] => 1
  | e :: r => e.language callee * productLanguage callee r

def unionLanguage {ρ : Type} (callee : ρ → Language String) : List (Element ρ) → Language String
  | [] => 0
  | e :: r => e.language callee + unionLanguage callee r

end

mutual

def Element.rename {ρ σ : Type} (f : ρ → σ) : Element ρ → Element σ
  | .token names => .token names
  | .call r => .call (f r)
  | .guard text => .guard text
  | .empty => .empty
  | .sequence items => .sequence (renameAll f items)
  | .choice options => .choice (renameAll f options)
  | .star body => .star (body.rename f)
  | .plus body => .plus (body.rename f)
  | .option body => .option (body.rename f)
  | .unknown => .unknown

def renameAll {ρ σ : Type} (f : ρ → σ) : List (Element ρ) → List (Element σ)
  | [] => []
  | e :: r => e.rename f :: renameAll f r

end

section Element

variable {ρ σ : Type}

theorem renameAll_eq_map (f : ρ → σ) (l : List (Element ρ)) : renameAll f l = l.map (·.rename f) := by
  induction l with
  | nil => rfl
  | cons e r ih => rw [renameAll, ih, List.map_cons]

theorem productLanguage_congr {callee : ρ → Language String} {callee' : σ → Language String}
    (f : ρ → σ) {l : List (Element ρ)}
    (h : ∀ e ∈ l, (e.rename f).language callee' = e.language callee) :
    productLanguage callee' (renameAll f l) = productLanguage callee l := by
  induction l with
  | nil => rfl
  | cons e r ih =>
    rw [renameAll, productLanguage, productLanguage, h e (List.mem_cons_self ..),
      ih fun e he => h e (List.mem_cons_of_mem _ he)]

theorem unionLanguage_congr {callee : ρ → Language String} {callee' : σ → Language String}
    (f : ρ → σ) {l : List (Element ρ)}
    (h : ∀ e ∈ l, (e.rename f).language callee' = e.language callee) :
    unionLanguage callee' (renameAll f l) = unionLanguage callee l := by
  induction l with
  | nil => rfl
  | cons e r ih =>
    rw [renameAll, unionLanguage, unionLanguage, h e (List.mem_cons_self ..),
      ih fun e he => h e (List.mem_cons_of_mem _ he)]

/-- A body means the same by any other names of its calls. -/
theorem language_rename {callee : ρ → Language String} {callee' : σ → Language String}
    {known : ρ → Prop} (f : ρ → σ) (hf : ∀ r, known r → callee' (f r) = callee r) (e : Element ρ)
    (he : e.Within known) : (e.rename f).language callee' = e.language callee := by
  induction e using Element.induction with
  | token names => rfl
  | call r => exact hf r he
  | guard text => rfl
  | empty => rfl
  | unknown => rfl
  | sequence items ih =>
    exact productLanguage_congr f fun e h => ih e h (allWithin_iff.1 he e h)
  | choice options ih =>
    exact unionLanguage_congr f fun e h => ih e h (allWithin_iff.1 he e h)
  | star body ih => simp only [Element.rename, Element.language, ih he]
  | plus body ih => simp only [Element.rename, Element.language, ih he]
  | option body ih => simp only [Element.rename, Element.language, ih he]

theorem within_rename {known : ρ → Prop} {known' : σ → Prop} (f : ρ → σ)
    (hf : ∀ r, known r → known' (f r)) (e : Element ρ) (he : e.Within known) :
    (e.rename f).Within known' := by
  have hall : ∀ l : List (Element ρ), (∀ e ∈ l, e.Within known → (e.rename f).Within known') →
      AllWithin known l → AllWithin known' (renameAll f l) := by
    intro l hl h
    rw [renameAll_eq_map, allWithin_iff]
    rintro _ h'
    obtain ⟨e, he, rfl⟩ := List.mem_map.1 h'
    exact hl e he (allWithin_iff.1 h e he)
  induction e using Element.induction with
  | token names => trivial
  | call r => exact hf r he
  | guard text => trivial
  | empty => trivial
  | unknown => exact he
  | sequence items ih => exact hall items ih he
  | choice options ih => exact hall options ih he
  | star body ih => exact ih he
  | plus body ih => exact ih he
  | option body ih => exact ih he

/-- Larger languages of the callees give a larger language. -/
theorem language_mono {callee callee' : ρ → Language String} (h : callee ≤ callee') (e : Element ρ) :
    e.language callee ≤ e.language callee' := by
  induction e using Element.induction with
  | token names => exact le_refl _
  | call r => exact h r
  | guard text => exact le_refl _
  | empty => exact le_refl _
  | unknown => exact le_refl _
  | sequence items ih =>
    simp only [Element.language]
    induction items with
    | nil => exact le_refl _
    | cons e r ihr =>
      exact mul_le_mul' (ih e (List.mem_cons_self ..))
        (ihr fun e he => ih e (List.mem_cons_of_mem _ he))
  | choice options ih =>
    simp only [Element.language]
    induction options with
    | nil => exact le_refl _
    | cons e r ihr =>
      exact add_le_add (ih e (List.mem_cons_self ..))
        (ihr fun e he => ih e (List.mem_cons_of_mem _ he))
  | star body ih => exact kstar_mono ih
  | plus body ih => exact mul_le_mul' ih (kstar_mono ih)
  | option body ih => exact add_le_add (le_refl _) ih

end Element

/-- The language that a declaration gives to its rule: that of its body, or its one terminal. -/
def Declaration.language (callee : String → Language String) (d : Declaration) : Language String :=
  match d.body with
  | some body => body.language callee
  | none => {[Builder.terminalText d]}

namespace Builder

def declaration? (b : Builder) (name : String) : Option Declaration :=
  b.rules.find? fun d => d.name == name

/-- The right-hand sides of the equations that the declarations are. -/
def equations (b : Builder) : (String → Language String) →o (String → Language String) where
  toFun callee name := (b.declaration? name).elim 0 (Declaration.language callee)
  monotone' callee callee' h name := by
    simp only
    cases b.declaration? name with
    | none => exact le_refl _
    | some d =>
      simp only [Option.elim, Declaration.language]
      split
      · exact language_mono h _
      · exact le_refl _

/-- The language of a declared rule, by the least solution of the equations. -/
def language (b : Builder) : String → Language String := OrderHom.lfp b.equations

theorem language_eq {b : Builder} {name : String} {d : Declaration}
    (h : b.declaration? name = some d) : b.language name = d.language b.language := by
  have := congrFun (OrderHom.map_lfp b.equations) name
  simp only [equations, OrderHom.coe_mk, h, Option.elim] at this
  exact this.symm

end Builder

end RuleNetwork
