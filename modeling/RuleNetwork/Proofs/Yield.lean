import RuleNetwork.Proofs.Attempt

/-!
Work that does not fail, with what is known of its result. The steps are put together as the work is:
one after the other, once for each entry of a list, or over and over on what has been gathered.
-/

set_option autoImplicit false

namespace RuleNetwork

variable {ε α β : Type}

/-- Steps that fail together fail for one of them. -/
theorem exists_error_of_mapM {f : α → Except ε β} {l : List α} {e : ε} (h : l.mapM f = .error e) :
    ∃ a ∈ l, f a = .error e := by
  by_contra hnone
  induction l with
  | nil => cases h
  | cons a l ih =>
    rw [List.mapM_cons] at h
    cases ha : f a with
    | error e' =>
      rw [ha] at h
      cases h
      exact hnone ⟨a, List.mem_cons_self .., ha⟩
    | ok b =>
      rw [ha] at h
      cases hl : l.mapM f with
      | error e' =>
        have heq : e' = e := by
          simpa [bind, Except.bind, hl] using h
        exact ih (heq ▸ hl) fun ⟨a, ha, he⟩ => hnone ⟨a, List.mem_cons_of_mem _ ha, he⟩
      | ok r => simp [bind, Except.bind, hl, pure, Except.pure] at h

/-- The work has a result, and this is known of it. -/
def Yields (x : Except ε α) (P : α → Prop) : Prop := ∃ a, x = .ok a ∧ P a

namespace Yields

variable {x : Except ε α} {P Q : α → Prop}

theorem ok {a : α} (h : P a) : Yields (.ok a : Except ε α) P := ⟨a, rfl, h⟩

theorem of_ok {a : α} (hx : x = .ok a) (h : P a) : Yields x P := ⟨a, hx, h⟩

theorem mono (h : Yields x P) (hPQ : ∀ a, P a → Q a) : Yields x Q := by
  obtain ⟨a, hx, ha⟩ := h
  exact ⟨a, hx, hPQ a ha⟩

theorem result (h : Yields x P) : ∃ a, x = .ok a := by
  obtain ⟨a, hx, -⟩ := h
  exact ⟨a, hx⟩

theorem of_eq {a : α} (h : Yields x P) (hx : x = .ok a) : P a := by
  obtain ⟨a', hx', ha⟩ := h
  rw [hx] at hx'
  cases hx'
  exact ha

theorem bind {f : α → Except ε β} {R : β → Prop} (h : Yields x P)
    (hf : ∀ a, P a → Yields (f a) R) : Yields (x >>= f) R := by
  obtain ⟨a, hx, ha⟩ := h
  exact exists_bind hx (hf a ha)

theorem ite {c : Prop} [Decidable c] {y : Except ε α} (hx : c → Yields x P)
    (hy : ¬ c → Yields y P) : Yields (if c then x else y) P := by
  split
  · exact hx ‹_›
  · exact hy ‹_›

theorem mapM {f : α → Except ε β} {l : List α} {R : α → β → Prop}
    (h : ∀ a ∈ l, Yields (f a) (R a)) : Yields (l.mapM f) fun r => ∀ b ∈ r, ∃ a ∈ l, R a b := by
  obtain ⟨r, hr⟩ := exists_mapM fun a ha => (h a ha).result
  refine ⟨r, hr, fun b hb => ?_⟩
  obtain ⟨a, ha, hab⟩ := (mem_of_mapM hr).1 hb
  exact ⟨a, ha, (h a ha).of_eq hab⟩

/-- Every result of steps that all yield the same is of that kind. -/
theorem mapM_all {f : α → Except ε β} {l : List α} {R : β → Prop}
    (h : ∀ a ∈ l, Yields (f a) R) : Yields (l.mapM f) fun r => ∀ b ∈ r, R b :=
  (mapM h).mono fun _ hr b hb => by
    obtain ⟨_, -, h⟩ := hr b hb
    exact h

theorem filterM {p : α → Except ε Bool} {l : List α} (h : ∀ a ∈ l, Yields (p a) fun _ => True) :
    Yields (l.filterM p) fun r => ∀ a ∈ r, a ∈ l := by
  obtain ⟨r, hr, hmem⟩ := exists_filterM (P := fun a => p a = .ok true) (l := l) fun a ha => by
    obtain ⟨b, hb, -⟩ := h a ha
    exact ⟨b, hb, by rw [hb, Except.ok.injEq]⟩
  exact ⟨r, hr, fun a ha => ((hmem a).1 ha).1⟩

theorem forM {f : α → Except ε PUnit} {l : List α} (h : ∀ a ∈ l, Yields (f a) fun _ => True) :
    Yields (l.forM f) fun _ => True := by
  induction l with
  | nil => exact .ok trivial
  | cons a l ih =>
    exact (h a (List.mem_cons_self ..)).bind fun _ _ => ih fun a ha => h a (List.mem_cons_of_mem _ ha)

/-- What each step keeps is known in the end. -/
theorem foldlM {f : β → α → Except ε β} {l : List α} {R : β → Prop} {b : β} (hb : R b)
    (h : ∀ a ∈ l, ∀ b, R b → Yields (f b a) R) : Yields (l.foldlM f b) R := by
  induction l generalizing b with
  | nil => exact .ok hb
  | cons a l ih =>
    rw [List.foldlM_cons]
    exact (h a (List.mem_cons_self ..) b hb).bind fun c hc =>
      ih hc fun a ha => h a (List.mem_cons_of_mem _ ha)

end Yields

end RuleNetwork
