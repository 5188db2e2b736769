import Mathlib.Data.List.Forall2

/-!
Work that may fail. What is known of work that has not failed: each of its steps has a result.
-/

set_option autoImplicit false

namespace RuleNetwork

variable {ε α β : Type}

theorem bind_eq_ok {x : Except ε α} {f : α → Except ε β} {b : β} :
    (x >>= f) = .ok b ↔ ∃ a, x = .ok a ∧ f a = .ok b := by
  cases x with
  | error e =>
    constructor
    · intro h; cases h
    · rintro ⟨a, h, -⟩; cases h
  | ok a =>
    constructor
    · exact fun h => ⟨a, rfl, h⟩
    · rintro ⟨a', h, hf⟩
      cases h
      exact hf

theorem exists_bind {x : Except ε α} {f : α → Except ε β} {P : β → Prop} {a : α} (hx : x = .ok a)
    (hf : ∃ b, f a = .ok b ∧ P b) : ∃ b, (x >>= f) = .ok b ∧ P b := by
  obtain ⟨b, hb, hP⟩ := hf
  exact ⟨b, bind_eq_ok.2 ⟨a, hx, hb⟩, hP⟩

theorem pure_eq_ok {a b : α} : (pure a : Except ε α) = .ok b ↔ a = b :=
  ⟨fun h => by cases h; rfl, fun h => by rw [h]; rfl⟩

theorem toOption_eq_some {x : Except ε α} {a : α} : x.toOption = some a ↔ x = .ok a := by
  cases x <;> simp [Except.toOption]

theorem mapM_cons_eq_ok {f : α → Except ε β} {a : α} {l : List α} {r : List β} :
    (a :: l).mapM f = .ok r ↔ ∃ b q, f a = .ok b ∧ l.mapM f = .ok q ∧ r = b :: q := by
  rw [List.mapM_cons, bind_eq_ok]
  constructor
  · rintro ⟨b, hb, h⟩
    obtain ⟨q, hq, h⟩ := bind_eq_ok.1 h
    exact ⟨b, q, hb, hq, (pure_eq_ok.1 h).symm⟩
  · rintro ⟨b, q, hb, hq, rfl⟩
    exact ⟨b, hb, bind_eq_ok.2 ⟨q, hq, rfl⟩⟩

theorem mapM_append_eq_ok {f : α → Except ε β} {l m : List α} {r : List β} :
    (l ++ m).mapM f = .ok r ↔ ∃ p q, l.mapM f = .ok p ∧ m.mapM f = .ok q ∧ r = p ++ q := by
  rw [List.mapM_append, bind_eq_ok]
  constructor
  · rintro ⟨p, hp, h⟩
    obtain ⟨q, hq, h⟩ := bind_eq_ok.1 h
    exact ⟨p, q, hp, hq, (pure_eq_ok.1 h).symm⟩
  · rintro ⟨p, q, hp, hq, rfl⟩
    exact ⟨p, hp, bind_eq_ok.2 ⟨q, hq, rfl⟩⟩

theorem mapM_eq_ok {f : α → Except ε β} {l : List α} {r : List β} :
    l.mapM f = .ok r ↔ List.Forall₂ (fun a b => f a = .ok b) l r := by
  induction l generalizing r with
  | nil =>
    rw [List.mapM_nil, pure_eq_ok, List.forall₂_nil_left_iff]
    exact eq_comm
  | cons a l ih =>
    rw [mapM_cons_eq_ok, List.forall₂_cons_left_iff]
    simp only [ih]

theorem mem_of_mapM {f : α → Except ε β} {l : List α} {r : List β} (h : l.mapM f = .ok r) {b : β} :
    b ∈ r ↔ ∃ a ∈ l, f a = .ok b := by
  rw [mapM_eq_ok] at h
  induction h with
  | nil => simp
  | @cons a c l r hc _ ih =>
    have hcb : f a = .ok b ↔ b = c := by
      rw [hc, Except.ok.injEq, eq_comm]
    simp [ih, hcb]

/-- Each of the steps that a result is made from has one of its own. -/
theorem exists_of_mapM {f : α → Except ε β} {l : List α} {r : List β} (h : l.mapM f = .ok r) {a : α}
    (ha : a ∈ l) : ∃ b ∈ r, f a = .ok b := by
  rw [mapM_eq_ok] at h
  induction h with
  | nil => cases ha
  | @cons a' b l r hb _ ih =>
    obtain rfl | ha := List.mem_cons.1 ha
    · exact ⟨b, List.mem_cons_self .., hb⟩
    · obtain ⟨b', hb', hf⟩ := ih ha
      exact ⟨b', List.mem_cons_of_mem _ hb', hf⟩

/-- What steps take over from their entries stands in the order of the entries. -/
theorem map_eq_map_of_mapM {γ : Type} {f : α → Except ε β} (key : α → γ) (key' : β → γ) {l : List α}
    {r : List β} (h : l.mapM f = .ok r) (hf : ∀ a b, f a = .ok b → key' b = key a) :
    r.map key' = l.map key := by
  rw [mapM_eq_ok] at h
  induction h with
  | nil => rfl
  | @cons a b l r hab _ ih => rw [List.map_cons, List.map_cons, hf a b hab, ih]

theorem mem_zip_of_mapM {f : α → Except ε β} {l : List α} {r : List β} (h : l.mapM f = .ok r) {a : α}
    {b : β} (ha : a ∈ l) (hb : f a = .ok b) : (a, b) ∈ l.zip r := by
  rw [mapM_eq_ok] at h
  induction h with
  | nil => cases ha
  | @cons a' c l r hc _ ih =>
    rw [List.zip_cons_cons]
    obtain rfl | ha := List.mem_cons.1 ha
    · rw [hb] at hc
      cases hc
      exact List.mem_cons_self ..
    · exact List.mem_cons_of_mem _ (ih ha)

theorem exists_mapM {f : α → Except ε β} {l : List α} (h : ∀ a ∈ l, ∃ b, f a = .ok b) :
    ∃ r, l.mapM f = .ok r := by
  induction l with
  | nil => exact ⟨[], rfl⟩
  | cons a l ih =>
    obtain ⟨b, hb⟩ := h a (List.mem_cons_self ..)
    obtain ⟨r, hr⟩ := ih fun a ha => h a (List.mem_cons_of_mem _ ha)
    exact ⟨b :: r, mapM_eq_ok.2 (.cons hb (mapM_eq_ok.1 hr))⟩

/-- What follows on steps none of which fails, where each result is related to its step. -/
theorem exists_bind_mapM {γ : Type} (Q : α → β → Prop) {f : α → Except ε β}
    {g : List β → Except ε γ} {P : γ → Prop} {l : List α} (h : ∀ a ∈ l, ∃ b, f a = .ok b ∧ Q a b)
    (hg : ∀ r, (∀ b ∈ r, ∃ a ∈ l, Q a b) → (∀ a ∈ l, ∃ b ∈ r, Q a b) → ∃ c, g r = .ok c ∧ P c) :
    ∃ c, (l.mapM f >>= g) = .ok c ∧ P c := by
  obtain ⟨r, hr⟩ := exists_mapM fun a ha => (h a ha).imp fun _ hb => hb.1
  refine exists_bind hr (hg r (fun b hb => ?_) fun a ha => ?_)
  · obtain ⟨a, ha, hab⟩ := (mem_of_mapM hr).1 hb
    obtain ⟨b', hb', hQ⟩ := h a ha
    rw [hab] at hb'
    cases hb'
    exact ⟨a, ha, hQ⟩
  · obtain ⟨b, hb, hQ⟩ := h a ha
    exact ⟨b, (mem_of_mapM hr).2 ⟨a, ha, hb⟩, hQ⟩

/-- Steps that each may leave something, for those that a test selects. -/
theorem mem_filterMap_of_mapM {p : α → Except ε Bool} {f : α → Except ε β} {l : List α}
    {r : List (Option β)} (h : (l.mapM fun a => do
      if ← p a then return some (← f a)
      return none) = .ok r) {b : β} :
    b ∈ r.filterMap id ↔ ∃ a ∈ l, p a = .ok true ∧ f a = .ok b := by
  simp only [List.mem_filterMap, id, exists_eq_right, mem_of_mapM h]
  refine exists_congr fun a => and_congr_right fun _ => ?_
  rw [bind_eq_ok]
  constructor
  · rintro ⟨flag, hp, hf⟩
    cases flag with
    | false => cases hf
    | true =>
      obtain ⟨b', hf, heq⟩ := bind_eq_ok.1 hf
      cases heq
      exact ⟨hp, hf⟩
  · rintro ⟨hp, hf⟩
    exact ⟨true, hp, bind_eq_ok.2 ⟨b, hf, rfl⟩⟩

theorem mapM_eq_map {f : α → Except ε β} {g : α → β} {l : List α} (h : ∀ a ∈ l, f a = .ok (g a)) :
    l.mapM f = .ok (l.map g) := by
  induction l with
  | nil => rfl
  | cons a l ih =>
    rw [List.mapM_cons, h a (List.mem_cons_self ..), ih fun a ha => h a (List.mem_cons_of_mem _ ha)]
    rfl

theorem filterM_eq_filter {p : α → Except ε Bool} {q : α → Bool} {l : List α}
    (h : ∀ a ∈ l, p a = .ok (q a)) : l.filterM p = .ok (l.filter q) := by
  have key : ∀ acc, l.filterAuxM p acc = (.ok ((l.filter q).reverse ++ acc) : Except ε (List α)) := by
    induction l with
    | nil => exact fun acc => rfl
    | cons a l ih =>
      intro acc
      rw [List.filterAuxM, h a (List.mem_cons_self ..)]
      have hl := ih fun a ha => h a (List.mem_cons_of_mem _ ha)
      cases hq : q a <;> simp [bind, Except.bind, hl, hq]
  unfold List.filterM
  rw [key []]
  simp [bind, Except.bind, pure, Except.pure]

/-- A filter whose test never fails and tells whether a property holds. -/
theorem exists_filterM {p : α → Except ε Bool} {P : α → Prop} {l : List α}
    (h : ∀ a ∈ l, ∃ flag, p a = .ok flag ∧ (flag = true ↔ P a)) :
    ∃ r, l.filterM p = .ok r ∧ ∀ a, a ∈ r ↔ a ∈ l ∧ P a := by
  have hp : ∀ a ∈ l, p a = .ok ((p a).toOption.getD false) := fun a ha => by
    obtain ⟨flag, hf, -⟩ := h a ha
    rw [hf]
    rfl
  refine ⟨_, filterM_eq_filter hp, fun a => List.mem_filter.trans (and_congr_right fun ha => ?_)⟩
  obtain ⟨flag, hf, hiff⟩ := h a ha
  rw [hf]
  exact hiff

/-- Work done one after the other on what has been gathered so far. -/
theorem foldlM_cons_eq_ok {f : β → α → Except ε β} {a : α} {l : List α} {b c : β} :
    (a :: l).foldlM f b = .ok c ↔ ∃ d, f b a = .ok d ∧ l.foldlM f d = .ok c := by
  rw [List.foldlM_cons, bind_eq_ok]

theorem foldlM_eq_foldl {f : β → α → Except ε β} {g : β → α → β} {l : List α} {b : β}
    (h : ∀ b, ∀ a ∈ l, f b a = .ok (g b a)) : l.foldlM f b = .ok (l.foldl g b) := by
  induction l generalizing b with
  | nil => rfl
  | cons a l ih =>
    exact foldlM_cons_eq_ok.2 ⟨g b a, h b a (List.mem_cons_self ..),
      ih fun b a ha => h b a (List.mem_cons_of_mem _ ha)⟩

theorem exists_foldlM {f : β → α → Except ε β} {l : List α} (h : ∀ a ∈ l, ∀ b, ∃ c, f b a = .ok c)
    (b : β) : ∃ c, l.foldlM f b = .ok c := by
  induction l generalizing b with
  | nil => exact ⟨b, rfl⟩
  | cons a l ih =>
    obtain ⟨d, hd⟩ := h a (List.mem_cons_self ..) b
    obtain ⟨c, hc⟩ := ih (fun a ha => h a (List.mem_cons_of_mem _ ha)) d
    exact ⟨c, foldlM_cons_eq_ok.2 ⟨d, hd, hc⟩⟩

end RuleNetwork
