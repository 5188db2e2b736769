import Mathlib.Algebra.GroupWithZero.Nat
import Mathlib.Algebra.Order.BigOperators.Group.List
import Mathlib.Algebra.Order.Group.Nat
import Mathlib.Data.List.Induction
import RuleNetwork.Lookahead.Inclusions
import RuleNetwork.Proofs.Container

/-!
A system of inclusions is solved by the least table above the given one. A round adds nothing that the
system does not want, and it keeps on adding until every inclusion holds; what it can add is
bounded by the names that occur at all.
-/

set_option autoImplicit false

namespace RuleNetwork

namespace OrderedSet

variable {α : Type} [BEq α] [Hashable α] [LawfulBEq α] (s : OrderedSet α)

theorem size_le_insertAll (l : List α) : s.size ≤ (s.insertAll l).size :=
  (s.prefix_insertAll l).length_le

/-- A set that does not grow held all before. -/
theorem mem_of_size_insertAll_le {l : List α} (h : (s.insertAll l).size ≤ s.size) {a : α}
    (ha : a ∈ l) : a ∈ s.toList := by
  have heq := (s.prefix_insertAll l).eq_of_length_le h
  rw [heq]
  exact (mem_toList_insertAll _ _ _).2 (.inr ha)

end OrderedSet

namespace TokenTable

variable {t t' : TokenTable} {system : List Inclusion} {key into : Int} {x : String}

/-- The table holds the token under the key. -/
def Holds (t : TokenTable) (key : Int) (x : String) : Prop := x ∈ (t.tokens key).toList

theorem holds_add (t : TokenTable) (into : Int) (names : List String) :
    (t.add into names).Holds key x ↔ t.Holds key x ∨ into = key ∧ x ∈ names := by
  unfold Holds
  have hget := OrderedMap.get?_put t into key ((t.tokens into).insertAll names)
  have htokens : (t.add into names).tokens key =
      if into = key then (t.tokens into).insertAll names else t.tokens key := by
    change ((OrderedMap.put t into ((t.tokens into).insertAll names)).get? key).getD ∅ = _
    rw [hget]
    split <;> rfl
  rw [htokens]
  split
  · rename_i heq
    subst heq
    simp
  · rename_i hne
    simp [hne]

theorem size_add (t : TokenTable) (into : Int) (names : List String) :
    (t.add into names).size + (t.tokens into).size =
      t.size + ((t.tokens into).insertAll names).size := by
  have hsum := Entries.sum_put OrderedSet.size into ((t.tokens into).insertAll names) t.entries
  have hget : ((t.entries.find? fun e => decide (e.1 = into)).map fun e => e.2.size).getD 0 =
      (t.tokens into).size := by
    unfold tokens OrderedMap.get?
    cases t.entries.find? fun e => decide (e.1 = into) <;> rfl
  rw [hget] at hsum
  exact hsum

/-- A larger table; one of the same size holds no more. -/
structure Grows (t t' : TokenTable) : Prop where
  mono : ∀ {key x}, t.Holds key x → t'.Holds key x
  size : t.size ≤ t'.size
  same : t'.size ≤ t.size → ∀ {key x}, t'.Holds key x → t.Holds key x
  keys : ∀ {key}, (OrderedMap.get? t key).isSome → (OrderedMap.get? t' key).isSome

theorem Grows.refl (t : TokenTable) : t.Grows t := ⟨id, Nat.le_refl _, fun _ => id, id⟩

theorem Grows.trans {t'' : TokenTable} (h : t.Grows t') (h' : t'.Grows t'') : t.Grows t'' where
  mono hx := h'.mono (h.mono hx)
  size := Nat.le_trans h.size h'.size
  same hle := fun hx => h.same (Nat.le_trans h'.size hle) (h'.same (Nat.le_trans hle h.size) hx)
  keys hk := h'.keys (h.keys hk)

theorem grows_add (t : TokenTable) (into : Int) (names : List String) :
    t.Grows (t.add into names) := by
  have hsize := t.size_add into names
  have hle := (t.tokens into).size_le_insertAll names
  refine ⟨fun hx => (holds_add _ _ _).2 (.inl hx), by omega, fun hsame key x hx => ?_, fun hk => ?_⟩
  · obtain hx | ⟨rfl, hn⟩ := (holds_add _ _ _).1 hx
    · exact hx
    · exact (t.tokens into).mem_of_size_insertAll_le (l := names) (by omega) hn
  · rename_i key
    change ((OrderedMap.put t into ((t.tokens into).insertAll names)).get? key).isSome
    rw [OrderedMap.get?_put]
    split
    · rfl
    · exact hk

/-- An inclusion wants a token under a key, given what a table holds. -/
def Wants (t : TokenTable) (i : Inclusion) (key : Int) (x : String) : Prop :=
  i.into = key ∧ (x ∈ i.tokens ∨ ∃ s ∈ i.sources, t.Holds s x)

theorem grows_sources (into : Int) (sources : List Int) (t : TokenTable) :
    t.Grows (sources.foldl (fun t s => t.add into (t.tokens s).toList) t) := by
  induction sources generalizing t with
  | nil => exact .refl t
  | cons s sources ih => exact (t.grows_add into _).trans (ih _)

theorem holds_sources (into : Int) (sources : List Int) (t : TokenTable) :
    (sources.foldl (fun t s => t.add into (t.tokens s).toList) t).Holds key x ↔
      t.Holds key x ∨ into = key ∧ ∃ s ∈ sources, t.Holds s x := by
  induction sources generalizing t with
  | nil => simp
  | cons s sources ih =>
    have hadd : ∀ key, (t.add into (t.tokens s).toList).Holds key x ↔
        t.Holds key x ∨ into = key ∧ t.Holds s x := fun key => holds_add t into _
    rw [List.foldl_cons, ih]
    simp only [hadd, List.mem_cons, exists_eq_or_imp]
    constructor
    · rintro ((hx | ⟨heq, hx⟩) | ⟨heq, s', hs', hx | ⟨-, hx⟩⟩)
      · exact .inl hx
      · exact .inr ⟨heq, .inl hx⟩
      · exact .inr ⟨heq, .inr ⟨s', hs', hx⟩⟩
      · exact .inr ⟨heq, .inl hx⟩
    · rintro (hx | ⟨heq, hx | ⟨s', hs', hx⟩⟩)
      · exact .inl (.inl hx)
      · exact .inl (.inr ⟨heq, hx⟩)
      · exact .inr ⟨heq, s', hs', .inl hx⟩

theorem grows_satisfy (t : TokenTable) (i : Inclusion) : t.Grows (t.satisfy i) :=
  (t.grows_add i.into i.tokens).trans (grows_sources i.into i.sources _)

theorem holds_satisfy (t : TokenTable) (i : Inclusion) :
    (t.satisfy i).Holds key x ↔ t.Holds key x ∨ t.Wants i key x := by
  unfold satisfy Wants
  simp only [holds_sources, holds_add]
  constructor
  · rintro ((hx | ⟨heq, hx⟩) | ⟨heq, s, hs, hx | ⟨-, hx⟩⟩)
    · exact .inl hx
    · exact .inr ⟨heq, .inl hx⟩
    · exact .inr ⟨heq, .inr ⟨s, hs, hx⟩⟩
    · exact .inr ⟨heq, .inl hx⟩
  · rintro (hx | ⟨heq, hx | ⟨s, hs, hx⟩⟩)
    · exact .inl (.inl hx)
    · exact .inl (.inr ⟨heq, hx⟩)
    · exact .inr ⟨heq, s, hs, .inl hx⟩

theorem grows_round (t : TokenTable) (system : List Inclusion) : t.Grows (t.round system) := by
  unfold round
  induction system generalizing t with
  | nil => exact .refl t
  | cons i system ih => exact (t.grows_satisfy i).trans (ih _)

/-- A round makes each inclusion hold of what there was before. -/
theorem holds_round_of_wants {i : Inclusion} (hi : i ∈ system) (h : t.Wants i key x) :
    (t.round system).Holds key x := by
  induction system generalizing t with
  | nil => cases hi
  | cons j system ih =>
    change (round (t.satisfy j) system).Holds key x
    obtain rfl | hi := List.mem_cons.1 hi
    · exact (grows_round _ system).mono ((holds_satisfy t i).2 (.inr h))
    · refine ih hi ⟨h.1, h.2.imp id ?_⟩
      rintro ⟨s, hs, hx⟩
      exact ⟨s, hs, (t.grows_satisfy j).mono hx⟩

/-- What the least solution above a table holds. -/
inductive Least (t : TokenTable) (system : List Inclusion) : Int → String → Prop where
  | given {key : Int} {x : String} (h : t.Holds key x) : Least t system key x
  | token {i : Inclusion} {x : String} (hi : i ∈ system) (h : x ∈ i.tokens) :
      Least t system i.into x
  | source {i : Inclusion} {s : Int} {x : String} (hi : i ∈ system) (hs : s ∈ i.sources)
      (h : Least t system s x) : Least t system i.into x

/-- A round stays below the least solution. -/
theorem least_of_round {start : TokenTable} {sub : List Inclusion} (hsub : ∀ i ∈ sub, i ∈ system)
    (ht : ∀ {key x}, t.Holds key x → Least start system key x) (h : (t.round sub).Holds key x) :
    Least start system key x := by
  induction sub generalizing t with
  | nil => exact ht h
  | cons i sub ih =>
    refine ih (t := t.satisfy i) (fun j hj => hsub j (List.mem_cons_of_mem _ hj)) ?_ h
    intro key x hx
    obtain hx | ⟨rfl, hx | ⟨s, hs, hx⟩⟩ := (holds_satisfy t i).1 hx
    · exact ht hx
    · exact .token (hsub i (List.mem_cons_self ..)) hx
    · exact .source (hsub i (List.mem_cons_self ..)) hs (ht hx)

/-- The table keeps to some keys and some names. -/
structure Within (keys : List Int) (names : List String) (t : TokenTable) : Prop where
  keys : ∀ key ∈ OrderedMap.keys t, key ∈ keys
  names : ∀ {key x}, t.Holds key x → x ∈ names

theorem holds_of_entry {e : Int × OrderedSet String} (he : e ∈ t.entries) (hx : x ∈ e.2.toList) :
    t.Holds e.1 x := by
  have hget := (OrderedMap.get?_eq_some_iff t).2 he
  unfold Holds tokens
  rw [hget]
  exact hx

theorem Within.size_le {keys : List Int} {names : List String} (h : t.Within keys names) :
    t.size ≤ keys.length * names.length := by
  have hentries : t.entries.length ≤ keys.length := by
    have hlen := (t.nodup.subperm h.keys).length_le
    rwa [List.length_map] at hlen
  have hsum : t.size ≤ t.entries.length * names.length := by
    have := List.sum_le_card_nsmul (t.entries.map fun e => e.2.size) names.length
      fun m hm => by
        obtain ⟨e, he, rfl⟩ := List.mem_map.1 hm
        exact OrderedSet.length_le _ fun a ha => h.names (holds_of_entry he ha)
    simpa [size, List.sum_eq_foldr] using this
  exact Nat.le_trans hsum (Nat.mul_le_mul_right _ hentries)

theorem Within.add {keys : List Int} {names : List String} (h : t.Within keys names)
    (hinto : into ∈ keys) {l : List String} (hl : ∀ x ∈ l, x ∈ names) :
    (t.add into l).Within keys names := by
  refine ⟨fun key hk => ?_, fun hx => ?_⟩
  · have hkeys := OrderedMap.keys_put t into ((t.tokens into).insertAll l)
    change key ∈ (OrderedMap.put t into ((t.tokens into).insertAll l)).keys at hk
    rw [hkeys] at hk
    split at hk
    · exact h.keys key hk
    · obtain hk | hk := List.mem_append.1 hk
      · exact h.keys key hk
      · rwa [List.mem_singleton.1 hk]
  · obtain hx | ⟨-, hx⟩ := (holds_add _ _ _).1 hx
    · exact h.names hx
    · exact hl _ hx

theorem Within.satisfy {keys : List Int} {names : List String} (h : t.Within keys names)
    {i : Inclusion} (hinto : i.into ∈ keys) (hi : ∀ x ∈ i.tokens, x ∈ names) :
    (t.satisfy i).Within keys names := by
  have hsources : ∀ (sources : List Int) {t : TokenTable}, t.Within keys names →
      (sources.foldl (fun t s => t.add i.into (t.tokens s).toList) t).Within keys names := by
    intro sources
    induction sources with
    | nil => exact id
    | cons s sources ih => exact fun h => ih (h.add hinto fun x hx => h.names hx)
  exact hsources i.sources (h.add hinto hi)

theorem Within.round {keys : List Int} {names : List String} (h : t.Within keys names)
    (hsystem : ∀ i ∈ system, i.into ∈ keys ∧ ∀ x ∈ i.tokens, x ∈ names) :
    (t.round system).Within keys names := by
  induction system generalizing t with
  | nil => exact h
  | cons i system ih =>
    obtain ⟨hinto, hi⟩ := hsystem i (List.mem_cons_self ..)
    exact ih (h.satisfy hinto hi) fun j hj => hsystem j (List.mem_cons_of_mem _ hj)

/-- Rounds end with a table of which the system holds. -/
theorem solveWithin_closed {keys : List Int} {names : List String}
    (hsystem : ∀ i ∈ system, i.into ∈ keys ∧ ∀ x ∈ i.tokens, x ∈ names) {bound : Nat}
    (h : t.Within keys names) (hb : keys.length * names.length < bound + t.size) {i : Inclusion}
    (hi : i ∈ system) (hx : (solveWithin system bound t).Wants i key x) :
    (solveWithin system bound t).Holds key x := by
  induction bound generalizing t with
  | zero =>
    have := h.size_le
    omega
  | succ bound ih =>
    have hgrows := t.grows_round system
    unfold solveWithin at hx ⊢
    simp only at hx ⊢
    split at hx
    · rename_i hsize
      rw [if_pos hsize]
      refine holds_round_of_wants hi ⟨hx.1, hx.2.imp id ?_⟩
      rintro ⟨s, hs, hx⟩
      exact ⟨s, hs, hgrows.same (Nat.le_of_eq hsize) hx⟩
    · rename_i hsize
      rw [if_neg hsize]
      have := hgrows.size
      exact ih (h.round hsystem) (by omega) hx

theorem grows_solveWithin (bound : Nat) (t : TokenTable) : t.Grows (solveWithin system bound t) := by
  induction bound generalizing t with
  | zero => exact .refl t
  | succ bound ih =>
    unfold solveWithin
    simp only
    split
    · exact t.grows_round system
    · exact (t.grows_round system).trans (ih _)

theorem least_of_solveWithin {start : TokenTable} (bound : Nat)
    (ht : ∀ {key x}, t.Holds key x → Least start system key x)
    (h : (solveWithin system bound t).Holds key x) : Least start system key x := by
  induction bound generalizing t with
  | zero => exact ht h
  | succ bound ih =>
    have hround : ∀ {key x}, (t.round system).Holds key x → Least start system key x :=
      fun hx => least_of_round (fun _ hi => hi) ht hx
    unfold solveWithin at h
    simp only at h
    split at h
    · exact hround h
    · exact ih hround h

theorem length_flatten_entries (t : TokenTable) :
    (t.entries.flatMap fun e => e.2.toList).length = t.size := by
  rw [List.length_flatMap]
  rfl

theorem grows_solve (t : TokenTable) (system : List Inclusion) : t.Grows (t.solve system) :=
  grows_solveWithin _ t

/-- A system is solved by what its least solution holds. -/
theorem holds_solve (t : TokenTable) (system : List Inclusion) :
    (t.solve system).Holds key x ↔ Least t system key x := by
  refine ⟨least_of_solveWithin _ .given, fun h => ?_⟩
  have hclosed : ∀ {i key x}, i ∈ system → (t.solve system).Wants i key x →
      (t.solve system).Holds key x := by
    intro i key x hi hx
    have hwithin : t.Within (OrderedMap.keys t ++ system.map Inclusion.into)
        ((t.entries.flatMap fun e => e.2.toList) ++ system.flatMap Inclusion.tokens) := by
      refine ⟨fun k hk => List.mem_append_left _ hk, fun hy => ?_⟩
      rename_i k y
      unfold Holds tokens at hy
      cases hget : OrderedMap.get? t k with
      | none =>
        rw [hget] at hy
        simp at hy
      | some s =>
        rw [hget] at hy
        exact List.mem_append_left _
          (List.mem_flatMap.2 ⟨_, (OrderedMap.get?_eq_some_iff t).1 hget, hy⟩)
    refine solveWithin_closed (fun j hj => ⟨?_, fun y hy => ?_⟩) hwithin ?_ hi hx
    · exact List.mem_append_right _ (List.mem_map_of_mem hj)
    · exact List.mem_append_right _ (List.mem_flatMap.2 ⟨j, hj, hy⟩)
    · rw [List.length_append, List.length_append, length_flatten_entries, List.length_flatMap]
      simp only [List.length_map, OrderedMap.keys, List.sum_eq_foldr]
      omega
  induction h with
  | given h => exact (t.grows_solve system).mono h
  | token hi hx => exact hclosed hi ⟨rfl, .inl hx⟩
  | source hi hs _ ih => exact hclosed hi ⟨rfl, .inr ⟨_, hs, ih⟩⟩

end TokenTable

end RuleNetwork
