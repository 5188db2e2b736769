import Mathlib.Algebra.GroupWithZero.Nat
import Mathlib.Data.List.Induction
import Mathlib.Data.List.Nodup
import Mathlib.Data.List.Perm.Subperm
import RuleNetwork.Container.OrderedMap
import RuleNetwork.Container.OrderedSet
import Std.Data.HashMap.Lemmas

/-!
Containers as lists: ordered sets are lists without duplicates that grow at the end, ordered maps look
up the one entry of a key, and a hash map that is filled from a list holds its entries. A map that is
filled by adding to what is held for a key holds what the things with that key add up to. Some facts on
lists without duplicates come with them.
-/

set_option autoImplicit false

namespace RuleNetwork

/-- Where all keys differ, the entry that is found by a key is the one with that key. -/
theorem find?_eq_some_iff_of_nodup {α κ : Type} {key : α → κ} {l : List α} (h : (l.map key).Nodup)
    {p : α → Bool} {k : κ} (hp : ∀ a, p a = true ↔ key a = k) {a : α} :
    l.find? p = some a ↔ a ∈ l ∧ key a = k := by
  constructor
  · exact fun hfind => ⟨List.mem_of_find?_eq_some hfind, (hp a).1 (List.find?_some hfind)⟩
  · rintro ⟨ha, hk⟩
    obtain ⟨b, hfind⟩ := Option.isSome_iff_exists.1 (List.find?_isSome.2 ⟨a, ha, (hp a).2 hk⟩)
    have hb := (hp b).1 (List.find?_some hfind)
    rw [hfind, List.inj_on_of_nodup_map h (List.mem_of_find?_eq_some hfind) ha (hb.trans hk.symm)]

namespace OrderedSet

section Lookup

variable {α : Type} [BEq α] [Hashable α] (s : OrderedSet α)

theorem get?_eq (i : Nat) : s.get? i = s.toList[i]? := by
  simp [get?, toList]

@[simp] theorem contains_empty [LawfulBEq α] (a : α) : (∅ : OrderedSet α).contains a = false :=
  Bool.eq_false_iff.2 fun h => List.not_mem_nil ((contains_iff _ _).1 h)

theorem isEmpty_iff : s.isEmpty = true ↔ s.toList = [] := by
  simp [isEmpty, toList]

theorem length_le {univ : List α} (h : ∀ a ∈ s.toList, a ∈ univ) :
    s.toList.length ≤ univ.length :=
  (s.nodup_toList.subperm h).length_le

end Lookup

section Insert

variable {α : Type} [BEq α] [Hashable α] [LawfulBEq α] (s : OrderedSet α)

theorem prefix_insert (a : α) : s.toList <+: (s.insert a).toList := by
  rw [toList_insert]
  split
  · exact List.prefix_rfl
  · exact List.prefix_append _ _

theorem insertAll_append (l r : List α) : s.insertAll (l ++ r) = (s.insertAll l).insertAll r :=
  List.foldl_append

theorem toList_ofList_singleton (a : α) : (ofList [a]).toList = [a] :=
  toList_insert_of_not_mem List.not_mem_nil

theorem toList_ofList_append_singleton (l : List α) (a : α) :
    (ofList (l ++ [a])).toList = if a ∈ l then (ofList l).toList else (ofList l).toList ++ [a] := by
  unfold ofList
  rw [insertAll_append, insertAll_cons, insertAll_nil, toList_insert, ← ofList]
  simp only [mem_toList_ofList]

theorem toList_ofList {l : List α} (h : l.Nodup) : (ofList l).toList = l := by
  induction l using List.reverseRecOn with
  | nil => rfl
  | append_singleton l a ih =>
    obtain ⟨hl, -, hne⟩ := List.nodup_append.1 h
    rw [toList_ofList_append_singleton, ih hl,
      if_neg fun ha => hne a ha a (List.mem_singleton_self a) rfl]

theorem prefix_insertAll (l : List α) : s.toList <+: (s.insertAll l).toList := by
  induction l generalizing s with
  | nil => exact List.prefix_rfl
  | cons a l ih => exact (s.prefix_insert a).trans (ih _)

end Insert

end OrderedSet

namespace Entries

variable {α β : Type} [DecidableEq α]

theorem put_of_not_mem {k : α} {v : β} {l : List (α × β)} (h : k ∉ l.map Prod.fst) :
    put k v l = l ++ [(k, v)] := by
  induction l with
  | nil => rfl
  | cons e l ih =>
    rw [List.map_cons, List.mem_cons, not_or] at h
    rw [put, if_neg (Ne.symm h.1), ih h.2, List.cons_append]

/-- Where one entry is replaced, the rest adds up as before. -/
theorem sum_put (f : β → Nat) (k : α) (v : β) (l : List (α × β)) :
    ((put k v l).map fun e => f e.2).sum +
        ((l.find? fun e => decide (e.1 = k)).map fun e => f e.2).getD 0 =
      (l.map fun e => f e.2).sum + f v := by
  induction l with
  | nil => simp [put]
  | cons e l ih =>
    by_cases h : e.1 = k
    · simp [put, h]
      omega
    · simp [put, h]
      omega

end Entries

namespace OrderedMap

variable {α β : Type} [DecidableEq α]

theorem sum_values_put (m : OrderedMap α β) (f : β → Nat) (k : α) (v : β) :
    ((m.put k v).values.map f).sum + ((m.get? k).map f).getD 0 = (m.values.map f).sum + f v := by
  have hsum := Entries.sum_put f k v m.entries
  simpa only [values, put, get?, List.map_map, Function.comp_def, Option.map_map] using hsum

theorem ofList_append_singleton (l : List (α × β)) (e : α × β) :
    ofList (l ++ [e]) = (ofList l).put e.1 e.2 := by
  rw [ofList, List.foldl_append, List.foldl_cons, List.foldl_nil, ← ofList]

theorem entries_put (m : OrderedMap α β) (k : α) (v : β) :
    (m.put k v).entries = Entries.put k v m.entries := rfl

theorem entries_ofList {l : List (α × β)} (h : (l.map Prod.fst).Nodup) : (ofList l).entries = l := by
  induction l using List.reverseRecOn with
  | nil => rfl
  | append_singleton l e ih =>
    rw [List.map_append, List.nodup_append] at h
    rw [ofList_append_singleton, entries_put, ih h.1]
    exact Entries.put_of_not_mem fun he => h.2.2 _ he _ (List.mem_singleton_self _) rfl

theorem get?_eq_some_iff (m : OrderedMap α β) {k : α} {v : β} :
    m.get? k = some v ↔ (k, v) ∈ m.entries := by
  unfold get?
  simp only [Option.map_eq_some_iff,
    find?_eq_some_iff_of_nodup m.nodup fun _ => decide_eq_true_iff]
  constructor
  · rintro ⟨e, ⟨he, rfl⟩, rfl⟩
    exact he
  · exact fun h => ⟨(k, v), ⟨h, rfl⟩, rfl⟩

theorem mem_keys_iff (m : OrderedMap α β) {k : α} : k ∈ m.keys ↔ ∃ v, m.get? k = some v := by
  simp only [keys, List.mem_map, get?_eq_some_iff, Prod.exists]
  constructor
  · rintro ⟨_, v, hv, rfl⟩
    exact ⟨v, hv⟩
  · rintro ⟨v, hv⟩
    exact ⟨k, v, hv, rfl⟩

theorem mem_keys_put (m : OrderedMap α β) (k : α) (v : β) {j : α} :
    j ∈ (m.put k v).keys ↔ j ∈ m.keys ∨ j = k := by
  rw [keys_put]
  split
  · rename_i hk
    exact ⟨.inl, fun h => h.elim id fun h => h ▸ hk⟩
  · rw [List.mem_append, List.mem_singleton]

/-- A look-up by way of a value for keys that are not there. -/
theorem get?_eq_ite (m : OrderedMap α β) (k : α) (v : β) :
    m.get? k = if k ∈ m.keys then some ((m.get? k).getD v) else none := by
  split
  · rename_i hk
    obtain ⟨u, hu⟩ := m.mem_keys_iff.1 hk
    rw [hu]
    rfl
  · rename_i hk
    exact Option.eq_none_iff_forall_ne_some.2 fun u hu => hk (m.mem_keys_iff.2 ⟨u, hu⟩)

section Grouping

variable {γ : Type} {key : γ → α} {usual : α → β} {add : β → γ → β}
  {step : OrderedMap α β → γ → OrderedMap α β}

/-- A step that adds a thing to what is held for its key, or to what is usual for a key that is new. -/
def Groups (key : γ → α) (usual : α → β) (add : β → γ → β)
    (step : OrderedMap α β → γ → OrderedMap α β) : Prop :=
  ∀ m c, step m c = m.put (key c) (add ((m.get? (key c)).getD (usual (key c))) c)

theorem Groups.mem_keys_foldl (h : Groups key usual add step) (l : List γ) (m : OrderedMap α β) {k : α} :
    k ∈ (l.foldl step m).keys ↔ k ∈ m.keys ∨ k ∈ l.map key := by
  induction l generalizing m with
  | nil => simp
  | cons c l ih => rw [List.foldl_cons, ih, h, mem_keys_put, List.map_cons, List.mem_cons, or_assoc]

/-- What is held for a key is made of the things with that key, one after the other. -/
theorem Groups.getD_foldl (h : Groups key usual add step) (l : List γ) (m : OrderedMap α β) (k : α) :
    ((l.foldl step m).get? k).getD (usual k) =
      (l.filter fun c => key c = k).foldl add ((m.get? k).getD (usual k)) := by
  induction l generalizing m with
  | nil => rfl
  | cons c l ih =>
    rw [List.foldl_cons, ih, h, get?_put, List.filter_cons]
    by_cases hc : key c = k
    · subst hc
      simp only [if_true, decide_true, Option.getD_some, List.foldl_cons]
    · simp only [hc, if_false, decide_false, Bool.false_eq_true]

theorem Groups.get?_foldl_empty (h : Groups key usual add step) (l : List γ) (k : α) :
    (l.foldl step ∅).get? k =
      if k ∈ l.map key then some ((l.filter fun c => key c = k).foldl add (usual k)) else none := by
  rw [get?_eq_ite _ k (usual k), h.getD_foldl]
  exact if_congr ((h.mem_keys_foldl l ∅).trans (or_iff_right List.not_mem_nil)) rfl rfl

end Grouping

/-- A map listed from entries that agree where they share a key. -/
theorem get?_ofList_iff {l : List (α × β)} (h : ∀ e ∈ l, ∀ d ∈ l, e.1 = d.1 → e.2 = d.2) {k : α}
    {v : β} : (ofList l).get? k = some v ↔ (k, v) ∈ l := by
  induction l using List.reverseRecOn with
  | nil => exact ⟨(nomatch ·), fun hv => absurd hv List.not_mem_nil⟩
  | append_singleton l e ih =>
    have hl : ∀ a ∈ l, ∀ b ∈ l, a.1 = b.1 → a.2 = b.2 := fun a ha b hb =>
      h a (List.mem_append_left _ ha) b (List.mem_append_left _ hb)
    rw [ofList_append_singleton, get?_put, List.mem_append, List.mem_singleton]
    split
    · rename_i hk
      subst hk
      constructor
      · intro hv
        cases hv
        exact .inr rfl
      · rintro (hv | hv)
        · exact congrArg some (h e (by simp) _ (List.mem_append_left _ hv) rfl)
        · rw [← hv]
    · rename_i hk
      rw [ih hl]
      refine ⟨.inl, fun hv => hv.resolve_right ?_⟩
      rintro rfl
      exact hk rfl

end OrderedMap

/-- A map filled from entries that agree where they share a key. -/
theorem getElem?_foldl_insert_iff {α β γ : Type} [BEq α] [LawfulBEq α] [Hashable α] {f : γ → α}
    {w : γ → β} {l : List γ} (h : ∀ c ∈ l, ∀ d ∈ l, f c = f d → w c = w d) {k : α}
    {v : β} :
    (l.foldl (fun m c => m.insert (f c) (w c)) (∅ : Std.HashMap α β))[k]? = some v ↔
      ∃ c ∈ l, f c = k ∧ w c = v := by
  induction l using List.reverseRecOn with
  | nil => simp
  | append_singleton l c ih =>
    have hl : ∀ a ∈ l, ∀ b ∈ l, f a = f b → w a = w b := fun a ha b hb =>
      h a (List.mem_append_left _ ha) b (List.mem_append_left _ hb)
    rw [List.foldl_append, List.foldl_cons, List.foldl_nil, Std.HashMap.getElem?_insert]
    split
    · rename_i hk
      have hk : f c = k := by simpa using hk
      constructor
      · intro hv
        exact ⟨c, by simp, hk, Option.some.inj hv⟩
      · rintro ⟨d, hd, hdk, rfl⟩
        exact congrArg some (h c (by simp) d hd (hk.trans hdk.symm))
    · rename_i hk
      have hk : ¬ f c = k := by simpa using hk
      rw [ih hl]
      constructor
      · rintro ⟨d, hd, hdk⟩
        exact ⟨d, List.mem_append_left _ hd, hdk⟩
      · rintro ⟨d, hd, hdk, hv⟩
        obtain hd | hd := List.mem_append.1 hd
        · exact ⟨d, hd, hdk, hv⟩
        · rw [List.mem_singleton.1 hd] at hdk
          exact absurd hdk hk

theorem nodup_eraseDups {α : Type} [BEq α] [LawfulBEq α] (l : List α) : l.eraseDups.Nodup := by
  induction hlen : l.length using Nat.strongRecOn generalizing l with
  | ind len ih =>
    cases l with
    | nil => simp
    | cons a l =>
      rw [List.eraseDups_cons, List.nodup_cons]
      refine ⟨?_, ih _ ?_ _ rfl⟩
      · rw [List.mem_eraseDups, List.mem_filter]
        simp
      · have := List.length_filter_le (fun b => !b == a) l
        rw [← hlen, List.length_cons]
        omega

theorem two_le_length_iff {α : Type} {l : List α} (h : l.Nodup) {a : α} (ha : a ∈ l) :
    2 ≤ l.length ↔ ∃ b ∈ l, b ≠ a := by
  obtain ⟨l₁, l₂, rfl⟩ := List.append_of_mem ha
  have hperm : (l₁ ++ a :: l₂).Perm (a :: (l₁ ++ l₂)) := List.perm_middle
  have hnot := (List.nodup_cons.1 (hperm.nodup_iff.1 h)).1
  rw [hperm.length_eq, List.length_cons]
  constructor
  · intro hlen
    obtain ⟨b, hb⟩ := List.exists_mem_of_length_pos (l := l₁ ++ l₂) (by omega)
    exact ⟨b, hperm.mem_iff.2 (List.mem_cons_of_mem _ hb), fun hba => hnot (hba ▸ hb)⟩
  · rintro ⟨b, hb, hne⟩
    have hb := (List.mem_cons.1 (hperm.mem_iff.1 hb)).resolve_left hne
    have := List.length_pos_of_mem hb
    omega

end RuleNetwork
