import RuleNetwork.Proofs.Graph.Search

/-!
The order in which a search breadth first lists what it finds: the start, and then, member by member
of the list itself, what a step leads to and is not listed yet. So no member stands before one that is
nearer to the start.
-/

set_option autoImplicit false

namespace RuleNetwork

theorem OrderedSet.prefix_ofList_append {α : Type} [BEq α] [Hashable α] [LawfulBEq α] (l r : List α) :
    (OrderedSet.ofList l).toList <+: (OrderedSet.ofList (l ++ r)).toList := by
  unfold ofList
  rw [insertAll_append]
  exact prefix_insertAll _ r

theorem mapM_drop_of_length_le {ε α β : Type} {f : α → Except ε β} {l : List α} {i : Nat}
    (h : l.length ≤ i) : (l.drop i).mapM f = .ok [] := by
  rw [List.drop_eq_nil_iff.2 h]
  rfl

/-- Of what is listed in the order of its first place, all that stands before a member of a front part
comes in that part. -/
theorem OrderedSet.mem_front {α : Type} [BEq α] [Hashable α] [LawfulBEq α] {front rest l₁ l₂ : List α}
    {x y : α} (h : (OrderedSet.ofList (front ++ rest)).toList = l₁ ++ y :: l₂) (hy : y ∈ front)
    (hx : x ∈ l₁) : x ∈ front := by
  have hfront := prefix_ofList_append front rest
  have hnodup := (OrderedSet.ofList (front ++ rest)).nodup_toList
  rw [← mem_toList_ofList] at hy ⊢
  rw [h] at hfront hnodup
  obtain hshort | hlong := List.prefix_or_prefix_of_prefix hfront (List.prefix_append l₁ (y :: l₂))
  · have hdisjoint := (List.nodup_append.1 hnodup).2.2
    exact absurd rfl (hdisjoint y (hshort.subset hy) y (List.mem_cons_self ..))
  · exact hlong.subset hx

namespace Search

variable {α ε : Type}

/-- One node leads to another in a number of steps. -/
def InSteps (next : α → Except ε (List α)) (a : α) : Nat → α → Prop
  | 0, b => b = a
  | n + 1, b => ∃ c, InSteps next a n c ∧ Step next c b

theorem exists_inSteps_iff {next : α → Except ε (List α)} {a b : α} :
    (∃ n, InSteps next a n b) ↔ Relation.ReflTransGen (Step next) a b := by
  constructor
  · rintro ⟨n, h⟩
    induction n generalizing b with
    | zero =>
      obtain rfl : b = a := h
      exact .refl
    | succ n ih =>
      obtain ⟨c, hc, hcb⟩ := h
      exact (ih hc).tail hcb
  · intro h
    induction h with
    | refl => exact ⟨0, rfl⟩
    | tail _ hstep ih =>
      obtain ⟨n, hn⟩ := ih
      exact ⟨n + 1, _, hn, hstep⟩

variable [BEq α] [Hashable α] [LawfulBEq α]

/-- A list of all that a start leads to, each node once, in the order in which a search breadth first
comes to them. -/
structure BreadthOrder (next : α → Except ε (List α)) (start : α) (l : List α) : Prop where
  nodup : l.Nodup
  mem_iff : ∀ b, b ∈ l ↔ Relation.ReflTransGen (Step next) start b
  discovered : ∃ rows, l.mapM next = .ok rows ∧
    l = (OrderedSet.ofList (start :: rows.flatten)).toList
  /-- Whatever leads to a member leads to those before it in as many steps or fewer. -/
  nearer : l.Pairwise fun a b => ∀ n, InSteps next start n b → ∃ m ≤ n, InSteps next start m a

variable {next : α → Except ε (List α)}

theorem BreadthOrder.head? {start : α} {l : List α} (h : BreadthOrder next start l) :
    l.head? = some start := by
  obtain ⟨rows, -, hl⟩ := h.discovered
  obtain ⟨rest, hrest⟩ := OrderedSet.prefix_ofList_append [start] rows.flatten
  rw [List.singleton_append, ← hl, OrderedSet.toList_ofList_singleton] at hrest
  rw [← hrest, List.singleton_append, List.head?_cons]

theorem spread_of_length_le {bound i : Nat} {found : OrderedSet α} (h : found.toList.length ≤ i) :
    spread next bound found i = .ok found := by
  cases bound with
  | zero => rfl
  | succ bound =>
    unfold spread
    rw [OrderedSet.get?_eq, List.getElem?_eq_none h]

theorem prefix_spread {bound i : Nat} {found s : OrderedSet α} (h : spread next bound found i = .ok s) :
    found.toList <+: s.toList := by
  induction bound generalizing i found with
  | zero =>
    cases h
    exact List.prefix_rfl
  | succ bound ih =>
    unfold spread at h
    split at h
    · cases h
      exact List.prefix_rfl
    · obtain ⟨row, -, h⟩ := bind_eq_ok.1 h
      exact (found.prefix_insertAll row).trans (ih h)

/-- A search that has expanded its first nodes changes them no more. -/
theorem take_spread {bound i k : Nat} {found s : OrderedSet α}
    (h : spread next bound found i = .ok s) (hi : (found.toList.take k).length ≤ i) :
    s.toList.take k = found.toList.take k := by
  rw [List.length_take] at hi
  by_cases hk : k ≤ found.toList.length
  · obtain ⟨rest, hrest⟩ := prefix_spread h
    rw [← hrest, List.take_append_of_le_length hk]
  · rw [spread_of_length_le (by omega)] at h
    rw [Except.ok.inj h]

/-- What a search adds is what the nodes expanded lead to, in this order. -/
theorem spread_rows {univ : List α} (hu : Universe next univ) {bound i : Nat}
    {found s : OrderedSet α} (hf : ∀ a ∈ found.toList, a ∈ univ) (hb : univ.length ≤ bound + i)
    (h : spread next bound found i = .ok s) :
    ∃ rows, (s.toList.drop i).mapM next = .ok rows ∧ s = found.insertAll rows.flatten := by
  induction bound generalizing i found with
  | zero =>
    cases h
    have := OrderedSet.length_le _ hf
    exact ⟨[], mapM_drop_of_length_le (by omega), rfl⟩
  | succ bound ih =>
    unfold spread at h
    rw [OrderedSet.get?_eq] at h
    cases ha : found.toList[i]? with
    | none =>
      rw [ha] at h
      cases h
      exact ⟨[], mapM_drop_of_length_le (List.getElem?_eq_none_iff.1 ha), rfl⟩
    | some a =>
      rw [ha] at h
      obtain ⟨row, hrow, h⟩ := bind_eq_ok.1 h
      have hf' : ∀ b ∈ (found.insertAll row).toList, b ∈ univ := fun b hb => by
        obtain hb | hb := (OrderedSet.mem_toList_insertAll _ _ _).1 hb
        · exact hf b hb
        · exact hu a (hf a (List.mem_of_getElem? ha)) b ⟨row, hrow, hb⟩
      obtain ⟨rows, hrows, hs⟩ := ih hf' (by omega) h
      rw [← OrderedSet.insertAll_append] at hs
      refine ⟨row :: rows, ?_, hs⟩
      -- The node expanded keeps its place.
      have hfront := (found.prefix_insertAll row).trans (prefix_spread h)
      obtain ⟨hi, rfl⟩ := List.getElem?_eq_some_iff.1 ha
      rw [hfront.getElem hi] at hrow
      rw [List.drop_eq_getElem_cons (Nat.lt_of_lt_of_le hi hfront.length_le)]
      exact mapM_cons_eq_ok.2 ⟨row, rows, hrow, hrows, rfl⟩

/-- Among the nodes listed, those before one that is met in some steps are met in no more. By induction
on the steps: the node before the last one has a row, and what stands before this row or in it comes from
members that are no farther than that node. -/
theorem exists_inSteps_le {l : List α} {start : α} {rows : List (List α)}
    (hmem : ∀ b, b ∈ l ↔ Relation.ReflTransGen (Step next) start b) (hrows : l.mapM next = .ok rows)
    (hl : (OrderedSet.ofList (start :: rows.flatten)).toList = l) {n : Nat} {x y : α}
    {l₁ l₂ : List α} (hsplit : l = l₁ ++ y :: l₂) (hy : InSteps next start n y) (hx : x ∈ l₁) :
    ∃ m ≤ n, InSteps next start m x := by
  induction n generalizing x y l₁ l₂ with
  | zero =>
    obtain rfl : y = start := hy
    have hfront : x ∈ [y] := OrderedSet.mem_front (hl.trans hsplit) (List.mem_singleton_self y) hx
    exact ⟨0, Nat.le_refl 0, List.mem_singleton.1 hfront⟩
  | succ n ih =>
    obtain ⟨c, hc, row, hrow, hyrow⟩ := hy
    obtain ⟨m₁, m₂, hm⟩ := List.append_of_mem ((hmem c).2 (exists_inSteps_iff.1 ⟨n, hc⟩))
    obtain ⟨rows₁, rows', hrows₁, hrows', heq⟩ := mapM_append_eq_ok.1 (hm ▸ hrows)
    obtain ⟨row', rows₂, hrow', -, rfl⟩ := mapM_cons_eq_ok.1 hrows'
    obtain rfl : row = row' := Except.ok.inj (hrow.symm.trans hrow')
    have hsplit' : (OrderedSet.ofList (start :: rows₁.flatten ++ row ++ rows₂.flatten)).toList =
        l₁ ++ y :: l₂ := by
      rw [← hsplit, ← hl, heq]
      simp
    have hfront := OrderedSet.mem_front hsplit' (List.mem_append_right _ hyrow) hx
    obtain hfront | hxrow := List.mem_append.1 hfront
    · obtain rfl | hfront := List.mem_cons.1 hfront
      · exact ⟨0, Nat.zero_le _, rfl⟩
      · obtain ⟨r, hr, hxr⟩ := List.mem_flatten.1 hfront
        obtain ⟨a, ha, har⟩ := (mem_of_mapM hrows₁).1 hr
        obtain ⟨m, hmn, hma⟩ := ih hm hc ha
        exact ⟨m + 1, Nat.succ_le_succ hmn, a, hma, r, har, hxr⟩
    · exact ⟨n + 1, Nat.le_refl _, c, hc, row, hrow, hxrow⟩

/-- A search breadth first lists what its start leads to, nearest first. -/
theorem breadthOrder_of_breadthFirst {univ : List α} {start : α} (hu : Universe next univ)
    (hstart : start ∈ univ) {bound : Nat} (hb : univ.length ≤ bound) {s : OrderedSet α}
    (h : breadthFirst next bound [start] = .ok s) : BreadthOrder next start s.toList := by
  have hstarts : ∀ a ∈ [start], a ∈ univ := fun a ha => by rwa [List.mem_singleton.1 ha]
  have hmem : ∀ b, b ∈ s.toList ↔ Relation.ReflTransGen (Step next) start b := fun b => by
    rw [mem_breadthFirst_iff hu hstarts hb h]
    simp only [List.mem_singleton, exists_eq_left]
  obtain ⟨rows, hrows, hs⟩ := spread_rows hu
    (fun a ha => hstarts a ((OrderedSet.mem_toList_ofList _ _).1 ha)) (by omega) h
  rw [List.drop_zero] at hrows
  have hlist : s.toList = (OrderedSet.ofList (start :: rows.flatten)).toList :=
    congrArg OrderedSet.toList hs
  refine ⟨s.nodup_toList, hmem, ⟨rows, hrows, hlist⟩, ?_⟩
  refine List.pairwise_iff_getElem.2 fun i j hi hj hij n hn => ?_
  have hsplit : s.toList = s.toList.take j ++ s.toList[j] :: s.toList.drop (j + 1) := by
    rw [List.getElem_cons_drop, List.take_append_drop]
  exact exists_inSteps_le hmem hrows hlist.symm hsplit hn
    (List.mem_take_iff_getElem.2 ⟨i, by omega, rfl⟩)

end Search

end RuleNetwork
