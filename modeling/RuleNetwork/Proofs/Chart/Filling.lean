import RuleNetwork.Proofs.Chart.Column

/-!
The columns of a chart. Closing a column expands every item that it comes to hold, and filling the
columns one after the other leaves a chart that no run leaves.
-/

set_option autoImplicit false

namespace RuleNetwork

open Network

/-- An item for every state and every column up to one. -/
def allItems (states k : Nat) : List Item :=
  (List.range states).flatMap fun (s : Nat) => (List.range (k + 1)).map fun o => ⟨s, o⟩

theorem length_allItems (states k : Nat) : (allItems states k).length = states * (k + 1) := by
  simp [allItems, List.length_flatMap]

/-- Items of a column are bounded by the states and the columns so far. -/
theorem length_items_le {n : Network} {k : Nat} {s : OrderedSet Item}
    (h : ∀ i ∈ s.toList, (∃ st, n.state i.state = .ok st) ∧ i.origin ≤ k) :
    s.toList.length ≤ n.states.size * (k + 1) := by
  rw [← length_allItems]
  refine (s.nodup_toList.subperm fun i hi => ?_).length_le
  obtain ⟨⟨st, hs⟩, ho⟩ := h i hi
  have hlt := lt_of_state hs
  have hstate : i.state.toNat < n.states.size := by omega
  have horigin : i.origin < k + 1 := by omega
  refine List.mem_flatMap.2 ⟨i.state.toNat, List.mem_range.2 hstate, ?_⟩
  refine List.mem_map.2 ⟨i.origin, List.mem_range.2 horigin, ?_⟩
  rw [Int.toNat_of_nonneg hlt.1]

/-- The visits of a set are at states of rules, in invocations that began before. -/
def Bounded (n : Network) (c : Visit → Prop) : Prop :=
  ∀ v, c v → (∃ r, n.Owns r v.state) ∧ v.origin ≤ v.position

section Close

variable {ix : ChartIndex} {types : List String} {start : Int} {c : Visit → Prop}
  {done : Array Column}

/-- A column as far as there is one. -/
def columnAt (done : Array Column) (k : Nat) : Column := (done[k]?).getD {}

theorem closeFrom_ok (hp : ix.grammar.Proper) (hc : ix.grammar.network.Closed types start c)
    (hb : Bounded ix.grammar.network c)
    (hdone : ∀ j < done.size, (columnAt done j).Within ix.grammar.network c j) (bound i : Nat)
    {d : Draft} (hd : d.Valid ix.grammar.network c done.size)
    (hi : ∀ item ∈ d.column.items.toList.take i, d.Covers ix.grammar.network types done item)
    (hbound : ix.grammar.network.states.size * (done.size + 1) ≤ bound + i) :
    ∃ d', Column.closeFrom ix types[done.size]? done bound i d = .ok d' ∧
      d'.Valid ix.grammar.network c done.size ∧ d.Grows d' ∧
      ∀ item ∈ d'.column.items.toList, d'.Covers ix.grammar.network types done item := by
  have hlen : ∀ d' : Draft, d'.Valid ix.grammar.network c done.size →
      d'.column.items.toList.length ≤ ix.grammar.network.states.size * (done.size + 1) :=
    fun d' h => length_items_le fun i hi => by
      obtain ⟨⟨_, st, hs, -⟩, ho⟩ := hb _ (h.within.items i hi)
      exact ⟨⟨st, hs⟩, ho⟩
  induction bound generalizing i d with
  | zero =>
    refine ⟨d, rfl, hd, .refl d, fun item hitem => hi item ?_⟩
    have := hlen d hd
    rwa [List.take_of_length_le (by omega)]
  | succ bound ih =>
    unfold Column.closeFrom
    rw [OrderedSet.get?_eq]
    cases hitem : d.column.items.toList[i]? with
    | none =>
      refine ⟨d, rfl, hd, .refl d, fun item hmem => hi item ?_⟩
      rwa [List.take_of_length_le (List.getElem?_eq_none_iff.1 hitem)]
    | some item =>
      have hmem := hd.within.items item (List.mem_of_getElem? hitem)
      obtain ⟨⟨r, howns⟩, ho⟩ := hb _ hmem
      obtain ⟨d₁, h₁, hv₁, hg₁, hcov₁⟩ := Draft.expand_ok hp hc hd hmem hdone ho howns
      obtain ⟨d₂, h₂, hv₂, hg₂, hcov₂⟩ := ih (i + 1) hv₁ (fun item' hitem' => by
        obtain ⟨rest, hrest⟩ := hg₁.items
        have hi' : i < d.column.items.toList.length := (List.getElem?_eq_some_iff.1 hitem).1
        rw [← hrest, List.take_append_of_le_length (by omega), List.take_add_one, hitem] at hitem'
        obtain h | h := List.mem_append.1 hitem'
        · exact (hi item' h).mono hg₁
        · obtain rfl : item' = item := by simpa using h
          exact hcov₁) (by omega)
      refine ⟨d₂, ?_, hv₂, hg₁.trans hg₂, hcov₂⟩
      simp only [h₁, bind, Except.bind]
      exact h₂

theorem close_ok (hp : ix.grammar.Proper) (hc : ix.grammar.network.Closed types start c)
    (hb : Bounded ix.grammar.network c)
    (hdone : ∀ j < done.size, (columnAt done j).Within ix.grammar.network c j)
    {items : OrderedSet Item} (hitems : ∀ i ∈ items.toList, c ⟨i.state, i.origin, done.size⟩) :
    ∃ d, Column.close ix types[done.size]? done items = .ok d ∧
      d.Valid ix.grammar.network c done.size ∧ items.toList <+: d.column.items.toList ∧
      ∀ item ∈ d.column.items.toList, d.Covers ix.grammar.network types done item := by
  have hempty : ∀ r : Int, r ∉ (∅ : OrderedSet Int).toList := fun r => List.not_mem_nil
  obtain ⟨d, h, hv, hg, hcov⟩ := closeFrom_ok hp hc hb hdone
    (ix.grammar.network.states.size * (done.size + 1) + 1) 0 (d := { column := { items } })
    ⟨⟨hitems, fun w hw => absurd hw (by simp)⟩, fun r hr => absurd hr (hempty r),
      fun i hi => absurd hi List.not_mem_nil, fun w hw => absurd hw (by simp)⟩
    (fun item hitem => absurd hitem (by simp)) (by omega)
  exact ⟨d, h, hv, hg.items, hcov⟩

end Close

/-- Whether a visit is in the columns closed or among the items with which the next one begins. -/
def Holds (done : Array Column) (items : OrderedSet Item) (v : Visit) : Prop :=
  v.position < done.size ∧ ⟨v.state, v.origin⟩ ∈ (columnAt done v.position).items.toList ∨
    v.position = done.size ∧ ⟨v.state, v.origin⟩ ∈ items.toList

/-- Columns that hold only visits of a set and all that follows from their items. -/
structure Filled (n : Network) (types : List String) (start : Int) (c : Visit → Prop)
    (done : Array Column) (items : OrderedSet Item) : Prop where
  within : ∀ k < done.size, (columnAt done k).Within n c k
  next : ∀ i ∈ items.toList, c ⟨i.state, i.origin, done.size⟩
  start : Holds done items ⟨start, 0, 0⟩
  read : ∀ {k : Nat} {i : Item} {id t k'}, k < done.size → i ∈ (columnAt done k).items.toList →
    n.Leaves i.state id t → t.Reads types k k' → Holds done items ⟨t.target, i.origin, k'⟩
  call : ∀ {k : Nat} {i : Item} {id t callee follow}, k < done.size →
    i ∈ (columnAt done k).items.toList → n.Calls i.state id t callee follow →
    Holds done items ⟨t.target, k, k⟩ ∧ (callee, ⟨follow, i.origin⟩) ∈ (columnAt done k).waiting
  ends : ∀ {k : Nat} {i : Item} {r}, k < done.size → i ∈ (columnAt done k).items.toList →
    n.Ends i.state → n.Owns r i.state → i.origin < done.size →
    ∀ j ∈ (columnAt done i.origin).resuming r, Holds done items ⟨j.state, j.origin, k⟩

section Fill

variable {ix : ChartIndex} {types : List String} {start : Int} {c : Visit → Prop}
  {done : Array Column} {items : OrderedSet Item}

theorem columnAt_push_of_lt {k : Nat} {d : Column} (hk : k < done.size) :
    columnAt (done.push d) k = columnAt done k := by
  unfold columnAt
  rw [Array.getElem?_push_lt hk, Array.getElem?_eq_getElem hk]

theorem columnAt_push_size (d : Column) : columnAt (done.push d) done.size = d := by
  simp [columnAt]

theorem Holds.push {v : Visit} (h : Holds done items v) {d : Draft}
    (hg : items.toList <+: d.column.items.toList) : Holds (done.push d.column) d.next v := by
  obtain ⟨hlt, hmem⟩ | ⟨heq, hmem⟩ := h
  · refine .inl ⟨by rw [Array.size_push]; omega, ?_⟩
    rwa [columnAt_push_of_lt hlt]
  · refine .inl ⟨by rw [Array.size_push]; omega, ?_⟩
    rw [heq, columnAt_push_size]
    exact hg.subset hmem

theorem holds_push_of_mem {d : Draft} {i : Item} (hi : i ∈ d.column.items.toList) :
    Holds (done.push d.column) d.next ⟨i.state, i.origin, done.size⟩ := by
  refine .inl ⟨by simp, ?_⟩
  rwa [columnAt_push_size]

theorem lt_or_eq_of_push {k : Nat} {d : Column} (hk : k < (done.push d).size) :
    k < done.size ∨ k = done.size := by
  rw [Array.size_push] at hk
  omega

/-- A closed column follows. -/
theorem Filled.push (hb : Bounded ix.grammar.network c)
    (h : Filled ix.grammar.network types start c done items)
    {d : Draft} (hv : d.Valid ix.grammar.network c done.size)
    (hg : items.toList <+: d.column.items.toList)
    (hcov : ∀ item ∈ d.column.items.toList, d.Covers ix.grammar.network types done item) :
    Filled ix.grammar.network types start c (done.push d.column) d.next := by
  refine ⟨?_, ?_, h.start.push hg, ?_, ?_, ?_⟩
  · intro k hk
    obtain hk | rfl := lt_or_eq_of_push hk
    · rw [columnAt_push_of_lt hk]
      exact h.within k hk
    · rw [columnAt_push_size]
      exact hv.within
  · intro i hi
    rw [Array.size_push]
    exact hv.next i hi
  · intro k i id t k' hk hi ht hr
    obtain hk | rfl := lt_or_eq_of_push hk
    · rw [columnAt_push_of_lt hk] at hi
      exact (h.read hk hi ht hr).push hg
    · rw [columnAt_push_size] at hi
      obtain ⟨rfl, hmem⟩ | ⟨rfl, hmem⟩ := ((hcov i hi).leaves ht).read k' hr
      · exact holds_push_of_mem hmem
      · exact .inr ⟨by simp, hmem⟩
  · intro k i id t callee follow hk hi hcall
    obtain hk | rfl := lt_or_eq_of_push hk
    · rw [columnAt_push_of_lt hk] at hi ⊢
      obtain ⟨h₁, h₂⟩ := h.call hk hi hcall
      exact ⟨h₁.push hg, h₂⟩
    · rw [columnAt_push_size] at hi ⊢
      obtain ⟨h₁, h₂⟩ := ((hcov i hi).leaves hcall.1).call callee follow hcall.2
      exact ⟨holds_push_of_mem h₁, h₂⟩
  · intro k i r hk hi hends howns ho j hj
    obtain hk | rfl := lt_or_eq_of_push hk
    · rw [columnAt_push_of_lt hk] at hi
      have hle := (hb _ ((h.within k hk).items i hi)).2
      simp only at hle
      rw [columnAt_push_of_lt (by omega)] at hj
      exact (h.ends hk hi hends howns (by omega) j hj).push hg
    · rw [columnAt_push_size] at hi
      have hle := (hb _ (hv.within.items i hi)).2
      simp only at hle
      have hend := (hcov i hi).ends hends howns
      split at hend
      · rename_i heq
        rw [heq, columnAt_push_size] at hj
        exact holds_push_of_mem (hv.resumed _ (Column.mem_resuming.1 hj) hend)
      · rw [columnAt_push_of_lt (by omega)] at hj
        exact holds_push_of_mem (hend j hj)

theorem columnAt_append_of_lt {k : Nat} {l : Array Column} (hk : k < done.size) :
    columnAt (done ++ l) k = columnAt done k := by
  unfold columnAt
  rw [Array.getElem?_append_left hk]

theorem columnAt_append_empty {k m : Nat} (hk : done.size ≤ k) :
    columnAt (done ++ Array.replicate m (default : Column)) k = {} := by
  unfold columnAt
  rw [Array.getElem?_append_right hk, Array.getElem?_replicate]
  split <;> rfl

/-- Nothing follows from columns without items. -/
theorem Filled.append_empty (h : Filled ix.grammar.network types start c done items)
    (hitems : items.toList = []) (m : Nat) :
    Filled ix.grammar.network types start c (done ++ Array.replicate m (default : Column)) ∅ := by
  have hnone : ∀ {k i}, done.size ≤ k →
      i ∉ (columnAt (done ++ Array.replicate m (default : Column)) k).items.toList := by
    intro k i hk
    rw [columnAt_append_empty hk]
    exact List.not_mem_nil
  have hlt : ∀ {k i}, i ∈ (columnAt (done ++ Array.replicate m (default : Column)) k).items.toList →
      k < done.size ∧ i ∈ (columnAt done k).items.toList := by
    intro k i hi
    by_cases hk : k < done.size
    · rw [columnAt_append_of_lt hk] at hi
      exact ⟨hk, hi⟩
    · exact absurd hi (hnone (by omega))
  have hmono : ∀ v, Holds done items v → Holds (done ++ Array.replicate m (default : Column)) ∅ v := by
    rintro v (⟨hlt, hmem⟩ | ⟨-, hmem⟩)
    · refine .inl ⟨by rw [Array.size_append]; omega, ?_⟩
      rwa [columnAt_append_of_lt hlt]
    · rw [hitems] at hmem
      exact absurd hmem List.not_mem_nil
  refine ⟨?_, fun i hi => absurd hi List.not_mem_nil, hmono _ h.start, ?_, ?_, ?_⟩
  · intro k _
    by_cases hk : k < done.size
    · rw [columnAt_append_of_lt hk]
      exact h.within k hk
    · rw [columnAt_append_empty (by omega)]
      exact ⟨fun i hi => absurd hi List.not_mem_nil, fun w hw => absurd hw (by simp)⟩
  · intro k i id t k' _ hi ht hr
    obtain ⟨hk, hi⟩ := hlt hi
    exact hmono _ (h.read hk hi ht hr)
  · intro k i id t callee follow _ hi hcall
    obtain ⟨hk, hi⟩ := hlt hi
    rw [columnAt_append_of_lt hk]
    obtain ⟨h₁, h₂⟩ := h.call hk hi hcall
    exact ⟨hmono _ h₁, h₂⟩
  · intro k i r _ hi hends howns _ j hj
    obtain ⟨hk, hi⟩ := hlt hi
    by_cases ho : i.origin < done.size
    · rw [columnAt_append_of_lt ho] at hj
      exact hmono _ (h.ends hk hi hends howns ho j hj)
    · rw [columnAt_append_empty (by omega)] at hj
      simp [Column.resuming] at hj

theorem fill_ok (hp : ix.grammar.Proper) (hc : ix.grammar.network.Closed types start c)
    (hb : Bounded ix.grammar.network c) (rest : List String)
    (h : Filled ix.grammar.network types start c done items) (hrest : types.drop done.size = rest)
    (hsize : done.size + rest.length = types.length) :
    ∃ columns items', (Column.fill ix done items rest).result = .ok columns ∧
      columns.size = types.length + 1 ∧
      Filled ix.grammar.network types start c columns items' := by
  induction rest generalizing done items with
  | nil =>
    unfold Column.fill
    simp only
    split
    · rename_i hempty
      have hempty := (OrderedSet.isEmpty_iff _).1 hempty
      refine ⟨done.push {}, ∅, rfl, by simpa using hsize, ?_⟩
      exact h.append_empty hempty 1
    · obtain ⟨d, hd, hv, hg, hcov⟩ := close_ok hp hc hb h.within h.next
      have hnone : types[done.size]? = none :=
        List.getElem?_eq_none_iff.2 (by simp only [List.length_nil] at hsize; omega)
      rw [hnone] at hd
      exact ⟨done.push d.column, d.next, by rw [hd]; rfl, by simpa using hsize, h.push hb hv hg hcov⟩
  | cons t rest ih =>
    unfold Column.fill
    rw [List.length_cons] at hsize
    split
    · rename_i hempty
      have hempty := (OrderedSet.isEmpty_iff _).1 hempty
      exact ⟨_, ∅, rfl, by simp; omega, h.append_empty hempty _⟩
    · obtain ⟨d, hd, hv, hg, hcov⟩ := close_ok hp hc hb h.within h.next
      have htoken : types[done.size]? = some t := by
        rw [← List.head?_drop, hrest]
        rfl
      rw [htoken] at hd
      simp only [hd]
      refine ih (h.push hb hv hg hcov) ?_ (by simp; omega)
      rw [Array.size_push, ← List.drop_drop, hrest]
      rfl

end Fill

end RuleNetwork
