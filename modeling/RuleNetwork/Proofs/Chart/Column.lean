import RuleNetwork.Proofs.Chart.Links
import RuleNetwork.Proofs.Container
import RuleNetwork.Proofs.Run.Reach

/-!
One column of a chart. Expanding an item adds what follows from it, keeps what is there and adds
nothing that a closed set of visits lacks. A column is closed when all its items have been expanded,
and there are no more items than states and origins.

A caller and its callee's empty completion may be met in either order; whichever comes second finds
the other noted, so a caller noted with a rule completed without input has always been resumed.
-/

set_option autoImplicit false

namespace RuleNetwork

open Network

namespace Column

@[simp] theorem items_insert (c : Column) (i : Item) : (c.insert i).items = c.items.insert i := rfl

@[simp] theorem waiting_insert (c : Column) (i : Item) : (c.insert i).waiting = c.waiting := rfl

@[simp] theorem empties_insert (c : Column) (i : Item) : (c.insert i).empties = c.empties := rfl

@[simp] theorem items_insertAll (c : Column) (l : List Item) :
    (c.insertAll l).items = c.items.insertAll l := rfl

@[simp] theorem waiting_insertAll (c : Column) (l : List Item) :
    (c.insertAll l).waiting = c.waiting := rfl

@[simp] theorem empties_insertAll (c : Column) (l : List Item) :
    (c.insertAll l).empties = c.empties := rfl

theorem mem_resuming {c : Column} {rule : Int} {i : Item} :
    i ∈ c.resuming rule ↔ (rule, i) ∈ c.waiting := by
  simp [resuming]

end Column

/-- A column that holds no visit but those of a set. -/
structure Column.Within (n : Network) (c : Visit → Prop) (k : Nat) (d : Column) : Prop where
  items : ∀ i ∈ d.items.toList, c ⟨i.state, i.origin, k⟩
  waiting : ∀ w ∈ d.waiting, ∃ s id t, c ⟨s, w.2.origin, k⟩ ∧ n.Calls s id t w.1 w.2.state

namespace Column.Within

variable {n : Network} {c : Visit → Prop} {k : Nat} {d : Column}

theorem insert (h : d.Within n c k) {i : Item} (hi : c ⟨i.state, i.origin, k⟩) :
    (d.insert i).Within n c k where
  items j hj := by
    obtain hj | rfl := (OrderedSet.mem_toList_insert _ _ _).1 hj
    · exact h.items j hj
    · exact hi
  waiting := h.waiting

theorem insertAll (h : d.Within n c k) {l : List Item} (hl : ∀ i ∈ l, c ⟨i.state, i.origin, k⟩) :
    (d.insertAll l).Within n c k where
  items i hi := by
    obtain hi | hi := (OrderedSet.mem_toList_insertAll _ _ _).1 hi
    · exact h.items i hi
    · exact hl i hi
  waiting := h.waiting

end Column.Within

namespace Draft

/-- A draft that holds no visit but those of a set, and in which the callers of the rules completed
without input have been resumed. -/
structure Valid (n : Network) (c : Visit → Prop) (k : Nat) (d : Draft) : Prop where
  within : d.column.Within n c k
  empties : ∀ r ∈ d.column.empties.toList, ∃ z, c ⟨z, k, k⟩ ∧ n.Ends z ∧ n.Owns r z
  next : ∀ i ∈ d.next.toList, c ⟨i.state, i.origin, k + 1⟩
  resumed : ∀ w ∈ d.column.waiting, w.1 ∈ d.column.empties.toList → w.2 ∈ d.column.items.toList

/-- A later state of a draft. -/
structure Grows (d d' : Draft) : Prop where
  items : d.column.items.toList <+: d'.column.items.toList
  waiting : ∀ w ∈ d.column.waiting, w ∈ d'.column.waiting
  empties : ∀ r ∈ d.column.empties.toList, r ∈ d'.column.empties.toList
  next : ∀ i ∈ d.next.toList, i ∈ d'.next.toList

theorem Grows.refl (d : Draft) : d.Grows d := ⟨List.prefix_rfl, fun _ h => h, fun _ h => h, fun _ h => h⟩

theorem Grows.trans {d d' d'' : Draft} (h : d.Grows d') (h' : d'.Grows d'') : d.Grows d'' :=
  ⟨h.items.trans h'.items, fun w hw => h'.waiting w (h.waiting w hw),
    fun r hr => h'.empties r (h.empties r hr), fun i hi => h'.next i (h.next i hi)⟩

theorem Grows.mem {d d' : Draft} (h : d.Grows d') {i : Item} (hi : i ∈ d.column.items.toList) :
    i ∈ d'.column.items.toList := h.items.subset hi

/-- What has to follow from an item along a transition. -/
structure Follows (types : List String) (k : Nat) (item : Item) (t : Transition) (d : Draft) :
    Prop where
  read : ∀ k', t.Reads types k k' → k' = k ∧ ⟨t.target, item.origin⟩ ∈ d.column.items.toList ∨
    k' = k + 1 ∧ ⟨t.target, item.origin⟩ ∈ d.next.toList
  call : ∀ callee follow, t.call? = some (callee, follow) →
    ⟨t.target, k⟩ ∈ d.column.items.toList ∧ (callee, ⟨follow, item.origin⟩) ∈ d.column.waiting

/-- What has to follow from an item. -/
structure Covers (n : Network) (types : List String) (done : Array Column) (item : Item) (d : Draft) :
    Prop where
  leaves : ∀ {id t}, n.Leaves item.state id t → d.Follows types done.size item t
  ends : ∀ {r}, n.Ends item.state → n.Owns r item.state →
    if item.origin = done.size then r ∈ d.column.empties.toList
    else ∀ i ∈ ((done[item.origin]?).getD {}).resuming r, i ∈ d.column.items.toList

theorem Follows.mono {types : List String} {k : Nat} {item : Item} {t : Transition} {d d' : Draft}
    (h : d.Follows types k item t) (hg : d.Grows d') : d'.Follows types k item t where
  read k' hr := (h.read k' hr).imp (fun h => ⟨h.1, hg.mem h.2⟩) fun h => ⟨h.1, hg.next _ h.2⟩
  call callee follow hc :=
    ⟨hg.mem (h.call callee follow hc).1, hg.waiting _ (h.call callee follow hc).2⟩

theorem Covers.mono {n : Network} {types : List String} {done : Array Column} {item : Item}
    {d d' : Draft} (h : d.Covers n types done item) (hg : d.Grows d') :
    d'.Covers n types done item where
  leaves ht := (h.leaves ht).mono hg
  ends he ho := by
    have := h.ends he ho
    split at this
    · rename_i heq
      rw [if_pos heq]
      exact hg.empties _ this
    · rename_i hne
      rw [if_neg hne]
      exact fun i hi => hg.mem (this i hi)

section Expand

variable {ix : ChartIndex} {types : List String} {start : Int} {c : Visit → Prop}
  {done : Array Column} {item : Item} {d : Draft}

theorem grows_insert (d : Draft) (i : Item) : d.Grows { d with column := d.column.insert i } :=
  ⟨d.column.items.prefix_insert i, fun _ h => h, fun _ h => h, fun _ h => h⟩

theorem valid_insert {n : Network} {k : Nat} (hd : d.Valid n c k) {i : Item}
    (hi : c ⟨i.state, i.origin, k⟩) : { d with column := d.column.insert i }.Valid n c k where
  within := hd.within.insert hi
  empties := hd.empties
  next := hd.next
  resumed w hw he := (OrderedSet.mem_toList_insert _ _ _).2 (.inl (hd.resumed w hw he))

theorem pass_read (hc : ix.grammar.network.Closed types start c)
    (hd : d.Valid ix.grammar.network c done.size) (hitem : c ⟨item.state, item.origin, done.size⟩)
    {id : Int} {t : Transition} (ht : ix.grammar.network.Leaves item.state id t)
    (hk : t.kind ≠ .ruleCall) :
    ∃ d', pass ix types[done.size]? done item d t = .ok d' ∧
      d'.Valid ix.grammar.network c done.size ∧ d.Grows d' ∧
      d'.Follows types done.size item t := by
  have hcall : t.call? = none := by
    cases hx : t.call? with
    | none => rfl
    | some x => exact absurd (Transition.kind_of_call? hx) hk
  have hfree : t.isFree = true →
      ∃ d', (.ok { d with column := d.column.insert ⟨t.target, item.origin⟩ } : Except Fault Draft) =
        .ok d' ∧ d'.Valid ix.grammar.network c done.size ∧ d.Grows d' ∧
          d'.Follows types done.size item t := by
    intro hf
    have hmem := hc.read hitem ht ((Transition.reads_of_isFree hf).2 rfl)
    refine ⟨_, rfl, valid_insert hd (i := ⟨t.target, item.origin⟩) hmem, grows_insert d _,
      fun k' hr => .inl ⟨(Transition.reads_of_isFree hf).1 hr, ?_⟩, fun _ _ h => by simp [hcall] at h⟩
    exact (OrderedSet.mem_toList_insert _ _ _).2 (.inr rfl)
  unfold pass
  cases hkind : t.kind with
  | ruleCall => exact absurd hkind hk
  | epsilon => exact hfree (by simp [Transition.isFree, hkind])
  | predicate => exact hfree (by simp [Transition.isFree, hkind])
  | terminal =>
    have hreads : ∀ {k'}, t.Reads types done.size k' ↔
        (∃ x, types[done.size]? = some x ∧ x ∈ t.tokens) ∧ k' = done.size + 1 :=
      Transition.reads_of_terminal hkind
    have hany : (types[done.size]?).any t.tokens.contains = true ↔
        ∃ x, types[done.size]? = some x ∧ x ∈ t.tokens := by
      simp [Option.any_eq_true]
    simp only
    split
    · rename_i hx
      have hmem := hc.read hitem ht (hreads.2 ⟨hany.1 hx, rfl⟩)
      refine ⟨_, rfl, ⟨hd.within, hd.empties, fun i hi => ?_, hd.resumed⟩,
        ⟨List.prefix_rfl, fun _ h => h, fun _ h => h, fun i hi => ?_⟩,
        fun k' hr => .inr ⟨(hreads.1 hr).2, ?_⟩, fun _ _ h => by simp [hcall] at h⟩
      · obtain hi | rfl := (OrderedSet.mem_toList_insert _ _ _).1 hi
        · exact hd.next i hi
        · exact hmem
      · exact (OrderedSet.mem_toList_insert _ _ _).2 (.inl hi)
      · exact (OrderedSet.mem_toList_insert _ _ _).2 (.inr rfl)
    · rename_i hx
      exact ⟨d, rfl, hd, .refl d, fun k' hr => absurd (hany.2 (hreads.1 hr).1) hx,
        fun _ _ h => by simp [hcall] at h⟩

/-- The draft after a caller has been noted and its callee entered. -/
def noted (d : Draft) (callee : Int) (resumed entered : Item) : Draft :=
  let column := { d.column with waiting := d.column.waiting.push (callee, resumed) }
  { d with column := column.insert entered }

section Noted

variable {n : Network} {k : Nat} {callee : Int} {resumed entered : Item}

theorem grows_noted : d.Grows (d.noted callee resumed entered) :=
  ⟨d.column.items.prefix_insert _, fun _ hw => Array.mem_push.2 (.inl hw), fun _ h => h, fun _ h => h⟩

theorem within_noted (hd : d.Valid n c k) (hentered : c ⟨entered.state, entered.origin, k⟩)
    (hcall : ∃ s id t, c ⟨s, resumed.origin, k⟩ ∧ n.Calls s id t callee resumed.state) :
    (d.noted callee resumed entered).column.Within n c k := by
  have hnoted : { d.column with waiting := d.column.waiting.push (callee, resumed) }.Within n c k := by
    refine ⟨hd.within.items, fun w hw => ?_⟩
    obtain hw | rfl := Array.mem_push.1 hw
    · exact hd.within.waiting w hw
    · exact hcall
  exact hnoted.insert hentered

/-- Only the caller that has just been noted may still have to be resumed. -/
theorem resumed_noted (hd : d.Valid n c k) {w : Int × Item}
    (hw : w ∈ (d.noted callee resumed entered).column.waiting) (he : w.1 ∈ d.column.empties.toList) :
    w = (callee, resumed) ∨ w.2 ∈ (d.noted callee resumed entered).column.items.toList := by
  obtain hw | rfl := Array.mem_push.1 hw
  · exact .inr (grows_noted.mem (hd.resumed w hw he))
  · exact .inl rfl

theorem valid_noted (hd : d.Valid n c k) (hentered : c ⟨entered.state, entered.origin, k⟩)
    (hcall : ∃ s id t, c ⟨s, resumed.origin, k⟩ ∧ n.Calls s id t callee resumed.state)
    (hempty : callee ∉ d.column.empties.toList) : (d.noted callee resumed entered).Valid n c k where
  within := within_noted hd hentered hcall
  empties := hd.empties
  next := hd.next
  resumed w hw he := by
    obtain rfl | hmem := resumed_noted hd hw he
    · exact absurd he hempty
    · exact hmem

/-- A caller of a rule already completed without input is resumed at once. -/
theorem valid_noted_insert (hd : d.Valid n c k) (hentered : c ⟨entered.state, entered.origin, k⟩)
    (hcall : ∃ s id t, c ⟨s, resumed.origin, k⟩ ∧ n.Calls s id t callee resumed.state)
    (hresumed : c ⟨resumed.state, resumed.origin, k⟩) :
    { d.noted callee resumed entered with
      column := (d.noted callee resumed entered).column.insert resumed }.Valid n c k where
  within := (within_noted hd hentered hcall).insert hresumed
  empties := hd.empties
  next := hd.next
  resumed w hw he := by
    obtain rfl | hmem := resumed_noted hd hw he
    · exact (OrderedSet.mem_toList_insert _ _ _).2 (.inr rfl)
    · exact (OrderedSet.mem_toList_insert _ _ _).2 (.inl hmem)

theorem follows_noted {t : Transition} {follow : Int} (hcall : t.call? = some (callee, follow)) :
    (d.noted callee ⟨follow, item.origin⟩ ⟨t.target, k⟩).Follows types k item t where
  read k' hr := absurd (Transition.kind_of_call? hcall) hr.kind_ne
  call callee' follow' hcall' := by
    rw [hcall] at hcall'
    cases hcall'
    exact ⟨(OrderedSet.mem_toList_insert _ _ _).2 (.inr rfl), Array.mem_push.2 (.inr rfl)⟩

end Noted

theorem pass_eq_noted (hp : ix.grammar.Proper) {i : Nat} (hi : i < ix.grammar.rules.size)
    {t : Transition} {follow : Int} (hcall : t.call? = some (Int.ofNat i, follow))
    (htarget : t.target = startState i) :
    pass ix types[done.size]? done item d t = .ok (
      let d₁ := d.noted (Int.ofNat i) ⟨follow, item.origin⟩ ⟨t.target, done.size⟩
      if d.column.empties.contains (Int.ofNat i) then
        { d₁ with column := d₁.column.insert ⟨follow, item.origin⟩ } else d₁) := by
  unfold pass
  simp only [Transition.kind_of_call? hcall, hcall, enter]
  rw [show (Int.ofNat i) = ((i : Nat) : Int) from rfl, ChartIndex.startOf_ok hp hi]
  simp only [bind, Except.bind, pure, Except.pure, noted, htarget, Column.empties_insert]
  by_cases hempty : d.column.empties.contains (i : Int) = true <;> simp [hempty]

theorem pass_call (hp : ix.grammar.Proper) (hc : ix.grammar.network.Closed types start c)
    (hd : d.Valid ix.grammar.network c done.size) (hitem : c ⟨item.state, item.origin, done.size⟩)
    {id callee follow : Int} {t : Transition}
    (ht : ix.grammar.network.Calls item.state id t callee follow) :
    ∃ d', pass ix types[done.size]? done item d t = .ok d' ∧
      d'.Valid ix.grammar.network c done.size ∧ d.Grows d' ∧
      d'.Follows types done.size item t := by
  obtain ⟨r, hr⟩ := ht.1.owned
  obtain ⟨i, hi, rfl, htarget, -⟩ := hp.network.of_calls ht hr
  have hentered := hc.enter hitem ht
  have hcall : ∃ s id t, c ⟨s, item.origin, done.size⟩ ∧
      ix.grammar.network.Calls s id t (Int.ofNat i) follow := ⟨item.state, id, t, hitem, ht⟩
  refine ⟨_, pass_eq_noted hp hi ht.2 htarget, ?_⟩
  split
  · rename_i hempty
    obtain ⟨z, hz, he, ho⟩ := hd.empties _ ((OrderedSet.contains_iff _ _).1 hempty)
    have hresumed := hc.resume hitem ht hz he ho
    have hgrows := grows_insert (d.noted (Int.ofNat i) ⟨follow, item.origin⟩ ⟨t.target, done.size⟩)
      ⟨follow, item.origin⟩
    exact ⟨valid_noted_insert hd hentered hcall hresumed, grows_noted.trans hgrows,
      (follows_noted ht.2).mono hgrows⟩
  · rename_i hempty
    rw [OrderedSet.contains_iff] at hempty
    exact ⟨valid_noted hd hentered hcall hempty, grows_noted, follows_noted ht.2⟩

theorem pass_ok (hp : ix.grammar.Proper) (hc : ix.grammar.network.Closed types start c)
    (hd : d.Valid ix.grammar.network c done.size) (hitem : c ⟨item.state, item.origin, done.size⟩)
    {id : Int} {t : Transition} (ht : ix.grammar.network.Leaves item.state id t) :
    ∃ d', pass ix types[done.size]? done item d t = .ok d' ∧
      d'.Valid ix.grammar.network c done.size ∧ d.Grows d' ∧
      d'.Follows types done.size item t := by
  obtain ⟨r, hr⟩ := ht.owned
  obtain ⟨hk, -⟩ | ⟨i, follow, -, hcall, -⟩ := hp.network.fits ht hr
  · exact pass_read hc hd hitem ht hk
  · exact pass_call hp hc hd hitem ⟨ht, hcall⟩

theorem passAll_ok (hp : ix.grammar.Proper) (hc : ix.grammar.network.Closed types start c)
    (hd : d.Valid ix.grammar.network c done.size) (hitem : c ⟨item.state, item.origin, done.size⟩)
    {arcs : List Arc} (ha : ∀ a ∈ arcs, ix.grammar.network.Leaves item.state a.id a.transition) :
    ∃ d', (arcs.map Arc.transition).foldlM (pass ix types[done.size]? done item) d = .ok d' ∧
      d'.Valid ix.grammar.network c done.size ∧ d.Grows d' ∧
      ∀ a ∈ arcs, d'.Follows types done.size item a.transition := by
  induction arcs generalizing d with
  | nil => exact ⟨d, rfl, hd, .refl d, fun a ha => absurd ha List.not_mem_nil⟩
  | cons a arcs ih =>
    obtain ⟨d₁, h₁, hv₁, hg₁, hf₁⟩ := pass_ok hp hc hd hitem (ha a (List.mem_cons_self ..))
    obtain ⟨d₂, h₂, hv₂, hg₂, hf₂⟩ := ih hv₁ fun a h => ha a (List.mem_cons_of_mem _ h)
    refine ⟨d₂, ?_, hv₂, hg₁.trans hg₂, fun b hb => ?_⟩
    · rw [List.map_cons, List.foldlM_cons, h₁]
      exact h₂
    · obtain rfl | hb := List.mem_cons.1 hb
      · exact hf₁.mono hg₂
      · exact hf₂ b hb

theorem complete_ok (hc : ix.grammar.network.Closed types start c)
    (hd : d.Valid ix.grammar.network c done.size) (hitem : c ⟨item.state, item.origin, done.size⟩)
    (hdone : ∀ j < done.size, (done[j]?.getD {}).Within ix.grammar.network c j)
    (ho : item.origin ≤ done.size) {rule : Int} (hends : ix.grammar.network.Ends item.state)
    (howns : ix.grammar.network.Owns rule item.state) :
    (d.complete done item rule).Valid ix.grammar.network c done.size ∧
      d.Grows (d.complete done item rule) ∧
      (d.complete done item rule).Covers ix.grammar.network types done item := by
  unfold complete
  split
  · rename_i horigin
    have hresume : ∀ i ∈ d.column.resuming rule, c ⟨i.state, i.origin, done.size⟩ := by
      intro i hi
      obtain ⟨s, id, t, hs, ht⟩ := hd.within.waiting _ (Column.mem_resuming.1 hi)
      rw [horigin] at hitem
      exact hc.resume hs ht hitem hends howns
    refine ⟨⟨⟨(hd.within.insertAll hresume).items, hd.within.waiting⟩, ?_, hd.next, ?_⟩,
      ⟨OrderedSet.prefix_insertAll _ _, fun _ h => h, fun r hr => ?_, fun _ h => h⟩, ?_, ?_⟩
    · intro r hr
      obtain hr | rfl := (OrderedSet.mem_toList_insert _ _ _).1 hr
      · exact hd.empties r hr
      · rw [horigin] at hitem
        exact ⟨item.state, hitem, hends, howns⟩
    · intro w hw hr
      obtain hr | hr := (OrderedSet.mem_toList_insert _ _ _).1 hr
      · exact (OrderedSet.mem_toList_insertAll _ _ _).2 (.inl (hd.resumed w hw hr))
      · refine (OrderedSet.mem_toList_insertAll _ _ _).2 (.inr (Column.mem_resuming.2 ?_))
        rw [← hr]
        exact hw
    · exact (OrderedSet.mem_toList_insert _ _ _).2 (.inl hr)
    · exact fun ht => absurd ht (not_leaves_of_ends hends)
    · intro r _ ho'
      rw [if_pos horigin, howns.unique ho']
      exact (OrderedSet.mem_toList_insert _ _ _).2 (.inr rfl)
  · rename_i horigin
    have hcol := hdone item.origin (by omega)
    have hresume : ∀ i ∈ ((done[item.origin]?).getD {}).resuming rule,
        c ⟨i.state, i.origin, done.size⟩ := by
      intro i hi
      obtain ⟨s, id, t, hs, ht⟩ := hcol.waiting _ (Column.mem_resuming.1 hi)
      exact hc.resume hs ht hitem hends howns
    refine ⟨⟨hd.within.insertAll hresume, hd.empties, hd.next, fun w hw hr => ?_⟩,
      ⟨OrderedSet.prefix_insertAll _ _, fun _ h => h, fun _ h => h, fun _ h => h⟩, ?_, ?_⟩
    · exact (OrderedSet.mem_toList_insertAll _ _ _).2 (.inl (hd.resumed w hw hr))
    · exact fun ht => absurd ht (not_leaves_of_ends hends)
    · intro r _ ho'
      rw [if_neg horigin, ← howns.unique ho']
      exact fun i hi => (OrderedSet.mem_toList_insertAll _ _ _).2 (.inr hi)

/-- Expanding an item. -/
theorem expand_ok (hp : ix.grammar.Proper) (hc : ix.grammar.network.Closed types start c)
    (hd : d.Valid ix.grammar.network c done.size) (hitem : c ⟨item.state, item.origin, done.size⟩)
    (hdone : ∀ j < done.size, (done[j]?.getD {}).Within ix.grammar.network c j)
    (ho : item.origin ≤ done.size) {rule : Int} (howns : ix.grammar.network.Owns rule item.state) :
    ∃ d', d.expand ix types[done.size]? done item = .ok d' ∧
      d'.Valid ix.grammar.network c done.size ∧ d.Grows d' ∧
      d'.Covers ix.grammar.network types done item := by
  obtain ⟨st, hs, rfl⟩ := howns
  unfold expand
  by_cases hk : st.kind = .ruleStop
  · refine ⟨d.complete done item st.rule, ?_, complete_ok hc hd hitem hdone ho ⟨st, hs, hk⟩ ⟨st, hs, rfl⟩⟩
    simp [hs, hk, bind, Except.bind, pure, Except.pure]
  · have hleaves : ∀ a ∈ ix.grammar.network.arcsOf st,
        ix.grammar.network.Leaves item.state a.id a.transition := fun a ha => by
      obtain ⟨-, -, hid, ht⟩ := mem_arcsOf.1 ha
      exact ⟨st, hs, hk, hid, ht⟩
    obtain ⟨d', h, hv, hg, hf⟩ := passAll_ok hp hc hd hitem hleaves
    refine ⟨d', ?_, hv, hg, ?_, ?_⟩
    · rw [hs, hp.network.outgoing_eq hs hk]
      simpa [hk, bind, Except.bind] using h
    · intro id t ht
      obtain ⟨st', hs', -, hid, htr⟩ := ht
      rw [hs] at hs'
      cases hs'
      exact hf ⟨st.id, id, t⟩ (mem_arcsOf.2 ⟨hk, rfl, hid, htr⟩)
    · rintro r ⟨st', hs', hk'⟩
      rw [hs] at hs'
      cases hs'
      exact absurd hk' hk

end Expand

section Growth

variable {ix : ChartIndex} {token : Option String} {done : Array Column} {item : Item} {d d' : Draft}

theorem grows_pass {t : Transition} (h : pass ix token done item d t = .ok d') : d.Grows d' := by
  unfold pass at h
  split at h
  · split at h
    · obtain rfl := Except.ok.inj h
      exact ⟨List.prefix_rfl, fun _ h => h, fun _ h => h, fun i hi =>
        (OrderedSet.mem_toList_insert _ _ _).2 (.inl hi)⟩
    · obtain rfl := Except.ok.inj h
      exact .refl d
  · split at h
    · obtain ⟨s, -, h⟩ := bind_eq_ok.1 h
      obtain rfl := pure_eq_ok.1 h
      split
      · exact grows_noted.trans (grows_insert (d.noted _ _ _) _)
      · exact grows_noted
    · obtain rfl := Except.ok.inj h
      exact .refl d
  · obtain rfl := Except.ok.inj h
    exact grows_insert d _
  · obtain rfl := Except.ok.inj h
    exact grows_insert d _

theorem grows_passes {out : List Transition} (h : out.foldlM (pass ix token done item) d = .ok d') :
    d.Grows d' := by
  induction out generalizing d with
  | nil =>
    obtain rfl := pure_eq_ok.1 h
    exact .refl d
  | cons t out ih =>
    obtain ⟨d₁, hd₁, h⟩ := foldlM_cons_eq_ok.1 h
    exact (grows_pass hd₁).trans (ih h)

/-- What an item is expanded to begins with what was there. -/
theorem items_prefix_of_expand (h : d.expand ix token done item = .ok d') :
    d.column.items.toList <+: d'.column.items.toList := by
  obtain ⟨st, -, h⟩ := bind_eq_ok.1 h
  split at h
  · obtain rfl := pure_eq_ok.1 h
    unfold complete
    split <;> exact OrderedSet.prefix_insertAll _ _
  · obtain ⟨out, -, h⟩ := bind_eq_ok.1 h
    exact (grows_passes h).items

end Growth

end Draft

end RuleNetwork
