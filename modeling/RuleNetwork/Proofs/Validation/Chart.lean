import RuleNetwork.Chart.Recognition
import RuleNetwork.Proofs.Chart.Filling
import RuleNetwork.Proofs.Graph.Worklist
import RuleNetwork.Proofs.Validation.Walks

/-!
The columns of a sound grammar. Its edges can be read backwards, and an item is expanded without fail:
every item is at a state that is there, and no item was entered after its column.

The items of a column are a queue: each is expanded once, in the order in which it came, however the
expansions lead back to one another. There is a bound on the items that are placed, so the loop that
closes a column ends.
-/

set_option autoImplicit false

namespace RuleNetwork

open Network

namespace Backlinks

variable {α : Type} {n : Network} {rows : Array (List α)} {s : Int}

theorem resolve_of_has (h : n.Has s) : ∃ k, Position.resolve n.states.size s = some k ∧
    k < n.states.size ∧ s = (k : Int) := by
  obtain ⟨st, hst⟩ := h
  obtain ⟨k, rfl, hk⟩ := Position.forward?_eq_some.1 (state_eq_ok.1 hst)
  have hlt := (Array.getElem?_eq_some_iff.1 hk).1
  exact ⟨k, Position.resolve_of_lt hlt, hlt, rfl⟩

theorem record_yields (hsize : rows.size = n.states.size) (h : n.Has s) (a : α) :
    Yields (record rows s a) fun rows' => rows'.size = n.states.size ∧
      ∀ l ∈ rows', ∀ e ∈ l, e = a ∨ ∃ l ∈ rows, e ∈ l := by
  obtain ⟨k, hk, hlt, -⟩ := resolve_of_has h
  unfold record
  rw [hsize, hk]
  refine .ok ⟨by rw [Array.size_modify, hsize], fun l hl e he => ?_⟩
  obtain ⟨i, hi, rfl⟩ := Array.mem_iff_getElem.1 hl
  rw [Array.size_modify] at hi
  rw [Array.getElem_modify] at he
  split at he
  · obtain he | he := List.mem_append.1 he
    · exact .inr ⟨_, Array.getElem_mem hi, he⟩
    · exact .inl (List.mem_singleton.1 he)
  · exact .inr ⟨_, Array.getElem_mem hi, he⟩

theorem row_yields (hsize : rows.size = n.states.size) (h : n.Has s) :
    Yields (row rows s) (· ∈ rows) := by
  obtain ⟨k, hk, hlt, -⟩ := resolve_of_has h
  rw [← hsize] at hk hlt
  have hrow : Position.get? rows s = some rows[k] := by
    unfold Position.get?
    rw [hk]
    exact Array.getElem?_eq_getElem hlt
  unfold row
  rw [hrow]
  exact .ok (Array.getElem_mem _)

/-- There is a row for each state, and the calls noted are of rules that are there. -/
structure Sound (b : Backlinks) (g : Grammar) : Prop where
  free : b.free.size = g.network.states.size
  scan : b.scan.size = g.network.states.size
  call : b.call.size = g.network.states.size
  callees : ∀ l ∈ b.call, ∀ e ∈ l, g.Numbers e.2

theorem sound_empty (g : Grammar) : (empty g.network.states.size).Sound g where
  free := Array.size_replicate
  scan := Array.size_replicate
  call := Array.size_replicate
  callees l hl e he := by
    rw [(Array.mem_replicate.1 hl).2] at he
    cases he

variable {g : Grammar}

theorem sound_add (hg : g.Sound) {b : Backlinks} (hb : b.Sound g) (source : Int) {t : Transition}
    (ht : t.Resolves g) : Yields (add source b t) (·.Sound g) := by
  unfold add
  cases hk : t.kind with
  | terminal =>
    exact (record_yields hb.scan ht.target _).bind fun rows hrows =>
      .ok ⟨hb.free, hrows.1, hb.call, hb.callees⟩
  | ruleCall =>
    obtain ⟨callee, follow, r, hcall, hr, -, hfollow⟩ := ht.call hk
    simp only [hcall]
    refine (record_yields hb.call hfollow _).bind fun rows hrows =>
      .ok ⟨hb.free, hb.scan, hrows.1, fun l hl e he => ?_⟩
    obtain rfl | ⟨l', hl', he⟩ := hrows.2 l hl e he
    · exact ⟨r, hg.mem_of_ruleAt hr⟩
    · exact hb.callees l' hl' e he
  | epsilon | predicate =>
    exact (record_yields hb.free ht.target _).bind fun rows hrows =>
      .ok ⟨hrows.1, hb.scan, hb.call, hb.callees⟩

theorem sound_addState (hg : g.Sound) {b : Backlinks} (hb : b.Sound g) {st : State}
    (hst : st ∈ g.network.states.toList) : Yields (addState g.network b st) (·.Sound g) := by
  obtain ⟨k, hk⟩ := Array.mem_iff_getElem?.1 (Array.mem_toList_iff.1 hst)
  have hstate := state_eq_ok.2 (Position.forward?_eq_some.2 ⟨k, rfl, hk⟩)
  have hhas : g.network.Has st.id := by
    rw [(hg.state hstate).id]
    exact ⟨st, hstate⟩
  unfold addState
  exact .ite (fun _ => .ok hb) fun _ => (hg.outgoing_yields hhas).bind fun out hout =>
    .foldlM hb fun t ht b hb => sound_add hg hb st.id (hout t ht)

theorem sound_ofNetwork (hg : g.Sound) : Yields (ofNetwork g.network) (·.Sound g) :=
  .foldlM (sound_empty g) fun _ hst _ hb => sound_addState hg hb hst

end Backlinks

/-- The index of a sound grammar. -/
structure ChartIndex.Sound (ix : ChartIndex) : Prop where
  grammar : ix.grammar.Sound
  links : ix.links.Sound ix.grammar

namespace ChartIndex

theorem ofGrammar_yields {g : Grammar} (hg : g.Sound) :
    Yields (ofGrammar g) fun ix => ix.grammar = g ∧ ix.Sound :=
  (Backlinks.sound_ofNetwork hg).bind fun _ hb => .ok ⟨rfl, hg, hb⟩

variable {ix : ChartIndex} (hix : ix.Sound)
include hix

theorem rule_index {r : Rule} (hr : r ∈ ix.grammar.ruleList) : ix.rule r.index = .ok r := by
  obtain ⟨k, hk⟩ := Array.mem_iff_getElem?.1 (Array.mem_toList_iff.1 hr)
  have hget : Position.get? ix.grammar.rules r.index = some r := by
    rw [hix.grammar.index hk, Position.get?,
      Position.resolve_of_lt (Array.getElem?_eq_some_iff.1 hk).1]
    exact hk
  unfold rule
  rw [hget]

theorem rule_yields {i : Int} (hi : ix.grammar.Numbers i) :
    Yields (ix.rule i) (· ∈ ix.grammar.ruleList) := by
  obtain ⟨r, hr, rfl⟩ := hi
  exact .of_ok (rule_index hix hr) hr

theorem startOf_yields {i : Int} (hi : ix.grammar.Numbers i) :
    Yields (ix.startOf i) ix.grammar.network.Has :=
  (rule_yields hix hi).bind fun r hr => .ok (hix.grammar.start r hr)

theorem stopOf_yields {i : Int} (hi : ix.grammar.Numbers i) : Yields (ix.stopOf i) fun _ => True :=
  (rule_yields hix hi).bind fun _ _ => .ok trivial

end ChartIndex

/-- The item is at a state that is there and was entered no later than in the column. -/
def Item.Placed (i : Item) (n : Network) (k : Nat) : Prop := n.Has i.state ∧ i.origin ≤ k

theorem Item.Placed.mono {i : Item} {n : Network} {k k' : Nat} (h : i.Placed n k) (hk : k ≤ k') :
    i.Placed n k' := ⟨h.1, Nat.le_trans h.2 hk⟩

/-- All items of a column are placed in it, those that wait there too. -/
structure Column.Placed (d : Column) (n : Network) (k : Nat) : Prop where
  items : ∀ i ∈ d.items.toList, i.Placed n k
  waiting : ∀ w ∈ d.waiting, w.2.Placed n k

namespace Column.Placed

variable {d : Column} {n : Network} {k : Nat}

theorem empty : ({} : Column).Placed n k where
  items i hi := by cases hi
  waiting w hw := absurd hw (Array.not_mem_empty w)

theorem insert (h : d.Placed n k) {i : Item} (hi : i.Placed n k) : (d.insert i).Placed n k where
  items j hj := by
    obtain hj | rfl := (OrderedSet.mem_toList_insert _ _ _).1 hj
    · exact h.items j hj
    · exact hi
  waiting := h.waiting

theorem insertAll (h : d.Placed n k) {l : List Item} (hl : ∀ i ∈ l, i.Placed n k) :
    (d.insertAll l).Placed n k where
  items j hj := ((OrderedSet.mem_toList_insertAll _ _ _).1 hj).elim (h.items j) (hl j)
  waiting := h.waiting

end Column.Placed

/-- The draft of a column and of what it carries on. -/
structure Draft.Placed (d : Draft) (n : Network) (k : Nat) : Prop where
  column : d.column.Placed n k
  next : ∀ i ∈ d.next.toList, i.Placed n (k + 1)

namespace Draft

variable {ix : ChartIndex} (hix : ix.Sound) {done : Array Column} {item : Item} {d : Draft}
  {token : Option String}
include hix

theorem pass_yields (hd : d.Placed ix.grammar.network done.size)
    (hitem : item.Placed ix.grammar.network done.size) {t : Transition} (ht : t.Resolves ix.grammar) :
    Yields (pass ix token done item d t) (·.Placed ix.grammar.network done.size) := by
  have htarget : (⟨t.target, item.origin⟩ : Item).Placed ix.grammar.network done.size :=
    ⟨ht.target, hitem.2⟩
  unfold pass
  cases hk : t.kind with
  | terminal =>
    refine .ite (fun _ => .ok ⟨hd.column, fun i hi => ?_⟩) fun _ => .ok hd
    obtain hi | rfl := (OrderedSet.mem_toList_insert _ _ _).1 hi
    · exact hd.next i hi
    · exact htarget.mono (Nat.le_succ _)
  | ruleCall =>
    obtain ⟨callee, follow, r, hcall, hr, -, hfollow⟩ := ht.call hk
    have hresumed : (⟨follow, item.origin⟩ : Item).Placed ix.grammar.network done.size :=
      ⟨hfollow, hitem.2⟩
    simp only [hcall]
    refine (ChartIndex.startOf_yields hix ⟨r, hix.grammar.mem_of_ruleAt hr⟩).bind fun s hs => ?_
    have hentered : (⟨s, done.size⟩ : Item).Placed ix.grammar.network done.size := ⟨hs, Nat.le_refl _⟩
    have hnoted : ({ d.column with
        waiting := d.column.waiting.push (callee, ⟨follow, item.origin⟩) } : Column).Placed
          ix.grammar.network done.size := by
      refine ⟨hd.column.items, fun w hw => ?_⟩
      obtain hw | rfl := Array.mem_push.1 hw
      · exact hd.column.waiting w hw
      · exact hresumed
    have hall := hnoted.insert hentered
    refine .ok ⟨?_, hd.next⟩
    split
    · exact hall.insert hresumed
    · exact hall
  | epsilon | predicate => exact .ok ⟨hd.column.insert htarget, hd.next⟩

omit hix in
theorem placed_complete {n : Network} (hd : d.Placed n done.size)
    (hdone : ∀ j < done.size, ((done[j]?).getD {}).Placed n j) (rule : Int)
    (ho : item.origin ≤ done.size) : (d.complete done item rule).Placed n done.size := by
  have hresuming : ∀ {c : Column} {k : Nat}, c.Placed n k → k ≤ done.size →
      ∀ i ∈ c.resuming rule, i.Placed n done.size := fun hc hk i hi =>
    (hc.waiting _ (Column.mem_resuming.1 hi)).mono hk
  unfold complete
  split
  · exact ⟨Column.Placed.insertAll (d := { d.column with empties := d.column.empties.insert rule })
      ⟨hd.column.items, hd.column.waiting⟩ (hresuming ⟨hd.column.items, hd.column.waiting⟩
        (Nat.le_refl _)), hd.next⟩
  · have hlt : item.origin < done.size := by omega
    exact ⟨hd.column.insertAll (hresuming (hdone _ hlt) ho), hd.next⟩

theorem expand_yields (hd : d.Placed ix.grammar.network done.size)
    (hdone : ∀ j < done.size, ((done[j]?).getD {}).Placed ix.grammar.network j)
    (hitem : item.Placed ix.grammar.network done.size) :
    Yields (expand ix token done item d) (·.Placed ix.grammar.network done.size) := by
  refine (hix.grammar.state_yields hitem.1).bind fun st _ =>
    .ite (fun _ => .ok (placed_complete hd hdone st.rule hitem.2)) fun _ => ?_
  exact (hix.grammar.outgoing_yields hitem.1).bind fun out hout =>
    .foldlM hd fun t ht d hd => pass_yields hix hd hitem (hout t ht)

end Draft

namespace Column

/-- The loop that closes a column from the items that it begins with. -/
def Closes (ix : ChartIndex) (token : Option String) (done : Array Column) (items : OrderedSet Item)
    (taken : List Item) (d : Draft) : Prop :=
  Queue.Loop (fun d : Draft => d.column.items) (fun d item => d.expand ix token done item)
    { column := { items } } taken d

/-- The columns are closed one after the other, and each takes up every item that it holds. After a
column without items all are empty. -/
inductive Fills (ix : ChartIndex) :
    Array Column → OrderedSet Item → List String → Array Column → Prop
  | stop {done : Array Column} {items : OrderedSet Item} {types : List String}
      (h : items.isEmpty = true) :
      Fills ix done items types (done ++ Array.replicate (types.length + 1) ({} : Column))
  | last {done : Array Column} {items : OrderedSet Item} {d : Draft} (h : items.isEmpty = false)
      (hd : Closes ix none done items d.column.items.toList d) :
      Fills ix done items [] (done.push d.column)
  | next {done columns : Array Column} {items : OrderedSet Item} {t : String} {rest : List String}
      {d : Draft} (h : items.isEmpty = false)
      (hd : Closes ix (some t) done items d.column.items.toList d)
      (hrest : Fills ix (done.push d.column) d.next rest columns) :
      Fills ix done items (t :: rest) columns

theorem placed_push {n : Network} {done : Array Column}
    (hdone : ∀ j < done.size, ((done[j]?).getD {}).Placed n j) {d : Column} (hd : d.Placed n done.size) :
    ∀ j < (done.push d).size, (((done.push d)[j]?).getD {}).Placed n j := by
  intro j hj
  rw [Array.getElem?_push]
  split
  · rename_i heq
    rw [heq]
    exact hd
  · rw [Array.size_push] at hj
    exact hdone j (by omega)

variable {ix : ChartIndex} (hix : ix.Sound) {done : Array Column}
include hix

theorem exists_closes (hdone : ∀ j < done.size, ((done[j]?).getD {}).Placed ix.grammar.network j)
    (token : Option String) {items : OrderedSet Item}
    (hitems : ∀ i ∈ items.toList, i.Placed ix.grammar.network done.size) :
    ∃ d, Closes ix token done items d.column.items.toList d ∧ close ix token done items = .ok d ∧
      d.Placed ix.grammar.network done.size := by
  obtain ⟨d, hloop, hd⟩ := Queue.exists_loop (fun d : Draft => d.column.items)
    (fun d item => d.expand ix token done item)
    (fun d => d.Placed ix.grammar.network done.size)
    (ix.grammar.network.states.size * (done.size + 1)) (s := { column := { items } })
    Draft.items_prefix_of_expand
    (fun hd hi => (Draft.expand_yields hix hd hdone (hd.column.items _ hi)))
    (fun hd => length_items_le hd.column.items)
    ⟨⟨hitems, fun w hw => absurd hw (Array.not_mem_empty w)⟩, fun i hi => by cases hi⟩
  refine ⟨d, hloop, ?_, hd⟩
  obtain ⟨n, hloop⟩ := hloop
  refine hloop.run_eq (fun b q => closeFrom ix token done b q.1 q.2) Prod.snd
    (fun b q h => ?_) (fun b q a q' ha hq => ?_)
    (Nat.le_succ_of_le (length_items_le hd.column.items))
  · have h : q.2.column.items.get? q.1 = none := h
    cases b with
    | zero => rfl
    | succ b =>
      unfold closeFrom
      rw [h]
  · have ha : q.2.column.items.get? q.1 = some a := ha
    obtain ⟨d', hd', hq⟩ := bind_eq_ok.1 hq
    obtain rfl := pure_eq_ok.1 hq
    conv_lhs => unfold closeFrom
    simp only [ha, hd', bind, Except.bind]

/-- The columns are filled without fail, and are what the loops make of them: one for each token and
one more, with all items placed. -/
theorem exists_fills (types : List String)
    (hdone : ∀ j < done.size, ((done[j]?).getD {}).Placed ix.grammar.network j)
    {items : OrderedSet Item} (hitems : ∀ i ∈ items.toList, i.Placed ix.grammar.network done.size) :
    ∃ columns, (fill ix done items types).result = .ok columns ∧ Fills ix done items types columns ∧
      columns.size = done.size + types.length + 1 ∧
      ∀ j < columns.size, ((columns[j]?).getD {}).Placed ix.grammar.network j := by
  induction types generalizing done items with
  | nil =>
    unfold fill
    cases hempty : items.isEmpty with
    | true =>
      have hcolumns : done.push ({} : Column) =
          done ++ Array.replicate (([] : List String).length + 1) ({} : Column) := by simp
      exact ⟨done.push {}, rfl, hcolumns ▸ .stop hempty, by simp, placed_push hdone .empty⟩
    | false =>
      obtain ⟨d, hcloses, hd, hplaced⟩ := exists_closes hix hdone none hitems
      exact ⟨_, by rw [hd]; rfl, .last hempty hcloses, by simp, placed_push hdone hplaced.column⟩
  | cons t rest ih =>
    unfold fill
    cases hempty : items.isEmpty with
    | true =>
      refine ⟨_, rfl, .stop hempty, by simp; omega, fun j hj => ?_⟩
      rw [Array.getElem?_append]
      split
      · exact hdone j (by assumption)
      · rw [Array.getElem?_replicate]
        split <;> exact .empty
    | false =>
      obtain ⟨d, hcloses, hd, hplaced⟩ := exists_closes hix hdone (some t) hitems
      obtain ⟨columns, hcolumns, hfills, hsize, hall⟩ :=
        ih (placed_push hdone hplaced.column) fun i hi => by
          rw [Array.size_push]
          exact hplaced.next i hi
      refine ⟨columns, by rw [hd]; exact hcolumns, .next hempty hcloses hfills, ?_, hall⟩
      rw [hsize, Array.size_push, List.length_cons]
      omega

end Column

end RuleNetwork
