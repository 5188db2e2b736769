import RuleNetwork.Proofs.Chart.Filling
import RuleNetwork.Proofs.Run.Transport

/-!
A chart holds exactly the visits that runs reach. So an input is accepted just if the start rule
derives it, with or without the token that ends it, and the last column with an item is where the
longest run stops.
-/

set_option autoImplicit false

namespace RuleNetwork

open Network

/-- The network that a chart is about. -/
abbrev Chart.network (c : Chart) : Network := c.index.grammar.network

/-- A chart of the rule of a number that holds exactly the visits that runs reach. -/
structure Chart.Recognizes (c : Chart) (i : Nat) (types : List String) : Prop where
  index : c.index.Proper
  rule : i < c.index.grammar.rules.size
  input : c.types = types.toArray
  startRule : c.startRule = i
  goal : c.goal = ⟨stopState i, 0⟩
  size : c.columns.size = types.length + 1
  contains : ∀ v, c.contains v = true ↔ c.index.grammar.network.Reaches types (startState i) v

section Reached

variable {n : Network} {rules i : Nat} {types : List String}

theorem bounded_reaches (hp : n.Proper rules) (hi : i < rules) :
    Bounded n (n.Reaches types (startState i)) := by
  rintro v ⟨ms, l, h⟩
  obtain ⟨j, hj, ms', h', ho⟩ := hp.exists_entry hi h
  exact ⟨⟨j, ho⟩, (run_position h').1⟩

theorem Network.Reaches.position_le {start : Int} {v : Visit} (h : n.Reaches types start v) :
    v.position ≤ types.length := by
  obtain ⟨ms, l, h⟩ := h
  have := (run_position h).2
  simp only [Config.enter] at this
  omega

/-- A rule is completed from the start of the input just if it derives what has been read. -/
theorem reaches_stop_iff (hp : n.Proper rules) (hi : i < rules) {r : Rule}
    (hstart : r.start = startState i) (hstop : r.stop = stopState i) {k : Nat} :
    n.Reaches types (startState i) ⟨stopState i, 0, k⟩ ↔ ∃ ms, n.IsDerivation types r k ms := by
  unfold IsDerivation
  rw [hstart, hstop]
  constructor
  · rintro ⟨ms, l, h⟩
    obtain ⟨j, -, ms', h', ho⟩ := hp.exists_entry hi h
    obtain rfl : j = i := Int.ofNat.inj (ho.unique (hp.owns_stop hi))
    exact ⟨ms', h'⟩
  · rintro ⟨ms, h⟩
    exact ⟨ms, [], h⟩

theorem exists_isDerivation_iff {r : Rule} {k : Nat} (hk : k ≤ types.length) :
    (∃ ms, n.IsDerivation types r k ms) ↔ n.Derives r (types.take k) := by
  unfold Derives IsDerivation
  rw [List.length_take, Nat.min_eq_left hk]
  constructor
  · rintro ⟨ms, h⟩
    exact ⟨ms, (run_take (Nat.le_refl k)).2 h⟩
  · rintro ⟨ms, h⟩
    exact ⟨ms, (run_take (Nat.le_refl k)).1 h⟩

/-- The visits reached are at every position up to the furthest one. -/
theorem exists_reaches_of_le {start : Int} {ms : List Move} {d : Config} {k : Nat}
    (h : n.run types (.enter start 0) ms = some d) (hk : k ≤ d.position) :
    ∃ v, n.Reaches types start v ∧ v.position = k := by
  obtain ⟨p, e, -, he, hpos⟩ := exists_prefix h (Nat.zero_le k) hk
  exact ⟨⟨e.state, e.origin, e.position⟩, ⟨p, e.callers, he⟩, hpos⟩

end Reached

namespace Chart

variable {ix : ChartIndex} {i : Nat} {types : List String}

theorem mem_column_iff {c : Chart} {v : Visit} :
    c.contains v = true ↔
      v.position < c.columns.size ∧ ⟨v.state, v.origin⟩ ∈ (columnAt c.columns v.position).items.toList := by
  unfold contains columnAt
  rw [Option.any_eq_true]
  constructor
  · rintro ⟨d, hd, hv⟩
    refine ⟨(Array.getElem?_eq_some_iff.1 hd).1, ?_⟩
    rw [hd]
    exact (OrderedSet.contains_iff _ _).1 hv
  · rintro ⟨hlt, hv⟩
    rw [Array.getElem?_eq_getElem hlt] at hv
    exact ⟨_, Array.getElem?_eq_getElem hlt, (OrderedSet.contains_iff _ _).2 hv⟩

/-- Full columns are closed. -/
theorem closed_of_filled {n : Network} {start : Int} {c : Visit → Prop} {columns : Array Column}
    {items : OrderedSet Item} (h : Filled n types start c columns items)
    (hsize : columns.size = types.length + 1) :
    n.Closed types start fun v =>
      v.position < columns.size ∧ ⟨v.state, v.origin⟩ ∈ (columnAt columns v.position).items.toList := by
  have hlt : ∀ {v}, Holds columns items v → v.position ≤ types.length →
      v.position < columns.size ∧
        ⟨v.state, v.origin⟩ ∈ (columnAt columns v.position).items.toList := by
    rintro v (hv | ⟨heq, -⟩) hle
    · exact hv
    · omega
  refine ⟨hlt h.start (Nat.zero_le _), ?_, ?_, ?_⟩
  · rintro s id o k k' t ⟨hk, hi⟩ ht hr
    simp only at hk
    have hb := hr.bounds
    exact hlt (h.read hk hi ht hr) (by simp only; omega)
  · rintro s id callee follow o k t ⟨hk, hi⟩ hc
    simp only at hk
    exact hlt (h.call hk hi hc).1 (by simp only; omega)
  · rintro s id callee follow z o k k' t ⟨hk, hi⟩ hc ⟨hk', hz⟩ he ho
    simp only at hk hk'
    have hw := (h.call hk hi hc).2
    exact hlt (h.ends hk' hz he ho hk _ (Column.mem_resuming.2 hw)) (by simp only; omega)

/-- Recognizing never fails. -/
theorem recognize_ok (hix : ix.Proper) (hi : i < ix.grammar.rules.size) (types : List String) :
    ∃ c, (recognize ix types i).result = .ok c ∧ c.index = ix ∧ c.Recognizes i types := by
  have hp := hix.grammar.network
  have hc : ix.grammar.network.Closed types (startState i) _ := closed_reaches hp hi
  have hb : Bounded ix.grammar.network (ix.grammar.network.Reaches types (startState i)) :=
    bounded_reaches hp hi
  have h₀ : Filled ix.grammar.network types (startState i)
      (ix.grammar.network.Reaches types (startState i)) #[] (.ofList [⟨startState i, 0⟩]) := by
    refine ⟨fun k hk => absurd hk (Nat.not_lt_zero k), fun j hj => ?_, .inr ⟨rfl, ?_⟩,
      fun hk => absurd hk (Nat.not_lt_zero _), fun hk => absurd hk (Nat.not_lt_zero _),
      fun hk => absurd hk (Nat.not_lt_zero _)⟩
    · rw [List.mem_singleton.1 ((OrderedSet.mem_toList_ofList _ _).1 hj)]
      exact .start_visit
    · exact (OrderedSet.mem_toList_ofList _ _).2 (List.mem_singleton_self _)
  obtain ⟨columns, items, hfill, hsize, hfilled⟩ :=
    fill_ok hix.grammar hc hb types h₀ (List.drop_zero) (Nat.zero_add _)
  obtain ⟨-, hs, hst⟩ := hix.grammar.rule (Array.getElem?_eq_getElem hi)
  refine ⟨⟨ix, types.toArray, i, ⟨stopState i, 0⟩, columns⟩, ?_, rfl,
    hix, hi, rfl, rfl, rfl, hsize, fun v => ?_⟩
  · unfold recognize
    rw [ChartIndex.rule_ok hi]
    simp only [hs, hst, hfill, Except.map]
  · rw [mem_column_iff]
    constructor
    · rintro ⟨hk, hv⟩
      exact (hfilled.within v.position hk).items _ hv
    · exact fun h => (closed_of_filled hfilled hsize).of_reaches hp hi h

end Chart

theorem lt_length_takeWhile_iff {α : Type} {p : α → Bool} {l : List α} {k : Nat} :
    k < (l.takeWhile p).length ↔ ∀ j ≤ k, ∃ a, l[j]? = some a ∧ p a = true := by
  induction l generalizing k with
  | nil =>
    simp only [List.takeWhile_nil, List.length_nil, Nat.not_lt_zero, List.getElem?_nil, reduceCtorEq,
      false_and, exists_false, imp_false, false_iff, not_forall]
    exact ⟨k, fun h => h (Nat.le_refl k)⟩
  | cons a l ih =>
    by_cases ha : p a = true
    · rw [List.takeWhile_cons_of_pos ha, List.length_cons]
      constructor
      · intro hk j hj
        cases j with
        | zero => exact ⟨a, rfl, ha⟩
        | succ j =>
          have hk' : k - 1 < (l.takeWhile p).length := by omega
          exact ih.1 hk' j (by omega)
      · intro h
        cases k with
        | zero => omega
        | succ k =>
          have hk : k < (l.takeWhile p).length := ih.2 fun j hj => h (j + 1) (by omega)
          omega
    · rw [List.takeWhile_cons_of_neg ha]
      constructor
      · intro hk
        exact absurd hk (Nat.not_lt_zero k)
      · intro h
        obtain ⟨b, hb, hpb⟩ := h 0 (Nat.zero_le k)
        cases hb
        exact absurd hpb ha

namespace Chart.Recognizes

variable {c : Chart} {i : Nat} {types : List String}

theorem contains_goal (h : c.Recognizes i types) {r : Rule} (hr : c.index.grammar.rules[i]? = some r)
    {k : Nat} (hk : k ≤ types.length) :
    c.contains ⟨c.goal.state, c.goal.origin, k⟩ = true ↔
      c.index.grammar.network.Derives r (types.take k) := by
  obtain ⟨-, hstart, hstop⟩ := h.index.grammar.rule hr
  rw [h.contains, h.goal, reaches_stop_iff h.index.grammar.network h.rule hstart hstop,
    exists_isDerivation_iff hk]

/-- A column has an item just if some run comes so far. -/
theorem column_iff (h : c.Recognizes i types) {k : Nat} :
    (∃ d, c.columns.toList[k]? = some d ∧ (!d.items.isEmpty) = true) ↔
      ∃ v, c.index.grammar.network.Reaches types (startState i) v ∧ v.position = k := by
  constructor
  · rintro ⟨d, hd, hne⟩
    have hlist : d.items.toList ≠ [] := by
      intro hnil
      rw [(OrderedSet.isEmpty_iff _).2 hnil] at hne
      cases hne
    obtain ⟨item, hitem⟩ := List.exists_mem_of_ne_nil _ hlist
    rw [Array.getElem?_toList] at hd
    refine ⟨⟨item.state, item.origin, k⟩, (h.contains _).1 (Chart.mem_column_iff.2 ⟨?_, ?_⟩), rfl⟩
    · exact (Array.getElem?_eq_some_iff.1 hd).1
    · simp only [columnAt, hd]
      exact hitem
  · rintro ⟨v, hv, rfl⟩
    obtain ⟨hlt, hmem⟩ := Chart.mem_column_iff.1 ((h.contains v).2 hv)
    refine ⟨columnAt c.columns v.position, ?_, ?_⟩
    · rw [Array.getElem?_toList, columnAt, Array.getElem?_eq_getElem hlt]
      rfl
    · cases he : (columnAt c.columns v.position).items.isEmpty with
      | false => rfl
      | true =>
        rw [(OrderedSet.isEmpty_iff _).1 he] at hmem
        exact absurd hmem List.not_mem_nil

theorem lt_columns_iff (h : c.Recognizes i types) {k : Nat} :
    k < (c.columns.toList.takeWhile fun d => !d.items.isEmpty).length ↔
      ∃ v, c.index.grammar.network.Reaches types (startState i) v ∧ v.position = k := by
  rw [lt_length_takeWhile_iff]
  constructor
  · exact fun hk => h.column_iff.1 (hk k (Nat.le_refl k))
  · rintro ⟨v, ⟨ms, l, hrun⟩, rfl⟩ j hj
    exact h.column_iff.2 (exists_reaches_of_le hrun hj)

/-- The last column with an item is where the longest run stops. -/
theorem furthest_spec (h : c.Recognizes i types) :
    (∃ v, c.index.grammar.network.Reaches types (startState i) v ∧ v.position = c.furthest) ∧
      ∀ v, c.index.grammar.network.Reaches types (startState i) v → v.position ≤ c.furthest := by
  have h₀ := h.lt_columns_iff.2 ⟨_, .start_visit, rfl⟩
  unfold furthest
  refine ⟨h.lt_columns_iff.1 (by omega), fun v hv => ?_⟩
  have := h.lt_columns_iff.2 ⟨v, hv, rfl⟩
  omega

section Verdict

variable {body : List String} {last : String} {r : Rule}

theorem contains_full (h : c.Recognizes i (body ++ [last]))
    (hr : c.index.grammar.rules[i]? = some r) :
    c.contains ⟨c.goal.state, c.goal.origin, body.length + 1⟩ = true ↔
      c.index.grammar.network.Derives r (body ++ [last]) := by
  rw [h.contains_goal hr (by simp), List.take_of_length_le (by simp)]

theorem contains_body (h : c.Recognizes i (body ++ [last]))
    (hr : c.index.grammar.rules[i]? = some r) :
    c.contains ⟨c.goal.state, c.goal.origin, body.length⟩ = true ↔
      c.index.grammar.network.Derives r body := by
  rw [h.contains_goal hr (by simp), List.take_left]

theorem accept?_eq (h : c.Recognizes i (body ++ [last])) :
    c.accept? = [body.length + 1, body.length].find? fun k =>
      c.contains ⟨c.goal.state, c.goal.origin, k⟩ := by
  unfold accept?
  rw [h.input]
  simp

theorem accept?_of_full (h : c.Recognizes i (body ++ [last]))
    (hr : c.index.grammar.rules[i]? = some r)
    (hd : c.index.grammar.network.Derives r (body ++ [last])) :
    c.accept? = some (body.length + 1) := by
  rw [h.accept?_eq, List.find?_cons, (h.contains_full hr).2 hd]

theorem accept?_of_body (h : c.Recognizes i (body ++ [last]))
    (hr : c.index.grammar.rules[i]? = some r)
    (hn : ¬ c.index.grammar.network.Derives r (body ++ [last]))
    (hd : c.index.grammar.network.Derives r body) : c.accept? = some body.length := by
  have hfull : c.contains ⟨c.goal.state, c.goal.origin, body.length + 1⟩ = false :=
    Bool.eq_false_iff.2 fun hc => hn ((h.contains_full hr).1 hc)
  rw [h.accept?_eq, List.find?_cons, hfull, List.find?_cons, (h.contains_body hr).2 hd]

theorem isAccepted_iff (h : c.Recognizes i (body ++ [last]))
    (hr : c.index.grammar.rules[i]? = some r) :
    c.isAccepted = true ↔ c.index.grammar.network.Derives r body ∨
      c.index.grammar.network.Derives r (body ++ [last]) := by
  unfold isAccepted
  rw [h.accept?_eq, List.find?_isSome]
  simp only [List.mem_cons, List.not_mem_nil, or_false, exists_eq_or_imp, exists_eq_left,
    h.contains_full hr, h.contains_body hr]
  exact or_comm

end Verdict

end Chart.Recognizes

end RuleNetwork
