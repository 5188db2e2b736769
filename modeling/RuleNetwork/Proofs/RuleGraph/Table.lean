import Mathlib.Algebra.BigOperators.Group.List.Lemmas
import RuleNetwork.Proofs.Validation.Walks

/-!
The call table of a sound grammar. It is filled without fail, one row for each rule, and a row lists
just the rules that the calls of its rule name.

The calls of a rule are counted while its row is filled: the row lists the callees as they come first, and
each pair of caller and callee is counted as often as the calls of the one name the other. So the counts
add up to the calls of all rules.
-/

set_option autoImplicit false

namespace RuleNetwork

namespace Grammar

variable {g : Grammar}

/-- A call that a walk in the one rule comes by names the other. -/
def CallsRule (g : Grammar) (caller callee : Int) : Prop :=
  ∃ l, g.calls caller = .ok l ∧ ∃ t ∈ l, t.rule = some callee

/-- No two rules of a sound grammar have one number. -/
theorem Sound.nodup_indices (hg : g.Sound) : (g.ruleList.map Rule.index).Nodup := by
  rw [List.nodup_iff_getElem?_ne_getElem?]
  intro i j hij hj heq
  simp only [List.length_map] at hj
  have hi : i < g.ruleList.length := Nat.lt_trans hij hj
  simp only [List.getElem?_map, List.getElem?_eq_getElem hi, List.getElem?_eq_getElem hj,
    Option.map_some, Option.some.injEq] at heq
  have hindex : ∀ {k : Nat} (hk : k < g.ruleList.length), g.ruleList[k].index = k := fun {k} hk =>
    hg.index (by rw [← Array.getElem?_toList]; exact List.getElem?_eq_getElem hk)
  rw [hindex hi, hindex hj] at heq
  omega

end Grammar

namespace CallTable

variable {g : Grammar} {t : CallTable}

/-- The rules found so far have their rows, and calls have been counted for these rules only. -/
structure Lists (t : CallTable) (g : Grammar) (found : List Rule) : Prop where
  rows : ∀ {k row}, t.callees.get? k = some row →
    (∃ r ∈ found, r.index = k) ∧ ∀ c, c ∈ row ↔ g.CallsRule k c
  known : ∀ r ∈ found, (t.callees.get? r.index).isSome
  sites : ∀ {k c}, (t.sites.get? (k, c)).isSome → ∃ r ∈ found, r.index = k

theorem lists_empty : Lists {} g [] where
  rows h := by cases h
  known r hr := by cases hr
  sites h := by cases h

/-- The calls of one rule counted so far are those of the callees listed so far. -/
theorem mem_foldl_note (caller : Int) (callees : List Int)
    (row : List Int × OrderedMap (Int × Int) Nat)
    (h : ∀ c, (row.2.get? (caller, c)).isSome ↔ c ∈ row.1) :
    (∀ c, c ∈ (callees.foldl (note caller) row).1 ↔ c ∈ row.1 ∨ c ∈ callees) ∧
      ∀ k c, ((callees.foldl (note caller) row).2.get? (k, c)).isSome →
        k = caller ∨ (row.2.get? (k, c)).isSome := by
  induction callees generalizing row with
  | nil => exact ⟨fun c => by simp, fun k c hc => .inr hc⟩
  | cons a callees ih =>
    -- noting a callee lists it unless it is listed, and counts the call
    have hnote : (∀ c, c ∈ (note caller row a).1 ↔ c ∈ row.1 ∨ c = a) ∧
        ∀ k c, ((note caller row a).2.get? (k, c)).isSome ↔
          (caller, a) = (k, c) ∨ (row.2.get? (k, c)).isSome := by
      unfold note
      cases ha : row.2.get? (caller, a) with
      | some n =>
        have hmem : a ∈ row.1 := (h a).1 (by rw [ha]; rfl)
        refine ⟨fun c => ⟨.inl, ?_⟩, fun k c => ?_⟩
        · rintro (hc | rfl)
          · exact hc
          · exact hmem
        · simp only [OrderedMap.get?_put]
          split <;> simp_all
      | none =>
        refine ⟨fun c => by simp, fun k c => ?_⟩
        simp only [OrderedMap.get?_put]
        split <;> simp_all
    have hnext : ∀ c, ((note caller row a).2.get? (caller, c)).isSome ↔ c ∈ (note caller row a).1 := by
      intro c
      rw [hnote.1, hnote.2, h, Prod.mk.injEq]
      constructor
      · rintro (⟨-, rfl⟩ | hc)
        · exact .inr rfl
        · exact .inl hc
      · rintro (hc | rfl)
        · exact .inr hc
        · exact .inl ⟨rfl, rfl⟩
    obtain ⟨hrow, hsites⟩ := ih (note caller row a) hnext
    rw [List.foldl_cons]
    refine ⟨fun c => ?_, fun k c hc => ?_⟩
    · rw [hrow, hnote.1, List.mem_cons, or_assoc]
    · obtain rfl | hc := hsites k c hc
      · exact .inl rfl
      · exact ((hnote.2 k c).1 hc).imp (fun he => (congrArg Prod.fst he).symm) id

theorem lists_addRule (hg : g.Sound) {found : List Rule} {r : Rule} (hr : r ∈ g.ruleList)
    (hnew : ∀ d ∈ found, d.index ≠ r.index) (h : t.Lists g found) :
    Yields (addRule g t r) (·.Lists g (found ++ [r])) := by
  obtain ⟨calls, hcalls, hresolve⟩ := hg.calls_yields ⟨r, hr, rfl⟩
  have hcheck : Yields ((calls.filterMap Transition.rule).forM fun c => do
      let _ ← g.ruleAt c) fun _ => True := by
    refine .forM fun c hc => ?_
    obtain ⟨x, hx, hrule⟩ := List.mem_filterMap.1 hc
    exact (hg.ruleAt_yields (hg.numbers_callee (hresolve x hx).2 (hresolve x hx).1 hrule)).bind
      fun _ _ => .ok trivial
  have hfresh : ∀ c, (t.sites.get? (r.index, c)).isSome ↔ c ∈ ([] : List Int) := fun c => by
    constructor
    · intro hc
      obtain ⟨d, hd, hindex⟩ := h.sites hc
      exact absurd hindex (hnew d hd)
    · intro hc
      cases hc
  obtain ⟨hrow, hsites⟩ := mem_foldl_note r.index (calls.filterMap Transition.rule) ([], t.sites) hfresh
  have hlast : r ∈ found ++ [r] := List.mem_append_right _ (List.mem_singleton_self _)
  refine exists_bind hcalls (hcheck.bind fun _ _ => .ok ⟨fun {k row} hk => ?_, fun d hd => ?_, ?_⟩)
  · rw [OrderedMap.get?_put] at hk
    split at hk
    · rename_i heq
      subst heq
      cases hk
      refine ⟨⟨r, hlast, rfl⟩, fun c => (hrow c).trans ?_⟩
      simp only [List.not_mem_nil, false_or, List.mem_filterMap]
      constructor
      · exact fun hx => ⟨calls, hcalls, hx⟩
      · rintro ⟨calls', hcalls', x, hx, hc⟩
        rw [hcalls] at hcalls'
        cases hcalls'
        exact ⟨x, hx, hc⟩
    · obtain ⟨⟨d, hd, hindex⟩, hmem⟩ := h.rows hk
      exact ⟨⟨d, List.mem_append_left _ hd, hindex⟩, hmem⟩
  · rw [OrderedMap.get?_put]
    split
    · rfl
    · rename_i hne
      obtain hd | hd := List.mem_append.1 hd
      · exact h.known d hd
      · exact absurd (by rw [List.mem_singleton.1 hd]) hne
  · intro k c hc
    obtain rfl | hc := hsites k c hc
    · exact ⟨r, hlast, rfl⟩
    · obtain ⟨d, hd, hindex⟩ := h.sites hc
      exact ⟨d, List.mem_append_left _ hd, hindex⟩

end CallTable

namespace Grammar.Sound

variable {g : Grammar} (hg : g.Sound)
include hg

/-- What adding a rule keeps is known of the table in the end. -/
theorem callTable_induction {P : List Rule → CallTable → Prop} (hstart : P [] {})
    (hstep : ∀ found, ∀ r ∈ g.ruleList, (∀ d ∈ found, d.index ≠ r.index) → ∀ t, P found t →
      Yields (CallTable.addRule g t r) (P (found ++ [r]))) : Yields g.callTable (P g.ruleList) := by
  have key : ∀ (l found : List Rule) (t : CallTable), found ++ l = g.ruleList → P found t →
      Yields (l.foldlM (CallTable.addRule g) t) (P g.ruleList) := by
    intro l
    induction l with
    | nil =>
      intro found t hl h
      rw [List.append_nil] at hl
      rw [← hl]
      exact .ok h
    | cons r l ih =>
      intro found t hl h
      have hnodup := hg.nodup_indices
      rw [← hl, List.map_append, List.map_cons] at hnodup
      have hnew : ∀ d ∈ found, d.index ≠ r.index := fun d hd =>
        (List.nodup_append.1 hnodup).2.2 _ (List.mem_map_of_mem hd) _ (List.mem_cons_self ..)
      have hr : r ∈ g.ruleList := by
        rw [← hl]
        exact List.mem_append_right _ (List.mem_cons_self ..)
      rw [List.foldlM_cons]
      exact (hstep found r hr hnew t h).bind fun t' h' => ih _ t' (by simp [← hl]) h'
  exact key g.ruleList [] {} rfl hstart

theorem callTable_yields : Yields g.callTable (·.Lists g g.ruleList) :=
  hg.callTable_induction CallTable.lists_empty fun _ _ hr hnew _ => CallTable.lists_addRule hg hr hnew

theorem numbers_of_callsRule {a b : Int} (ha : g.Numbers a) (h : g.CallsRule a b) : g.Numbers b := by
  obtain ⟨l, hl, t, ht, hrule⟩ := h
  obtain ⟨hk, hres⟩ := (hg.calls_yields ha).of_eq hl t ht
  exact hg.numbers_callee hres hk hrule

end Grammar.Sound

namespace CallTable.Lists

variable {t : CallTable} {g : Grammar} (h : t.Lists g g.ruleList)
include h

/-- The callees listed for a rule are those that its calls name. -/
theorem mem_calleesOf {a b : Int} : b ∈ t.calleesOf a ↔ g.Numbers a ∧ g.CallsRule a b := by
  unfold calleesOf
  cases hrow : t.callees.get? a with
  | some row =>
    obtain ⟨hnum, hmem⟩ := h.rows hrow
    exact (hmem b).trans ⟨fun hb => ⟨hnum, hb⟩, And.right⟩
  | none =>
    simp only [Option.getD_none, List.not_mem_nil, false_iff]
    rintro ⟨⟨r, hr, rfl⟩, -⟩
    have := h.known r hr
    rw [hrow] at this
    cases this

end CallTable.Lists

namespace Grammar

/-- The calls of a rule, found by a search on lists. -/
def listedCalls (g : Grammar) (rule : Int) : Except Fault (List Transition) := do
  let r ← g.ruleAt rule
  let states ← Search.spreadList g.network.steps g.network.walkBound [r.start] 0
  return (← states.mapM g.network.outgoing).flatten.filter fun t => t.kind == .ruleCall

theorem calls_eq_listedCalls (g : Grammar) (rule : Int) : g.calls rule = g.listedCalls rule := by
  unfold listedCalls calls transitionsOf walk Search.breadthFirst
  cases g.ruleAt rule with
  | error e => rfl
  | ok r =>
    have h := Search.toList_spread g.network.steps g.network.walkBound (.ofList [r.start]) 0
    rw [OrderedSet.toList_ofList_singleton] at h
    simp only [bind, Except.bind, pure, Except.pure, ← h]
    cases Search.spread g.network.steps g.network.walkBound (.ofList [r.start]) 0 with
    | error e => rfl
    | ok s =>
      simp only [Except.map]
      cases s.toList.mapM g.network.outgoing <;> rfl

/-- The call table, made from calls found on lists. -/
theorem callTable_eq (g : Grammar) : g.callTable = g.ruleList.foldlM (fun t r => do
    let callees := (← g.listedCalls r.index).filterMap Transition.rule
    callees.forM fun c => do
      let _ ← g.ruleAt c
    let (row, sites) := callees.foldl (CallTable.note r.index) ([], t.sites)
    .ok ⟨t.callees.put r.index row, sites⟩) {} := by
  unfold callTable
  congr 1
  funext t r
  rw [CallTable.addRule, calls_eq_listedCalls]

end Grammar

/-- The different members of a list stand in it, all together, as often as it is long. -/
theorem sum_count_ofList {α : Type} [DecidableEq α] [Hashable α] (l : List α) :
    ((OrderedSet.ofList l).toList.map fun a => l.count a).sum = l.length := by
  have hperm : (OrderedSet.ofList l).toList.Perm l.dedup := by
    refine (List.perm_ext_iff_of_nodup (OrderedSet.nodup_toList _) l.nodup_dedup).2 fun a => ?_
    rw [OrderedSet.mem_toList_ofList, List.mem_dedup]
  rw [(hperm.map _).sum_eq, List.sum_map_count_dedup_eq_length]

/-- Lists made one for each member of another, of lengths that are known. -/
theorem exists_mapM_length {ε α β : Type} {f : α → Except ε (List β)} {n : α → Nat} {l : List α}
    (h : ∀ a ∈ l, ∃ row, f a = .ok row ∧ row.length = n a) :
    ∃ rows, l.mapM f = .ok rows ∧ rows.flatten.length = (l.map n).sum := by
  induction l with
  | nil => exact ⟨[], rfl, rfl⟩
  | cons a l ih =>
    obtain ⟨row, hrow, hlength⟩ := h a (List.mem_cons_self ..)
    obtain ⟨rows, hrows, hsum⟩ := ih fun b hb => h b (List.mem_cons_of_mem _ hb)
    refine ⟨row :: rows, mapM_eq_ok.2 (.cons hrow (mapM_eq_ok.1 hrows)), ?_⟩
    rw [List.flatten_cons, List.length_append, hlength, hsum, List.map_cons, List.sum_cons]

namespace CallTable

variable {g : Grammar} {t t' : CallTable}

/-- The calls of a rule that has no counts yet, counted one after the other. -/
theorem foldl_note (caller : Int) (callees : List Int) (sites : OrderedMap (Int × Int) Nat)
    (hfresh : ∀ c, sites.get? (caller, c) = none) :
    (callees.foldl (note caller) ([], sites)).1 = (OrderedSet.ofList callees).toList ∧
      ∀ k c, (callees.foldl (note caller) ([], sites)).2.get? (k, c) =
        if k = caller ∧ c ∈ callees then some (callees.count c) else sites.get? (k, c) := by
  induction callees using List.reverseRecOn with
  | nil => exact ⟨rfl, fun k c => by simp⟩
  | append_singleton callees a ih =>
    obtain ⟨hrow, hsites⟩ := ih
    rw [List.foldl_append, List.foldl_cons, List.foldl_nil]
    generalize callees.foldl (note caller) ([], sites) = row at hrow hsites
    -- a callee that has not been met counts as met no times
    have hnote : note caller row a = (if a ∈ callees then row.1 else row.1 ++ [a],
        row.2.put (caller, a) (callees.count a + 1)) := by
      have hseen := hsites caller a
      unfold note
      by_cases ha : a ∈ callees
      · rw [if_pos ⟨rfl, ha⟩] at hseen
        simp only [hseen, if_pos ha]
      · rw [if_neg fun h => ha h.2, hfresh] at hseen
        simp only [hseen, if_neg ha, List.count_eq_zero_of_not_mem ha]
    rw [hnote]
    refine ⟨by rw [OrderedSet.toList_ofList_append_singleton, hrow], fun k c => ?_⟩
    simp only [OrderedMap.get?_put, hsites, Prod.mk.injEq]
    by_cases hk : k = caller
    · by_cases hc : c = a
      · simp [hk, hc]
      · simp [hk, hc, Ne.symm hc, List.count_append]
    · simp [hk, Ne.symm hk]

/-- A rule adds its own row and its own counts, and changes no others. -/
theorem addRule_ok {r : Rule} (hfresh : ∀ c, t.sites.get? (r.index, c) = none)
    (hadd : addRule g t r = .ok t') : ∃ l, g.calls r.index = .ok l ∧
      (∀ k, t'.calleesOf k = if k = r.index then (OrderedSet.ofList (l.filterMap Transition.rule)).toList
        else t.calleesOf k) ∧
      ∀ k c, t'.sitesOf k c = if k = r.index then (l.filterMap Transition.rule).count c
        else t.sitesOf k c := by
  obtain ⟨l, hl, hadd⟩ := bind_eq_ok.1 hadd
  obtain ⟨-, -, hadd⟩ := bind_eq_ok.1 hadd
  obtain rfl := Except.ok.inj hadd
  obtain ⟨hrow, hsites⟩ := foldl_note r.index (l.filterMap Transition.rule) t.sites hfresh
  refine ⟨l, hl, fun k => ?_, fun k c => ?_⟩
  · simp only [calleesOf, OrderedMap.get?_put, hrow]
    by_cases hk : k = r.index
    · simp [hk]
    · simp [hk, Ne.symm hk]
  · simp only [sitesOf, hsites]
    by_cases hk : k = r.index
    · subst hk
      by_cases hc : c ∈ l.filterMap Transition.rule
      · simp [hc]
      · simp [hc, hfresh, List.count_eq_zero_of_not_mem hc]
    · simp [hk]

/-- The rows and the counts of the rules found so far are those of their calls. -/
def Counts (t : CallTable) (g : Grammar) (found : List Rule) : Prop :=
  ∀ r ∈ found, ∃ l, g.calls r.index = .ok l ∧
    t.calleesOf r.index = (OrderedSet.ofList (l.filterMap Transition.rule)).toList ∧
    ∀ c, t.sitesOf r.index c = (l.filterMap Transition.rule).count c

theorem counts_addRule {found : List Rule} {r : Rule} (hnew : ∀ d ∈ found, d.index ≠ r.index)
    (hlists : t.Lists g found) (h : t.Counts g found) (hadd : addRule g t r = .ok t') :
    t'.Counts g (found ++ [r]) := by
  have hfresh : ∀ c, t.sites.get? (r.index, c) = none := fun c => by
    rw [← Option.not_isSome_iff_eq_none]
    intro hc
    obtain ⟨d, hd, hindex⟩ := hlists.sites hc
    exact hnew d hd hindex
  obtain ⟨l, hl, hcallees, hsites⟩ := addRule_ok hfresh hadd
  intro d hd
  simp only [hcallees, hsites]
  obtain hd | hd := List.mem_append.1 hd
  · simp only [if_neg (hnew d hd)]
    exact h d hd
  · obtain rfl := List.mem_singleton.1 hd
    simp only [if_true]
    exact ⟨l, hl, rfl, fun _ => rfl⟩

end CallTable

namespace Grammar

variable {g : Grammar}

/-- All calls that walks in the rules come by, rule by rule. -/
def allCalls (g : Grammar) : Except Fault (List Transition) := do
  let rows ← g.ruleList.mapM fun r => do
    let states ← g.walk r.index
    let out ← states.mapM g.network.outgoing
    return out.flatten.filter fun t => t.kind == .ruleCall
  return rows.flatten

namespace Sound

variable (hg : g.Sound)
include hg

theorem counts_callTable {t : CallTable} (h : g.callTable = .ok t) : t.Counts g g.ruleList := by
  have hkept := hg.callTable_induction (P := fun found t => t.Lists g found ∧ t.Counts g found)
    ⟨CallTable.lists_empty, fun r hr => absurd hr List.not_mem_nil⟩
    fun found r hr hnew t ⟨hlists, hcounts⟩ => by
      obtain ⟨t', hadd, hlists'⟩ := CallTable.lists_addRule hg hr hnew hlists
      exact .of_ok hadd ⟨hlists', CallTable.counts_addRule hnew hlists hcounts hadd⟩
  exact (hkept.of_eq h).2

/-- Every call of a rule names a callee. -/
theorem length_callees {r : Rule} (hr : r ∈ g.ruleList) {l : List Transition}
    (hl : g.calls r.index = .ok l) : (l.filterMap Transition.rule).length = l.length := by
  rw [List.length_filterMap_eq_countP, List.countP_eq_length]
  intro t ht
  obtain ⟨hk, hresolves⟩ := (hg.calls_yields ⟨r, hr, rfl⟩).of_eq hl t ht
  obtain ⟨callee, follow, -, hcall, -⟩ := hresolves.call hk
  obtain ⟨-, hrule, -⟩ := Transition.of_call? hcall
  rw [hrule]
  rfl

/-- The counts of all rows add up to the calls of all rules. -/
theorem sum_sites {t : CallTable} (h : g.callTable = .ok t) : ∃ calls, g.allCalls = .ok calls ∧
    calls.length = (g.ruleList.map fun r => ((t.calleesOf r.index).map (t.sitesOf r.index)).sum).sum := by
  obtain ⟨rows, hrows, hlength⟩ := exists_mapM_length (l := g.ruleList)
    (n := fun r => ((t.calleesOf r.index).map (t.sitesOf r.index)).sum) fun r hr => by
    obtain ⟨l, hl, hcallees, hsites⟩ := hg.counts_callTable h r hr
    obtain ⟨out, hout, hl'⟩ := bind_eq_ok.1 hl
    obtain ⟨states, hstates, hout⟩ := bind_eq_ok.1 hout
    obtain ⟨rows, hrows, hout⟩ := bind_eq_ok.1 hout
    obtain rfl := Except.ok.inj hout
    refine ⟨l, bind_eq_ok.2 ⟨states, hstates, bind_eq_ok.2 ⟨rows, hrows, hl'⟩⟩, ?_⟩
    rw [hcallees, List.map_congr_left fun c _ => hsites c, sum_count_ofList, hg.length_callees hr hl]
  exact ⟨_, bind_eq_ok.2 ⟨rows, hrows, rfl⟩, hlength⟩

end Sound

end Grammar

end RuleNetwork
