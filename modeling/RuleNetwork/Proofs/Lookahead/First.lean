import RuleNetwork.Lookahead.Analysis
import RuleNetwork.Proofs.Lookahead.Inclusions
import RuleNetwork.Proofs.Lookahead.Nullable

/-!
Scans and FIRST sets. A scan meets what a run can do next without input: the tokens that it can read,
the rules that it can enter, and whether it can come to the end of its rule. The FIRST set of a rule
holds the tokens that runs from its start read first.
-/

set_option autoImplicit false

namespace RuleNetwork

open Network Relation

namespace OrderedMap

variable {α β : Type} [DecidableEq α]

theorem get?_ofList_of_some {l : List (α × β)} {k : α} {v : β} (h : (ofList l).get? k = some v) :
    (k, v) ∈ l := by
  unfold ofList at h
  induction l using List.reverseRecOn with
  | nil => cases h
  | append_singleton l e ih =>
    rw [List.foldl_append, List.foldl_cons, List.foldl_nil, get?_put] at h
    split at h
    · rename_i hk
      subst hk
      cases h
      exact List.mem_append_right _ (List.mem_singleton_self _)
    · exact List.mem_append_left _ (ih h)

theorem isSome_get?_ofList {l : List (α × β)} {e : α × β} (h : e ∈ l) :
    ((ofList l).get? e.1).isSome := by
  unfold ofList
  induction l using List.reverseRecOn with
  | nil => cases h
  | append_singleton l e' ih =>
    rw [List.foldl_append, List.foldl_cons, List.foldl_nil, get?_put]
    split
    · rfl
    · rename_i hk
      obtain h | h := List.mem_append.1 h
      · exact ih h
      · exact absurd (congrArg Prod.fst (List.mem_singleton.1 h)).symm hk

end OrderedMap

namespace Network

variable {n : Network} {s s' : Int} {x : String}

theorem Skips.begins (h : n.Skips s s') (hx : n.Begins s' x) : n.Begins s x := by
  obtain ⟨rest, ms, d, hd, hpos⟩ := hx
  obtain ⟨p, hp⟩ := h.run (x :: rest) 0 0
  exact ⟨rest, p ++ ms, d, run_trans hp hd, hpos⟩

theorem Leaves.begins {id : Int} {t : Transition} (ht : n.Leaves s id t) (hk : t.kind = .terminal)
    (hx : x ∈ t.tokens) : n.Begins s x :=
  ⟨[], [.along id], _, run_cons_iff.2 ⟨_, step_read ht
    ((Transition.reads_of_terminal hk).2 ⟨⟨x, rfl, hx⟩, rfl⟩), rfl⟩, Nat.zero_lt_one⟩

theorem Calls.begins {id callee follow : Int} {t : Transition} (hc : n.Calls s id t callee follow)
    (hx : n.Begins t.target x) : n.Begins s x := by
  obtain ⟨rest, ms, d, hd, hpos⟩ := hx
  exact ⟨rest, .along id :: ms, d.under [⟨follow, 0⟩],
    run_cons_iff.2 ⟨_, step_call hc, run_under hd [⟨follow, 0⟩]⟩, hpos⟩

/-- Some run from the state comes to a guard in the same invocation before it reads. -/
def ComesToGuard (n : Network) (s : Int) : Prop :=
  ∃ a id t, n.Skips s a ∧ n.Leaves a id t ∧ t.kind = .predicate

end Network

/-- A scan has met what can be done next from a state. -/
structure Scan.Meets (x : Scan) (n : Network) (s stop : Int) : Prop where
  tokens : ∀ y, y ∈ x.tokens ↔
    ∃ a id t, n.Skips s a ∧ n.Leaves a id t ∧ t.kind = .terminal ∧ y ∈ t.tokens
  callees : ∀ c, c ∈ x.callees ↔
    ∃ a id t, n.Skips s a ∧ n.Leaves a id t ∧ t.kind = .ruleCall ∧ t.rule = some c
  reachesStop : x.reachesStop = true ↔ n.Skips s stop
  hitsPredicate : x.hitsPredicate = true ↔ n.ComesToGuard s

namespace Scan

theorem mem_tokens_step {x : Scan} {t : Transition} {y : String} :
    y ∈ (x.step t).tokens ↔ y ∈ x.tokens ∨ t.kind = .terminal ∧ y ∈ t.tokens := by
  unfold step
  split <;> simp_all

theorem mem_callees_step {x : Scan} {t : Transition} {c : Int} :
    c ∈ (x.step t).callees ↔ c ∈ x.callees ∨ t.kind = .ruleCall ∧ t.rule = some c := by
  unfold step
  split <;> simp_all

theorem hitsPredicate_step {x : Scan} {t : Transition} :
    (x.step t).hitsPredicate = true ↔ x.hitsPredicate = true ∨ t.kind = .predicate := by
  unfold step
  split <;> simp_all

theorem reachesStop_step {x : Scan} {t : Transition} : (x.step t).reachesStop = x.reachesStop := by
  unfold step
  split <;> rfl

theorem mem_tokens_steps {l : List Transition} {x : Scan} {y : String} :
    y ∈ (l.foldl step x).tokens ↔ y ∈ x.tokens ∨ ∃ t ∈ l, t.kind = .terminal ∧ y ∈ t.tokens := by
  induction l generalizing x with
  | nil => simp
  | cons t l ih => simp only [List.foldl_cons, ih, mem_tokens_step, List.mem_cons, exists_eq_or_imp,
      or_assoc]

theorem mem_callees_steps {l : List Transition} {x : Scan} {c : Int} :
    c ∈ (l.foldl step x).callees ↔ c ∈ x.callees ∨ ∃ t ∈ l, t.kind = .ruleCall ∧ t.rule = some c := by
  induction l generalizing x with
  | nil => simp
  | cons t l ih => simp only [List.foldl_cons, ih, mem_callees_step, List.mem_cons, exists_eq_or_imp,
      or_assoc]

theorem hitsPredicate_steps {l : List Transition} {x : Scan} :
    (l.foldl step x).hitsPredicate = true ↔
      x.hitsPredicate = true ∨ ∃ t ∈ l, t.kind = .predicate := by
  induction l generalizing x with
  | nil => simp
  | cons t l ih => simp only [List.foldl_cons, ih, hitsPredicate_step, List.mem_cons,
      exists_eq_or_imp, or_assoc]

end Scan

namespace Grammar.Proper

variable {g : Grammar} (hg : g.Proper) {nullable : Int → Bool} {s : Int} {i : Nat}
include hg

theorem scanEdges_ok {stop : Int} (hstop : g.network.Ends stop) (hs : g.network.Has s) :
    ∃ l, g.scanEdges stop s = .ok l ∧ ∀ e, e ∈ l ↔ e.2 = e.1.next ∧ ∃ id, g.network.Leaves s id e.1 := by
  unfold scanEdges
  split
  · rename_i heq
    subst heq
    refine ⟨[], rfl, fun e => ⟨fun he => absurd he List.not_mem_nil, ?_⟩⟩
    rintro ⟨-, id, ht⟩
    exact absurd ht (not_leaves_of_ends hstop)
  · exact hg.network.edges_ok hs

theorem scanSteps_ok (nullable : Int → Bool) {stop : Int} (hstop : g.network.Ends stop)
    (hs : g.network.Has s) :
    ∃ l, g.scanSteps nullable stop s = .ok l ∧
      ∀ b, b ∈ l ↔ Search.Step (g.network.silentSteps nullable) s b := by
  obtain ⟨l, hl, hmem⟩ := hg.scanEdges_ok hstop hs
  refine ⟨_, bind_eq_ok.2 ⟨l, hl, rfl⟩, fun b => ?_⟩
  rw [hg.network.step_silentSteps_iff]
  simp only [List.mem_map, List.mem_filter, hmem]
  constructor
  · rintro ⟨e, ⟨⟨he, id, ht⟩, hsilent⟩, rfl⟩
    exact ⟨id, e.1, ht, hsilent, he.symm⟩
  · rintro ⟨id, t, ht, hsilent, rfl⟩
    exact ⟨(t, t.next), ⟨⟨rfl, id, ht⟩, hsilent⟩, rfl⟩

/-- Within the network a scan steps on like a walk without input. -/
theorem step_scanSteps_iff {stop b : Int} (hstop : g.network.Ends stop) (hs : g.network.Has s) :
    Search.Step (g.scanSteps nullable stop) s b ↔
      Search.Step (g.network.silentSteps nullable) s b := by
  obtain ⟨l, hl, hmem⟩ := hg.scanSteps_ok nullable hstop hs
  rw [Search.step_iff hl, hmem]

theorem universe_scanSteps (nullable : Int → Bool) {stop : Int} (hstop : g.network.Ends stop) :
    Search.Universe (g.scanSteps nullable stop) g.network.ids := fun a ha b hb =>
  hg.network.universe_silentSteps nullable a ha b
    ((hg.step_scanSteps_iff hstop (mem_ids_iff.1 ha)).1 hb)

theorem reach_scanSteps_iff {stop : Int} (hstop : g.network.Ends stop) (hs : g.network.Has s) {b : Int} :
    ReflTransGen (Search.Step (g.scanSteps nullable stop)) s b ↔
      ReflTransGen (Search.Step (g.network.silentSteps nullable)) s b := by
  refine reflTransGen_iff_inside (P := g.network.Has) (fun _ hstep => ?_)
    (fun ha => hg.step_scanSteps_iff hstop ha) hs
  obtain ⟨id, t, ht, -, rfl⟩ := hg.network.step_silentSteps_iff.1 hstep
  exact hg.network.has_next ht

/-- A scan takes the states that a run comes to without reading. -/
theorem met_ok (hnull : ∀ r, nullable r = true ↔ g.network.Null g.rules.size r) {stop : Int}
    (hstop : g.network.Ends stop) (hs : g.network.Has s) :
    ∃ met, Search.depthFirst (g.scanSteps nullable stop) (fun _ => false) g.network.walkBound s =
        .ok met ∧ ∀ a, a ∈ met ↔ g.network.Skips s a := by
  obtain ⟨met, hmet, -⟩ := Search.exists_depthFirst (P := g.network.Has)
    (fun a ha => by
      obtain ⟨l, hl, hmem⟩ := hg.scanSteps_ok nullable hstop ha
      refine ⟨l, hl, fun b hb => ?_⟩
      obtain ⟨id, t, ht, -, rfl⟩ := hg.network.step_silentSteps_iff.1 ((hmem b).1 hb)
      exact hg.network.has_next ht)
    (fun _ => false) g.network.walkBound hs
  refine ⟨met, hmet, fun a => ?_⟩
  rw [Search.mem_depthFirst_iff (hg.universe_scanSteps nullable hstop) (mem_ids_iff.2 hs)
    length_ids_le hmet, hg.reach_scanSteps_iff hstop hs, hg.network.reach_iff_skips hnull]

/-- A scan never fails, and meets what can be done next. -/
theorem scan_ok (hnull : ∀ r, nullable r = true ↔ g.network.Null g.rules.size r)
    (hi : i < g.rules.size) (hs : g.network.Owns i s) :
    ∃ x, g.scan nullable s = .ok x ∧ x.Meets g.network s (stopState i) := by
  have hstop := hg.network.ends_stop hi
  obtain ⟨st, hst, hrule⟩ := id hs
  obtain ⟨met, hmet, hmem⟩ := hg.met_ok hnull hstop hs.has
  have hhas : ∀ a ∈ met, g.network.Has a := fun a ha => by
    obtain ⟨ms, hms⟩ := (hmem a).1 ha
    exact (hg.network.owns_of_run hms hs).has
  obtain ⟨edges, hedges⟩ := exists_mapM (l := met) (f := g.scanEdges (stopState i)) fun a ha => by
    obtain ⟨l, hl, -⟩ := hg.scanEdges_ok hstop (hhas a ha)
    exact ⟨l, hl⟩
  have hout : ∀ t, t ∈ edges.flatten.map Prod.fst ↔ ∃ a id, g.network.Skips s a ∧
      g.network.Leaves a id t := fun t => by
    simp only [List.mem_map, List.mem_flatten]
    constructor
    · rintro ⟨e, ⟨l, hl, he⟩, rfl⟩
      obtain ⟨a, ha, hl⟩ := (mem_of_mapM hedges).1 hl
      obtain ⟨l', hl', hmem'⟩ := hg.scanEdges_ok hstop (hhas a ha)
      rw [hl] at hl'
      cases hl'
      obtain ⟨-, id, ht⟩ := (hmem' e).1 he
      exact ⟨a, id, (hmem a).1 ha, ht⟩
    · rintro ⟨a, id, ha, ht⟩
      have ha := (hmem a).2 ha
      obtain ⟨l, hl, hmem'⟩ := hg.scanEdges_ok hstop (hhas a ha)
      exact ⟨(t, t.next), ⟨l, (mem_of_mapM hedges).2 ⟨a, ha, hl⟩, (hmem' _).2 ⟨rfl, id, ht⟩⟩, rfl⟩
  have hr : g.ruleAt st.rule = .ok g.rules[i] := by
    rw [hrule]
    exact ruleAt_ok hi
  have hstopState : g.rules[i].stop = stopState i := (hg.rule (Array.getElem?_eq_getElem hi)).2.2
  rw [← hstopState] at hmet hedges hstop
  refine ⟨_, bind_eq_ok.2 ⟨st, hst, bind_eq_ok.2 ⟨_, hr, bind_eq_ok.2 ⟨met, hmet,
    bind_eq_ok.2 ⟨edges, hedges, rfl⟩⟩⟩⟩, fun y => ?_, fun c => ?_, ?_, ?_⟩
  · rw [Scan.mem_tokens_steps]
    simp only [List.not_mem_nil, false_or, hout]
    constructor
    · rintro ⟨t, ⟨a, id, ha, ht⟩, hk, hy⟩
      exact ⟨a, id, t, ha, ht, hk, hy⟩
    · rintro ⟨a, id, t, ha, ht, hk, hy⟩
      exact ⟨t, ⟨a, id, ha, ht⟩, hk, hy⟩
  · rw [Scan.mem_callees_steps]
    simp only [List.not_mem_nil, false_or, hout]
    constructor
    · rintro ⟨t, ⟨a, id, ha, ht⟩, hk, hc⟩
      exact ⟨a, id, t, ha, ht, hk, hc⟩
    · rintro ⟨a, id, t, ha, ht, hk, hc⟩
      exact ⟨t, ⟨a, id, ha, ht⟩, hk, hc⟩
  · rw [List.contains_iff_mem, hmem, hstopState]
  · rw [Scan.hitsPredicate_steps]
    simp only [Bool.false_eq_true, false_or, hout]
    constructor
    · rintro ⟨t, ⟨a, id, ha, ht⟩, hk⟩
      exact ⟨a, id, t, ha, ht, hk⟩
    · rintro ⟨a, id, t, ha, ht, hk⟩
      exact ⟨t, ⟨a, id, ha, ht⟩, hk⟩

end Grammar.Proper

/-- A call names the rule that it enters. -/
theorem Network.Proper.calls_of_rule {n : Network} {rules : Nat} (hp : n.Proper rules) {s id c : Int}
    {t : Transition} (ht : n.Leaves s id t) (hk : t.kind = .ruleCall) (hr : t.rule = some c) :
    ∃ i < rules, ∃ follow, c = Int.ofNat i ∧ n.Calls s id t c follow ∧ t.target = startState i := by
  obtain ⟨owner, ho⟩ := ht.owned
  obtain ⟨hne, -⟩ | ⟨i, follow, hi, hc, htarget, -⟩ := hp.fits ht ho
  · exact absurd hk hne
  · obtain ⟨-, hrule, -⟩ := Transition.of_call? hc
    rw [hr] at hrule
    obtain rfl := Option.some.inj hrule
    exact ⟨i, hi, follow, rfl, ⟨ht, hc⟩, htarget⟩

namespace Grammar

/-- The table holds under every rule the tokens that runs from its start read first. -/
def KnowsFirst (g : Grammar) (first : TokenTable) : Prop :=
  ∀ r x, first.Holds r x ↔
    ∃ i < g.rules.size, r = Int.ofNat i ∧ g.network.Begins (startState i) x

theorem KnowsFirst.holds_iff {g : Grammar} {first : TokenTable} (h : g.KnowsFirst first) {i : Nat}
    (hi : i < g.rules.size) {x : String} :
    first.Holds i x ↔ g.network.Begins (startState i) x := by
  rw [h]
  constructor
  · rintro ⟨j, -, hij, hx⟩
    obtain rfl := Int.ofNat.inj hij
    exact hx
  · exact fun hx => ⟨i, hi, rfl, hx⟩

namespace Proper

variable {g : Grammar} (hg : g.Proper) {nullable : Int → Bool} {s stop : Int}
include hg

/-- The tokens that a scan leads to are those that runs read first. -/
theorem mem_scanTokens_iff {first : TokenTable} (hfirst : g.KnowsFirst first) {x : Scan}
    (hx : x.Meets g.network s stop) {y : String} :
    y ∈ scanTokens first x ↔ g.network.Begins s y := by
  unfold scanTokens
  rw [List.mem_append, List.mem_flatMap]
  constructor
  · rintro (hy | ⟨c, hc, hy⟩)
    · obtain ⟨a, id, t, ha, ht, hk, hy⟩ := (hx.tokens y).1 hy
      exact ha.begins (ht.begins hk hy)
    · obtain ⟨a, id, t, ha, ht, hk, hr⟩ := (hx.callees c).1 hc
      obtain ⟨i, hi, follow, rfl, hcall, htarget⟩ := hg.network.calls_of_rule ht hk hr
      refine ha.begins (hcall.begins ?_)
      rw [htarget]
      exact (hfirst.holds_iff hi).1 hy
  · rintro ⟨rest, ms, d, hd, hpos⟩
    obtain ⟨a, ha, hreads⟩ := exists_readsFrom hd hpos
    cases hreads with
    | token ht hk hy hmem =>
      cases hy
      exact .inl ((hx.tokens y).2 ⟨a, _, _, ha, ht, hk, hmem⟩)
    | callee hc hq he _ =>
      obtain ⟨owner, ho⟩ := hc.1.owned
      obtain ⟨i, hi, rfl, htarget, -⟩ := hg.network.of_calls hc ho
      obtain ⟨hk, hr, -⟩ := Transition.of_call? hc.2
      have hbegins := begins_of_run hq he rfl
      rw [htarget] at hbegins
      exact .inr ⟨_, (hx.callees _).2 ⟨a, _, _, ha, hc.1, hk, hr⟩, (hfirst.holds_iff hi).2 hbegins⟩

omit hg in
theorem not_holds_emptyTable {r : Int} {y : String} : ¬ g.emptyTable.Holds r y := by
  unfold TokenTable.Holds TokenTable.tokens
  cases hget : OrderedMap.get? g.emptyTable r with
  | none => simp
  | some v =>
    obtain ⟨r', -, he⟩ := List.mem_map.1 (OrderedMap.get?_ofList_of_some hget)
    cases he
    simp

/-- FIRST sets are found without fail, and hold what runs read first. -/
theorem firstTable_ok (hnull : ∀ r, nullable r = true ↔ g.network.Null g.rules.size r) :
    ∃ first, g.firstTable nullable = .ok first ∧ g.KnowsFirst first := by
  refine exists_bind_mapM (fun r e => ∃ i < g.rules.size, r.index = Int.ofNat i ∧ ∃ x : Scan,
    x.Meets g.network (startState i) (stopState i) ∧ e = x.inclusion i) (fun r hr => ?_)
    fun system hmem hsystem => ⟨_, rfl, fun r y => ?_⟩
  · obtain ⟨i, hi, -, hindex, hstart, -⟩ := hg.exists_rule hr
    obtain ⟨x, hx, hmeets⟩ := hg.scan_ok hnull hi (hg.network.owns_start hi)
    exact ⟨_, bind_eq_ok.2 ⟨x, hstart ▸ hx, rfl⟩, i, hi, hindex, x, hmeets, by rw [hindex]⟩
  have hall : ∀ i < g.rules.size, ∃ x : Scan, x.Meets g.network (startState i) (stopState i) ∧
      x.inclusion i ∈ system := fun i hi => by
    obtain ⟨r, hr, hindex, -⟩ := hg.exists_mem_ruleList hi
    obtain ⟨e, he, j, -, hj, x, hx, rfl⟩ := hsystem r hr
    obtain rfl : i = j := Int.ofNat.inj (hindex.symm.trans hj)
    exact ⟨x, hx, he⟩
  rw [TokenTable.holds_solve]
  constructor
  · intro h
    induction h with
    | given h => exact absurd h not_holds_emptyTable
    | token he hy =>
      obtain ⟨-, -, i, hi, -, x, hx, rfl⟩ := hmem _ he
      obtain ⟨a, id, t, ha, ht, hk, hy⟩ := (hx.tokens _).1 hy
      exact ⟨i, hi, rfl, ha.begins (ht.begins hk hy)⟩
    | source he hs _ ih =>
      obtain ⟨-, -, i, hi, -, x, hx, rfl⟩ := hmem _ he
      obtain ⟨a, id, t, ha, ht, hk, hr⟩ := (hx.callees _).1 hs
      obtain ⟨j, -, follow, rfl, hcall, htarget⟩ := hg.network.calls_of_rule ht hk hr
      obtain ⟨j', -, hj, hbegins⟩ := ih
      obtain rfl := Int.ofNat.inj hj
      rw [← htarget] at hbegins
      exact ⟨i, hi, rfl, ha.begins (hcall.begins hbegins)⟩
  · rintro ⟨i, hi, rfl, rest, ms, d, hd, hpos⟩
    -- the run that reads the token is shorter in a callee
    induction hlen : ms.length using Nat.strongRecOn generalizing i ms d with
    | ind len ih =>
      subst hlen
      obtain ⟨x, hx, he⟩ := hall i hi
      obtain ⟨a, ha, hreads⟩ := exists_readsFrom hd hpos
      cases hreads with
      | token ht hk hy hmem =>
        cases hy
        exact .token he ((hx.tokens y).2 ⟨a, _, _, ha, ht, hk, hmem⟩)
      | callee hc hq hpos' hlt =>
        obtain ⟨owner, ho⟩ := hc.1.owned
        obtain ⟨j, hj, rfl, htarget, -⟩ := hg.network.of_calls hc ho
        obtain ⟨hk, hr, -⟩ := Transition.of_call? hc.2
        rw [htarget] at hq
        exact .source he ((hx.callees _).2 ⟨a, _, _, ha, hc.1, hk, hr⟩) (ih _ hlt j hj _ _ hq hpos' rfl)

end Proper

end Grammar

end RuleNetwork
