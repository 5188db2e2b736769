import RuleNetwork.LeftRecursion.Analysis
import RuleNetwork.Proofs.Chart.Groups
import RuleNetwork.Proofs.Lookahead.Follow

/-!
Leftmost calls. With verification the calls found for a rule are those that a run of the rule can come
to without reading. A chart that finds invocations to call each other before any input has such runs, so
every rule in a group of a chart leads back to itself by leftmost calls.
-/

set_option autoImplicit false

namespace RuleNetwork

open Network Relation

namespace LeftRecursion

/-- An analysis with verification, and with the rules that can match nothing. -/
structure Verified (a : LeftRecursion) (g : Grammar) : Prop where
  grammar : a.grammar = g
  nullable : ∀ r, a.nullable.contains r = true ↔ g.network.Null g.rules.size r

/-- The one rule can call the other before it consumes anything, as the analysis finds. -/
def Leftmost (a : LeftRecursion) (caller callee : Int) : Prop :=
  ∃ l, a.leftmostCalls caller = .ok l ∧ callee ∈ l

end LeftRecursion

theorem Grammar.Proper.leftRecursion_ok {g : Grammar} (hg : g.Proper) :
    ∃ a, LeftRecursion.ofGrammar g true = .ok a ∧ a.Verified g := by
  obtain ⟨nullable, hnullable, hnull⟩ := hg.nullable_ok
  exact ⟨⟨g, true, nullable⟩, bind_eq_ok.2 ⟨nullable, hnullable, rfl⟩, rfl, hnull⟩

namespace LeftRecursion

/-- A walk without input takes the states that its steps lead to. -/
theorem silentWalk_ok {n : Network} {rules : Nat} (hp : n.Proper rules) (nullable : Int → Bool)
    {s : Int} (hs : n.Has s) :
    ∃ met, n.silentWalk nullable s (fun _ => false) = .ok met ∧
      ∀ s', s' ∈ met ↔ ReflTransGen (Search.Step (n.silentSteps nullable)) s s' := by
  obtain ⟨met, hmet, -⟩ := Search.exists_depthFirst (P := n.Has)
    (fun _ ha => hp.silentSteps_has nullable ha) (fun _ => false) n.walkBound hs
  exact ⟨met, hmet, fun s' => Search.mem_depthFirst_iff (hp.universe_silentSteps _)
    (mem_ids_iff.2 hs) length_ids_le hmet⟩

/-- The leftmost calls of a rule are those at the states that a walk without input comes to. -/
theorem leftmostCalls_ok {a : LeftRecursion} (hg : a.grammar.Proper) {i : Nat}
    (hi : i < a.grammar.rules.size) :
    ∃ l, a.leftmostCalls i = .ok l ∧ l.Nodup ∧ ∀ callee, callee ∈ l ↔ ∃ s id t follow,
      ReflTransGen (Search.Step (a.grammar.network.silentSteps a.nullable.contains)) (startState i) s ∧
        a.grammar.network.Calls s id t callee follow := by
  have hp := hg.network
  have hstart := hp.owns_start hi
  have hfrom : a.grammar.rules[i].start = startState i :=
    (hg.rule (Array.getElem?_eq_getElem hi)).2.1
  obtain ⟨met, hmet, hreach⟩ := silentWalk_ok hp a.nullable.contains hstart.has
  have hedge : ∀ s ∈ met, ∃ l, a.grammar.network.edges s = .ok l ∧
      ∀ e, e ∈ l ↔ e.2 = e.1.next ∧ ∃ id, a.grammar.network.Leaves s id e.1 := fun s hs => by
    refine hp.edges_ok ?_
    obtain rfl | ⟨s', -, hstep⟩ := ReflTransGen.cases_tail ((hreach s).1 hs)
    · exact hstart.has
    · obtain ⟨id, t, ht, -, rfl⟩ := hp.step_silentSteps_iff.1 hstep
      exact hp.has_next ht
  obtain ⟨edges, hedges⟩ := exists_mapM fun s hs => (hedge s hs).imp fun _ hl => hl.1
  refine ⟨_, bind_eq_ok.2 ⟨a.grammar.rules[i], Grammar.ruleAt_ok hi,
    bind_eq_ok.2 ⟨met, by rw [hfrom]; exact hmet, bind_eq_ok.2 ⟨edges, hedges, rfl⟩⟩⟩,
    OrderedSet.nodup_toList _, fun callee => ?_⟩
  rw [OrderedSet.mem_toList_ofList, List.mem_filterMap]
  constructor
  · rintro ⟨e, he, hcalled⟩
    obtain ⟨l, hl, he⟩ := List.mem_flatten.1 he
    obtain ⟨s, hs, hl⟩ := (mem_of_mapM hedges).1 hl
    obtain ⟨l', hl', hmem⟩ := hedge s hs
    rw [hl] at hl'
    cases hl'
    obtain ⟨-, id, ht⟩ := (hmem e).1 he
    simp only at hcalled
    split at hcalled
    · rename_i hk
      obtain ⟨-, -, follow, -, hc, -⟩ := hp.calls_of_rule ht (beq_iff_eq.1 hk) hcalled
      exact ⟨s, id, e.1, follow, (hreach s).1 hs, hc⟩
    · cases hcalled
  · rintro ⟨s, id, t, follow, hs, ht, hcall⟩
    obtain ⟨hk, hrule, -⟩ := Transition.of_call? hcall
    have hs := (hreach s).2 hs
    obtain ⟨l, hl, hmem⟩ := hedge s hs
    refine ⟨(t, t.next), List.mem_flatten.2 ⟨l, (mem_of_mapM hedges).2 ⟨s, hs, hl⟩,
      (hmem _).2 ⟨rfl, id, ht⟩⟩, ?_⟩
    simp [hk, hrule]

end LeftRecursion

namespace LeftRecursion.Verified

variable {a : LeftRecursion} {g : Grammar} (h : a.Verified g) (hg : g.Proper)
include h hg

/-- The leftmost calls of a rule are those that a run of it comes to without reading. -/
theorem leftmostCalls_skips {i : Nat} (hi : i < g.rules.size) :
    ∃ l, a.leftmostCalls i = .ok l ∧ l.Nodup ∧ ∀ callee, callee ∈ l ↔
      ∃ s id t follow, g.network.Skips (startState i) s ∧ g.network.Calls s id t callee follow := by
  obtain ⟨rfl, hnullable⟩ := h
  obtain ⟨l, hl, hnodup, hmem⟩ := leftmostCalls_ok hg hi
  refine ⟨l, hl, hnodup, fun callee => ?_⟩
  rw [hmem]
  simp only [hg.network.reach_iff_skips hnullable]

theorem leftmost_iff {i : Nat} (hi : i < g.rules.size) {callee : Int} :
    a.Leftmost i callee ↔
      ∃ s id t follow, g.network.Skips (startState i) s ∧ g.network.Calls s id t callee follow := by
  obtain ⟨l, hl, -, hmem⟩ := h.leftmostCalls_skips hg hi
  rw [← hmem]
  constructor
  · rintro ⟨l', hl', hcallee⟩
    rw [hl] at hl'
    cases hl'
    exact hcallee
  · exact fun hcallee => ⟨l, hl, hcallee⟩

end LeftRecursion.Verified

namespace Chart.Recognizes

variable {c : Chart} {i : Nat} {types : List String} (h : c.Recognizes i types) {a : LeftRecursion}
  (ha : a.Verified c.index.grammar) {u : Visit → Prop} (hu : ∀ v, u v → c.contains v = true)
include h ha hu

/-- A call that a chart shows to be made before any input is a leftmost call: the invocation that makes
it has come to the call without reading, be it over callees that have matched nothing. -/
theorem leftmost_of_emptyCall {x y : Invocation} (hcall : c.EmptyCall u x y) :
    a.Leftmost x.rule y.rule := by
  have hg := h.index.grammar
  obtain ⟨-, s, id, t, follow, hown, hc, hvisit, -⟩ := hcall
  obtain ⟨ms, l, hms⟩ := (h.contains _).1 (hu _ hvisit)
  obtain ⟨j, hj, -, q, -, hwalk, hown', -⟩ :=
    hg.network.exists_walk h.rule (v := ⟨s, x.origin, x.origin⟩) hms
  rw [hown.unique hown']
  exact (ha.leftmost_iff hg hj).2 ⟨s, id, t, follow, skips_of_run hwalk, hc⟩

theorem leftmost_of_emptyCalls {x y : Invocation} (hcalls : TransGen (c.EmptyCall u) x y) :
    TransGen a.Leftmost x.rule y.rule :=
  hcalls.lift Invocation.rule fun _ _ => h.leftmost_of_emptyCall ha hu

end Chart.Recognizes

/-- The rules of the invocations in a group of a chart are left-recursive: each leads back to itself by
leftmost calls. -/
theorem Chart.Recognizes.leftRecursive_of_group {c : Chart} {i : Nat} {types : List String}
    (h : c.Recognizes i types) {a : LeftRecursion} (ha : a.Verified c.index.grammar)
    {u : OrderedSet Visit} (hu : ∀ v ∈ u.toList, c.contains v = true) :
    ∃ m, c.groups u = .ok m ∧ ∀ v k, m.group? v = some k → TransGen a.Leftmost v.rule v.rule := by
  obtain ⟨m, hm, htogether, -⟩ := h.groups_ok hu
  refine ⟨m, hm, fun v k hk => ?_⟩
  have hself : m.together v v = true := by
    unfold Groups.together
    rw [hk]
    exact beq_self_eq_true k
  exact h.leftmost_of_emptyCalls ha hu ((htogether v v).1 hself).1

end RuleNetwork
