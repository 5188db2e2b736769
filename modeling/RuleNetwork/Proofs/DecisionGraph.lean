import RuleNetwork.Proofs.Graph.Breadth
import RuleNetwork.Proofs.RuleGraph.Build
import RuleNetwork.Proofs.Validation.Sufficiency

/-!
What the surroundings of a decision show. States are admitted and edges are kept while the walk goes on,
each by what has been admitted at that moment; yet the states are the first of a walk without limit, the
edges are all those between them, and the mark of a cut is set just where a state was left out.
-/

set_option autoImplicit false

namespace RuleNetwork

open Network Relation

namespace Network

variable {n : Network}

/-- The transitions out of a state that lead to certain states, drawn as edges. -/
def linesTo (n : Network) (names : Array String) (keep : Int → Bool) (s : Int) :
    Except Fault (List GraphEdge) := do
  let out ← n.outgoing s
  return (out.filter fun t => keep t.next).map fun t => ⟨s, t.next, t.label names⟩

/-- All transitions from one to another of some states, one edge for each. -/
def between (n : Network) (names : Array String) (ids : List Int) : Except Fault (List GraphEdge) := do
  return (← ids.mapM (n.linesTo names fun s => ids.contains s)).flatten

end Network

namespace DecisionGraph

namespace Draft

/-- The edge that is drawn for an edge met on the way, which is told with the state it leaves. -/
def line (names : Array String) (m : Int × Transition × Int) : GraphEdge :=
  ⟨m.1, m.2.2, m.2.1.label names⟩

/-- What a draft shows of the edges met so far. A state is left out only when the limit is reached. -/
structure Drawn (names : Array String) (met : List (Int × Transition × Int)) (d : Draft) : Prop where
  edges : d.edges = (met.filter fun m => m.2.2 ∈ d.states.toList).map (line names)
  truncated : d.truncated = true ↔ ∃ m ∈ met, m.2.2 ∉ d.states.toList
  full : ∀ m ∈ met, m.2.2 ∉ d.states.toList → stateLimit ≤ d.states.size

variable {names : Array String} {d : Draft} {met : List (Int × Transition × Int)}

theorem drawn_start (names : Array String) (states : OrderedSet Int) : Drawn names [] { states } :=
  ⟨rfl, by simp, fun m hm => absurd hm List.not_mem_nil⟩

theorem drawn_follow (h : Drawn names met d) (source : Int) (e : Transition × Int) :
    Drawn names (met ++ [(source, e)]) (follow names source d e) := by
  obtain ⟨t, target⟩ := e
  unfold follow
  simp only
  split
  · rename_i hin
    rw [OrderedSet.contains_iff] at hin
    refine ⟨?_, ?_, fun m hm hout => ?_⟩
    · simp [h.edges, hin, line]
    · simp [h.truncated, hin, or_and_right, exists_or]
    · obtain hm | rfl := by simpa using hm
      · exact h.full m hm hout
      · exact absurd hin hout
  · rename_i hnew
    have hnew : target ∉ d.states.toList := fun hin => hnew ((OrderedSet.contains_iff _ _).2 hin)
    split
    · rename_i hfull
      refine ⟨?_, ?_, fun _ _ _ => hfull⟩
      · simp [h.edges, hnew]
      · simp [hnew, or_and_right, exists_or]
    · rename_i hroom
      -- While there is room, nothing has been left out.
      have hall : ∀ m ∈ met, m.2.2 ∈ d.states.toList := fun m hm => by
        by_contra hout
        exact hroom (h.full m hm hout)
      have hall' : ∀ m ∈ met ++ [(source, t, target)], m.2.2 ∈ (d.states.insert target).toList := by
        intro m hm
        rw [OrderedSet.mem_toList_insert]
        obtain hm | hm := List.mem_append.1 hm
        · exact .inl (hall m hm)
        · rw [List.mem_singleton.1 hm]
          exact .inr rfl
      refine ⟨?_, ?_, fun m hm hout => absurd (hall' m hm) hout⟩
      · rw [List.filter_eq_self.2 fun m hm => decide_eq_true (hall' m hm), List.map_append, h.edges,
          List.filter_eq_self.2 fun m hm => decide_eq_true (hall m hm)]
        rfl
      · rw [h.truncated]
        constructor
        · rintro ⟨m, hm, hout⟩
          exact absurd (hall m hm) hout
        · rintro ⟨m, hm, hout⟩
          exact absurd (hall' m hm) hout

theorem drawn_foldl (h : Drawn names met d) (source : Int) (row : List (Transition × Int)) :
    Drawn names (met ++ row.map (source, ·)) (row.foldl (follow names source) d) := by
  induction row generalizing d met with
  | nil => simpa using h
  | cons e row ih =>
    have hstep := ih (drawn_follow h source e)
    rwa [List.append_assoc] at hstep

/-- Of the states of a walk without limit, a draft keeps the first. -/
theorem toList_follow {full : OrderedSet Int} (h : d.states.toList = full.toList.take stateLimit)
    (source : Int) (e : Transition × Int) :
    (follow names source d e).states.toList = (full.insert e.2).toList.take stateLimit := by
  obtain ⟨t, target⟩ := e
  have hsize : d.states.size = min stateLimit full.toList.length := by
    rw [← OrderedSet.length_toList, h, List.length_take]
  unfold follow
  simp only
  split
  · rename_i hin
    rw [OrderedSet.contains_iff, h] at hin
    rw [h, OrderedSet.toList_insert_of_mem (List.mem_of_mem_take hin)]
  · rename_i hnew
    split
    · rename_i hfull
      obtain ⟨rest, hrest⟩ := full.prefix_insert target
      rw [h, ← hrest, List.take_append_of_le_length (by omega)]
    · rename_i hroom
      have hall : d.states.toList = full.toList := by
        rw [h, List.take_of_length_le (by omega)]
      have hnew : target ∉ d.states.toList := fun hin => hnew ((OrderedSet.contains_iff _ _).2 hin)
      rw [OrderedSet.toList_insert_of_not_mem hnew, OrderedSet.toList_insert_of_not_mem (hall ▸ hnew),
        hall, List.take_of_length_le]
      simp only [List.length_append, List.length_singleton]
      omega

theorem toList_foldl {full : OrderedSet Int} (h : d.states.toList = full.toList.take stateLimit)
    (source : Int) (row : List (Transition × Int)) :
    (row.foldl (follow names source) d).states.toList =
      (full.insertAll (row.map Prod.snd)).toList.take stateLimit := by
  induction row generalizing d full with
  | nil => exact h
  | cons e row ih => exact ih (toList_follow h source e)

/-- The edges that leave some states, each with the state it leaves. -/
def leaving (ids : List Int) (rows : List (List (Transition × Int))) : List (Int × Transition × Int) :=
  (ids.zip rows).flatMap fun p => p.2.map (p.1, ·)

/-- What a draft has grown to: it holds the first states of a walk, and shows the edges met before and
those that leave its states from the `i`th on. -/
structure Grown (g : Grammar) (met : List (Int × Transition × Int)) (i : Nat) (walk : List Int)
    (d : Draft) : Prop where
  states : d.states.toList = walk.take stateLimit
  drawn : ∃ rows, (d.states.toList.drop i).mapM g.network.edges = .ok rows ∧
    Drawn g.ruleNames (met ++ leaving (d.states.toList.drop i) rows) d

theorem grown_of_length_le {g : Grammar} {i : Nat} {walk : List Int} (h : Drawn g.ruleNames met d)
    (hstates : d.states.toList = walk.take stateLimit) (hi : d.states.toList.length ≤ i) :
    Grown g met i walk d :=
  ⟨hstates, [], mapM_drop_of_length_le hi, by simpa [leaving] using h⟩

theorem grown_of_succ {g : Grammar} {i : Nat} {walk : List Int} {source : Int}
    {row : List (Transition × Int)} (h : Grown g (met ++ row.map (source, ·)) (i + 1) walk d)
    (hsource : walk[i]? = some source) (hi : i < stateLimit) (hrow : g.network.edges source = .ok row) :
    Grown g met i walk d := by
  obtain ⟨hstates, rows, hrows, hdrawn⟩ := h
  have hget : d.states.toList[i]? = some source := by
    rw [hstates, List.getElem?_take, if_pos hi, hsource]
  obtain ⟨hlt, hat⟩ := List.getElem?_eq_some_iff.1 hget
  refine ⟨hstates, row :: rows, ?_, ?_⟩
  · rw [List.drop_eq_getElem_cons hlt, hat]
    exact mapM_cons_eq_ok.2 ⟨row, rows, hrow, hrows, rfl⟩
  · rw [List.drop_eq_getElem_cons hlt, hat]
    simpa [leaving] using hdrawn

/-- Growing keeps to the walk without limit: by induction on the states that may still be expanded, the
draft holds the first of those that the walk has found. -/
theorem grow_ok {g : Grammar} {univ : List Int} (hu : Search.Universe g.network.steps univ)
    {bound room i : Nat} {d' : Draft} {full s : OrderedSet Int} (hf : ∀ a ∈ full.toList, a ∈ univ)
    (hb : univ.length ≤ bound + i) (hs : Search.spread g.network.steps bound full i = .ok s)
    (hd : d.states.toList = full.toList.take stateLimit) (hmet : Drawn g.ruleNames met d)
    (hroom : stateLimit ≤ room + i) (h : grow g room i d = .ok d') : Grown g met i s.toList d' := by
  induction room generalizing bound i d met full with
  | zero =>
    have hi : d.states.toList.length ≤ i := by
      rw [hd, List.length_take]
      omega
    rw [← Except.ok.inj h]
    exact grown_of_length_le hmet (by rw [hd, Search.take_spread hs (hd ▸ hi)]) hi
  | succ room ih =>
    unfold grow at h
    rw [OrderedSet.get?_eq] at h
    cases hsource : d.states.toList[i]? with
    | none =>
      rw [hsource] at h
      rw [← Except.ok.inj h]
      have hi := List.getElem?_eq_none_iff.1 hsource
      exact grown_of_length_le hmet (by rw [hd, Search.take_spread hs (hd ▸ hi)]) hi
    | some source =>
      rw [hsource] at h
      rw [hd, List.getElem?_take] at hsource
      obtain ⟨hi, hget⟩ := Option.ite_none_right_eq_some.1 hsource
      obtain ⟨bound, rfl⟩ : ∃ b, bound = b + 1 := by
        have := OrderedSet.length_le _ hf
        have := (List.getElem?_eq_some_iff.1 hget).1
        exact Nat.exists_eq_succ_of_ne_zero (by omega)
      have hget' := (List.prefix_iff_getElem?.1 (Search.prefix_spread hs) i
        (List.getElem?_eq_some_iff.1 hget).1).trans
          ((List.getElem?_eq_getElem _).symm.trans hget)
      obtain ⟨row, hrow, h⟩ := bind_eq_ok.1 h
      have hids : g.network.steps source = .ok (row.map Prod.snd) := bind_eq_ok.2 ⟨row, hrow, rfl⟩
      unfold Search.spread at hs
      rw [OrderedSet.get?_eq, hget] at hs
      obtain ⟨ids, hids', hs⟩ := bind_eq_ok.1 hs
      obtain rfl := Except.ok.inj (hids.symm.trans hids')
      have hf' : ∀ a ∈ (full.insertAll (row.map Prod.snd)).toList, a ∈ univ := fun a ha => by
        obtain ha | ha := (OrderedSet.mem_toList_insertAll _ _ _).1 ha
        · exact hf a ha
        · exact hu source (hf source (List.mem_of_getElem? hget)) a ⟨_, hids, ha⟩
      exact grown_of_succ (ih hf' (by omega) hs (toList_foldl hd source row)
        (drawn_foldl hmet source row) (by omega) h) hget' hi hrow

/-- The edges met that lead to states of one rule are all transitions that lead there. -/
theorem linesTo_leaving (names : Array String) {n : Network} {keep : Int → Bool} {rule : Option Int} {ids : List Int}
    {rows : List (List (Transition × Int))} (hkeep : ∀ s, keep s = true → n.ruleOf? s = rule)
    (hids : ∀ s ∈ ids, n.ruleOf? s = rule) (hrows : ids.mapM n.edges = .ok rows) :
    ∃ lines, ids.mapM (n.linesTo names keep) = .ok lines ∧
      lines.flatten = ((leaving ids rows).filter fun m => keep m.2.2).map (line names) := by
  induction ids generalizing rows with
  | nil =>
    obtain rfl := pure_eq_ok.1 hrows
    exact ⟨[], rfl, rfl⟩
  | cons s ids ih =>
    obtain ⟨row, rows, hrow, hrest, rfl⟩ := mapM_cons_eq_ok.1 hrows
    obtain ⟨lines, hlines, hflat⟩ := ih (fun s hs => hids s (List.mem_cons_of_mem _ hs)) hrest
    obtain ⟨out, hout, rfl⟩ := edges_eq hrow
    refine ⟨_, mapM_cons_eq_ok.2 ⟨_, lines, bind_eq_ok.2 ⟨out, hout, rfl⟩, hlines, rfl⟩, ?_⟩
    have hin : ∀ t : Transition, (keep t.next && decide (n.ruleOf? t.next = n.ruleOf? s)) = keep t.next := by
      intro t
      by_cases hk : keep t.next = true
      · rw [hkeep _ hk, hids s (List.mem_cons_self ..)]
        simp
      · simp [hk]
    simp only [leaving, List.zip_cons_cons, List.flatMap_cons, List.filter_append, List.map_append,
      List.flatten_cons, hflat, List.map_map, List.filter_map, List.filter_filter, Function.comp_def, hin]
    rfl

section Leaving

variable {n : Network} {ids : List Int} {rows : List (List (Transition × Int))}

theorem step_of_leaving (hrows : ids.mapM n.edges = .ok rows) {m : Int × Transition × Int}
    (hm : m ∈ leaving ids rows) : m.1 ∈ ids ∧ Search.Step n.steps m.1 m.2.2 := by
  obtain ⟨⟨s, row⟩, hp, hm⟩ := List.mem_flatMap.1 hm
  obtain ⟨e, he, rfl⟩ := List.mem_map.1 hm
  have hrow := (List.forall₂_iff_zip.1 (mapM_eq_ok.1 hrows)).2 hp
  exact ⟨(List.of_mem_zip hp).1, _, bind_eq_ok.2 ⟨row, hrow, rfl⟩, List.mem_map_of_mem he⟩

theorem exists_leaving (hrows : ids.mapM n.edges = .ok rows) {s s' : Int} (hs : s ∈ ids)
    (h : Search.Step n.steps s s') : ∃ m ∈ leaving ids rows, m.2.2 = s' := by
  obtain ⟨l, hl, hmem⟩ := h
  obtain ⟨row, hrow, hl⟩ := bind_eq_ok.1 hl
  obtain rfl := Except.ok.inj hl
  obtain ⟨e, he, rfl⟩ := List.mem_map.1 hmem
  exact ⟨(s, e), List.mem_flatMap.2 ⟨_, mem_zip_of_mapM hrows hs hrow, List.mem_map_of_mem he⟩, rfl⟩

/-- What is drawn is cut just where the walk goes on beyond the states drawn. -/
theorem truncated_iff {start : Int} {walk : List Int} (hwalk : Search.BreadthOrder n.steps start walk)
    (hstates : d.states.toList = walk.take stateLimit) (hrows : d.states.toList.mapM n.edges = .ok rows)
    (hdrawn : Drawn names (leaving d.states.toList rows) d) :
    d.truncated = true ↔ stateLimit < walk.length := by
  have hsub : ∀ s ∈ d.states.toList, s ∈ walk := fun s hs => List.mem_of_mem_take (hstates ▸ hs)
  rw [hdrawn.truncated]
  constructor
  · rintro ⟨m, hm, hout⟩
    obtain ⟨hs, hstep⟩ := step_of_leaving hrows hm
    have hin := (hwalk.mem_iff _).2 (((hwalk.mem_iff _).1 (hsub _ hs)).tail hstep)
    by_contra hlen
    rw [hstates, List.take_of_length_le (Nat.le_of_not_lt hlen)] at hout
    exact hout hin
  · intro hlen
    by_contra hnone
    -- If every edge led to a state drawn, the states drawn would be all that the walk meets.
    have hclosed : ∀ s, ReflTransGen (Search.Step n.steps) start s → s ∈ d.states.toList := by
      intro s hs
      induction hs with
      | refl =>
        rw [hstates]
        have hhead : (walk.take stateLimit).head? = some start := by
          rw [List.head?_take, if_neg (by decide), hwalk.head?]
        exact List.mem_of_head? hhead
      | tail _ hstep ih =>
        obtain ⟨m, hm, rfl⟩ := exists_leaving hrows ih hstep
        by_contra hout
        exact hnone ⟨m, hm, hout⟩
    have hle := (hwalk.nodup.subperm fun s hs => hclosed s ((hwalk.mem_iff s).1 hs)).length_le
    rw [hstates, List.length_take] at hle
    omega

end Leaving

end Draft

end DecisionGraph

namespace DecisionGraph

theorem nodes_ok (g : Grammar) (rule : String) {ids : List Int} (h : ∀ s ∈ ids, g.network.Has s) :
    ∃ nodes, ids.mapM (node g rule) = .ok nodes ∧ nodes.map GraphNode.id = ids := by
  induction ids with
  | nil => exact ⟨[], rfl, rfl⟩
  | cons s ids ih =>
    obtain ⟨st, hst⟩ := h s (List.mem_cons_self ..)
    obtain ⟨nodes, hnodes, hids⟩ := ih fun s hs => h s (List.mem_cons_of_mem _ hs)
    exact ⟨_, mapM_cons_eq_ok.2 ⟨_, nodes, bind_eq_ok.2 ⟨st, hst, rfl⟩, hnodes, rfl⟩,
      by rw [List.map_cons, hids]⟩

/-- A graph shows the surroundings of a decision: the first states of a walk from it, the transitions
between them, and whether the walk goes on. -/
structure Surrounds (graph : DecisionGraph) (g : Grammar) (d : Decision) (walk : List Int) : Prop where
  states : graph.nodes.map GraphNode.id = walk.take 20
  nodup : (graph.nodes.map GraphNode.id).Nodup
  first : (graph.nodes.map GraphNode.id).head? = some d.state
  owned : ∀ n ∈ graph.nodes, g.network.ruleOf? n.id = some d.rule
  edges : g.network.between g.ruleNames (graph.nodes.map GraphNode.id) = .ok graph.edges
  truncated : graph.truncated = true ↔ 20 < walk.length
  stateCount : graph.toJson.field? "state_count" = some (.int graph.nodes.length)
  transitionCount : graph.toJson.field? "transition_count" = some (.int graph.edges.length)

end DecisionGraph

namespace Grammar

variable {g : Grammar}

/-- The surroundings of a decision of a grammar without errors are drawn as the first states of a walk
breadth first from the decision, with all transitions between these. -/
theorem surrounds_of_decision {v : Validation} (hv : g.validation = .ok v) (hfatal : v.fatal = [])
    {d : Decision} (hd : d ∈ g.decisions) : ∃ graph walk, DecisionGraph.ofDecision g d = .ok graph ∧
      Search.BreadthOrder g.network.steps d.state walk ∧ graph.Surrounds g d walk := by
  have hg := sound_of_clean ((Validation.fatal_eq_nil_iff hv).1 hfatal)
  obtain ⟨st, hst, hrule⟩ := hg.decision_state hd
  have hstarts : ∀ s ∈ (OrderedSet.ofList [d.state]).toList, g.network.Has s := fun s hs => by
    rw [List.mem_singleton.1 ((OrderedSet.mem_toList_ofList _ _).1 hs)]
    exact ⟨st, hst⟩
  -- the walk without limit
  have hnext : ∀ s, g.network.Has s → ∃ l, g.network.steps s = .ok l ∧ ∀ b ∈ l, g.network.Has b :=
    fun _ hs => hg.steps_yields hs
  obtain ⟨s, hs, -⟩ := Search.exists_spread hnext g.network.walkBound 0 _ hstarts
  have hwalk := Search.breadthOrder_of_breadthFirst hg.universe_steps (mem_ids_iff.2 ⟨st, hst⟩)
    length_ids_le hs
  -- the walk up to the limit, with what it draws
  obtain ⟨draft, hdraft, hhas⟩ := hg.grow_yields (DecisionGraph.stateLimit + 1) 0
    (d := { states := .ofList [d.state] }) hstarts
  obtain ⟨hstates, rows, hrows, hdrawn⟩ := DecisionGraph.Draft.grow_ok (i := 0) hg.universe_steps
    (fun s hs => mem_ids_iff.2 (hstarts s hs)) length_ids_le hs
    (by rw [OrderedSet.toList_ofList_singleton]; rfl) (DecisionGraph.Draft.drawn_start _ _) (by decide) hdraft
  rw [List.drop_zero] at hrows hdrawn
  rw [List.nil_append] at hdrawn
  obtain ⟨r, hr, -⟩ := hg.ruleAt_yields (hg.decision_numbers hd)
  obtain ⟨nodes, hnodes, hids⟩ := DecisionGraph.nodes_ok g r.name hhas
  have hrule : ∀ s ∈ draft.states.toList, g.network.ruleOf? s = some d.rule := fun s hs => by
    rw [hstates] at hs
    rw [WalksTo.ruleOf? ((hwalk.mem_iff s).1 (List.mem_of_mem_take hs)), ruleOf?_of_state hst, hrule]
  have hkeep : ∀ s, draft.states.toList.contains s = true → g.network.ruleOf? s = some d.rule :=
    fun s hs => hrule s (List.contains_iff_mem.1 hs)
  obtain ⟨lines, hlines, hflat⟩ := DecisionGraph.Draft.linesTo_leaving g.ruleNames hkeep hrule hrows
  refine ⟨_, s.toList, bind_eq_ok.2 ⟨r, hr, bind_eq_ok.2 ⟨draft, hdraft,
    bind_eq_ok.2 ⟨nodes, hnodes, rfl⟩⟩⟩, hwalk, ?_⟩
  exact {
    states := hids.trans hstates
    nodup := hids ▸ draft.states.nodup_toList
    first := by
      rw [hids, hstates, List.head?_take, if_neg (by decide), hwalk.head?]
    owned := fun n hn => hrule n.id (hids ▸ List.mem_map_of_mem hn)
    edges := by
      simp only [hids, hdrawn.edges, ← List.elem_eq_mem, List.elem_eq_contains, ← hflat]
      exact bind_eq_ok.2 ⟨lines, hlines, rfl⟩
    truncated := DecisionGraph.Draft.truncated_iff hwalk hstates hrows hdrawn
    stateCount := rfl
    transitionCount := rfl }

end Grammar

/-- A choice between twenty tokens. -/
def Builder.wide : Builder where
  name := "wide"
  rules := [
    { name := "s", kind := .parser, body := some (.choice (List.replicate 20 (.token ["'a'"]))) }]

/-- The ways out of the choice lead to one state too many. -/
theorem wide_surrounds : ∃ g b' v d graph walk, Builder.build.run.run Builder.wide = (.ok g, b') ∧
    g.validation = .ok v ∧ v.fatal = [] ∧ d ∈ g.decisions ∧ DecisionGraph.ofDecision g d = .ok graph ∧
      Search.BreadthOrder g.network.steps d.state walk ∧ graph.Surrounds g d walk ∧
        graph.nodes.length = 20 ∧ graph.truncated = true := by
  obtain ⟨g, b', hb⟩ : ∃ g b', Builder.build.run.run Builder.wide = (.ok g, b') := ⟨_, _, rfl⟩
  obtain ⟨v, hv, hfatal⟩ := Grammar.exists_validation (g := g) (by cases hb; decide)
    (by cases hb; decide +kernel)
  have hd : ⟨0, 0, 2, 20⟩ ∈ g.decisions := by
    cases hb
    decide +kernel
  have hsteps : g.network.steps 2 = .ok ((List.range 20).map fun i => 2 * i + 4) := by
    cases hb
    decide +kernel
  obtain ⟨graph, walk, hgraph, hwalk, hsurrounds⟩ := Grammar.surrounds_of_decision hv hfatal hd
  have hmany : 21 ≤ walk.length := by
    have hnodup : (2 :: (List.range 20).map fun i => 2 * (i : Int) + 4).Nodup := by decide
    refine (hnodup.subperm fun s hs => (hwalk.mem_iff s).2 ?_).length_le
    obtain rfl | hs := List.mem_cons.1 hs
    · exact .refl
    · exact .single ⟨_, hsteps, hs⟩
  have hlength := congrArg List.length hsurrounds.states
  rw [List.length_map, List.length_take] at hlength
  exact ⟨g, b', v, _, graph, walk, hb, hv, hfatal, hd, hgraph, hwalk, hsurrounds, by omega,
    hsurrounds.truncated.2 (by omega)⟩

end RuleNetwork
