import RuleNetwork.Proofs.Graph.Breadth
import RuleNetwork.Proofs.Validation.Sound

/-!
Walks in a sound grammar. They come to states of the network only, so no step of theirs fails, even
where the states of a rule are not its own.
-/

set_option autoImplicit false

namespace RuleNetwork

open Network

theorem Transition.Resolves.next {t : Transition} {g : Grammar} (h : t.Resolves g) :
    g.network.Has t.next := by
  by_cases hk : t.kind = .ruleCall
  · obtain ⟨callee, follow, r, hc, -, -, hfollow⟩ := h.call hk
    rw [Transition.next_of_call? hc]
    exact hfollow
  · rw [Transition.next_of_ne hk]
    exact h.target

/-- A walk in the rule of the states comes from one to the other. -/
def Network.WalksTo (n : Network) (s s' : Int) : Prop := Relation.ReflTransGen (Search.Step n.steps) s s'

namespace Network

variable {n : Network}

/-- The rule of a state that is there. -/
def ruleOf? (n : Network) (s : Int) : Option Int := (n.state s).toOption.map State.rule

theorem ruleOf?_of_state {s : Int} {st : State} (h : n.state s = .ok st) : n.ruleOf? s = some st.rule := by
  unfold ruleOf?
  rw [h]
  rfl

theorem ruleOf?_eq_some {s r : Int} : n.ruleOf? s = some r ↔ ∃ st, n.state s = .ok st ∧ st.rule = r := by
  unfold ruleOf?
  cases n.state s <;> simp [Except.toOption]

theorem filterMap_steps {out : List Transition} {steps : List (Transition × Int × Int)}
    (h : (out.mapM fun t => do
      let s ← n.state t.next
      .ok (t, t.next, s.rule)) = (.ok steps : Except Fault _)) (owner : Int) :
    (steps.filterMap fun (t, next, rule) => if rule = owner then some (t, next) else none) =
      (out.filter fun t => n.ruleOf? t.next = some owner).map fun t => (t, t.next) := by
  rw [mapM_eq_ok] at h
  induction h with
  | nil => rfl
  | @cons t e out steps he _ ih =>
    obtain ⟨st, hst, he⟩ := bind_eq_ok.1 he
    obtain rfl := Except.ok.inj he
    rw [List.filterMap_cons, List.filter_cons, ruleOf?_of_state hst, ih]
    by_cases hrule : st.rule = owner
    · simp [hrule]
    · simp [hrule]

/-- The edges of a state are the transitions out of it that stay in its rule. -/
theorem edges_eq {s : Int} {row : List (Transition × Int)} (h : n.edges s = .ok row) :
    ∃ out, n.outgoing s = .ok out ∧
      row = (out.filter fun t => n.ruleOf? t.next = n.ruleOf? s).map fun t => (t, t.next) := by
  obtain ⟨st, hst, h⟩ := bind_eq_ok.1 h
  obtain ⟨out, hout, h⟩ := bind_eq_ok.1 h
  obtain ⟨steps, hsteps, h⟩ := bind_eq_ok.1 h
  obtain rfl := Except.ok.inj h
  exact ⟨out, hout, by rw [ruleOf?_of_state hst]; exact filterMap_steps hsteps st.rule⟩

/-- A step of a walk stays in the rule. -/
theorem ruleOf?_of_step {s s' : Int} (h : Search.Step n.steps s s') : n.ruleOf? s' = n.ruleOf? s := by
  obtain ⟨l, hl, hmem⟩ := h
  obtain ⟨row, hrow, hl⟩ := bind_eq_ok.1 hl
  obtain rfl := Except.ok.inj hl
  obtain ⟨out, -, rfl⟩ := edges_eq hrow
  obtain ⟨e, he, rfl⟩ := List.mem_map.1 hmem
  obtain ⟨t, ht, rfl⟩ := List.mem_map.1 he
  simpa using (List.mem_filter.1 ht).2

theorem WalksTo.ruleOf? {s s' : Int} (h : n.WalksTo s s') : n.ruleOf? s' = n.ruleOf? s := by
  induction h with
  | refl => rfl
  | tail _ hstep ih => exact (ruleOf?_of_step hstep).trans ih

end Network

namespace Grammar

variable {g : Grammar}

/-- A rule bears this number. -/
def Numbers (g : Grammar) (i : Int) : Prop := ∃ r ∈ g.ruleList, r.index = i

namespace Sound

variable (hg : g.Sound)
include hg

theorem ruleAt_index {r : Rule} (hr : r ∈ g.ruleList) : g.ruleAt r.index = .ok r := by
  obtain ⟨i, hi⟩ := Array.mem_iff_getElem?.1 (Array.mem_toList_iff.1 hr)
  exact ruleAt_eq_ok.2 (Position.forward?_eq_some.2 ⟨i, hg.index hi, hi⟩)

theorem mem_of_ruleAt {i : Int} {r : Rule} (h : g.ruleAt i = .ok r) : r ∈ g.ruleList ∧ r.index = i := by
  obtain ⟨n, rfl, hn⟩ := Position.forward?_eq_some.1 (ruleAt_eq_ok.1 h)
  exact ⟨Array.mem_toList_iff.2 (Array.mem_of_getElem? hn), hg.index hn⟩

theorem ruleAt_yields {i : Int} (hi : g.Numbers i) : Yields (g.ruleAt i) (· ∈ g.ruleList) := by
  obtain ⟨r, hr, rfl⟩ := hi
  exact .of_ok (hg.ruleAt_index hr) hr

theorem numbers_owner {s : Int} {st : State} (hs : g.network.state s = .ok st) : g.Numbers st.rule := by
  obtain ⟨r, hr⟩ := (hg.state hs).owner
  exact ⟨r, hg.mem_of_ruleAt hr⟩

theorem numbers_callee {t : Transition} (ht : t.Resolves g) (hk : t.kind = .ruleCall) {c : Int}
    (hc : t.rule = some c) : g.Numbers c := by
  obtain ⟨callee, follow, r, hcall, hr, -⟩ := ht.call hk
  obtain ⟨-, hrule, -⟩ := Transition.of_call? hcall
  obtain rfl := Option.some.inj (hrule.symm.trans hc)
  exact ⟨r, hg.mem_of_ruleAt hr⟩

theorem outgoing_yields {s : Int} (hs : g.network.Has s) :
    Yields (g.network.outgoing s) fun l => ∀ t ∈ l, t.Resolves g := by
  obtain ⟨st, hst⟩ := hs
  exact (Yields.of_ok hst hst).bind fun st hst => .mapM_all (hg.state hst).transitions

/-- A state is there, and something is known of it. -/
theorem state_yields {s : Int} (hs : g.network.Has s) :
    Yields (g.network.state s) fun st => st.Sound g s := by
  obtain ⟨st, hst⟩ := hs
  exact .of_ok hst (hg.state hst)

theorem edges_yields {s : Int} (hs : g.network.Has s) :
    Yields (g.network.edges s) fun l => ∀ e ∈ l, e.1.Resolves g ∧ g.network.Has e.2 := by
  refine (hg.state_yields hs).bind fun st _ => (hg.outgoing_yields hs).bind fun out hout =>
    (Yields.mapM_all (R := fun e => e.1.Resolves g ∧ g.network.Has e.2.1) fun t ht => ?_).bind
      fun steps hsteps => .ok fun e he => ?_
  · exact (hg.state_yields (hout t ht).next).bind fun st _ => .ok ⟨hout t ht, (hout t ht).next⟩
  · obtain ⟨step, hstep, he⟩ := List.mem_filterMap.1 he
    obtain ⟨t, s', r⟩ := step
    simp only at he
    split at he
    · cases he
      exact hsteps _ hstep
    · cases he

theorem steps_yields {s : Int} (hs : g.network.Has s) :
    Yields (g.network.steps s) fun l => ∀ b ∈ l, g.network.Has b := by
  refine (hg.edges_yields hs).bind fun l hl => .ok fun b hb => ?_
  obtain ⟨e, he, rfl⟩ := List.mem_map.1 hb
  exact (hl e he).2

theorem silentSteps_yields (nullable : Int → Bool) {s : Int} (hs : g.network.Has s) :
    Yields (g.network.silentSteps nullable s) fun l => ∀ b ∈ l, g.network.Has b := by
  refine (hg.edges_yields hs).bind fun l hl => .ok fun b hb => ?_
  obtain ⟨e, he, rfl⟩ := List.mem_map.1 hb
  exact (hl e (List.mem_of_mem_filter he)).2

theorem silentWalk_yields (nullable goal : Int → Bool) {s : Int} (hs : g.network.Has s) :
    Yields (g.network.silentWalk nullable s goal) fun l => ∀ b ∈ l, g.network.Has b :=
  Search.exists_depthFirst (fun _ ha => hg.silentSteps_yields nullable ha) goal _ hs

theorem reachesStop_yields (nullable : Int → Bool) {s : Int} (hs : g.network.Has s) (stop : Int) :
    Yields (g.network.reachesStop nullable s stop) fun _ => True :=
  (hg.silentWalk_yields nullable _ hs).bind fun _ _ => .ok trivial

theorem walk_yields {i : Int} (hi : g.Numbers i) :
    Yields (g.walk i) fun l => ∀ s ∈ l, g.network.Has s := by
  refine (hg.ruleAt_yields hi).bind fun r hr => ?_
  have hstart : ∀ s ∈ [r.start], g.network.Has s := fun s hs => by
    rw [List.mem_singleton.1 hs]
    exact hg.start r hr
  exact Yields.bind (Search.exists_breadthFirst (fun _ ha => hg.steps_yields ha) _ hstart)
    fun _ hl => .ok hl

theorem universe_steps : Search.Universe g.network.steps g.network.ids := fun a ha b hb => by
  obtain ⟨l, hl, hb⟩ := hb
  exact mem_ids_iff.2 ((hg.steps_yields (mem_ids_iff.1 ha)).of_eq hl b hb)

/-- A walk lists what the start leads to, nearest first. -/
theorem walk_breadth {r : Rule} (hr : r ∈ g.ruleList) :
    Yields (g.walk r.index) (Search.BreadthOrder g.network.steps r.start) := by
  have hstart : ∀ s ∈ [r.start], g.network.Has s := fun s hs => by
    rw [List.mem_singleton.1 hs]
    exact hg.start r hr
  obtain ⟨l, hl, -⟩ := Search.exists_breadthFirst (fun _ ha => hg.steps_yields ha)
    g.network.walkBound hstart
  exact ⟨l.toList, bind_eq_ok.2 ⟨r, hg.ruleAt_index hr, bind_eq_ok.2 ⟨l, hl, rfl⟩⟩,
    Search.breadthOrder_of_breadthFirst hg.universe_steps (mem_ids_iff.2 (hg.start r hr))
      length_ids_le hl⟩

theorem mem_walk_iff {r : Rule} (hr : r ∈ g.ruleList) :
    Yields (g.walk r.index) fun l => ∀ s, s ∈ l ↔ g.network.WalksTo r.start s :=
  (hg.walk_breadth hr).mono fun _ horder => horder.mem_iff

theorem transitionsOf_yields {i : Int} (hi : g.Numbers i) :
    Yields (g.transitionsOf i) fun l => ∀ t ∈ l, t.Resolves g := by
  refine (hg.walk_yields hi).bind fun states hstates =>
    (Yields.mapM_all fun s hs => hg.outgoing_yields (hstates s hs)).bind
      fun out hout => .ok fun t ht => ?_
  obtain ⟨l, hl, ht⟩ := List.mem_flatten.1 ht
  exact hout l hl t ht

/-- The calls of a rule are calls of rules that are there. -/
theorem calls_yields {i : Int} (hi : g.Numbers i) :
    Yields (g.calls i) fun l => ∀ t ∈ l, t.kind = .ruleCall ∧ t.Resolves g := by
  refine (hg.transitionsOf_yields hi).bind fun l hl => .ok fun t ht => ?_
  obtain ⟨ht, hk⟩ := List.mem_filter.1 ht
  exact ⟨by simpa using hk, hl t ht⟩

/-- The calls of a rule leave the states of a walk in it. -/
theorem mem_calls_iff {r : Rule} (hr : r ∈ g.ruleList) : Yields (g.calls r.index) fun l => ∀ t, t ∈ l ↔
    t.kind = .ruleCall ∧
      ∃ s out, g.network.WalksTo r.start s ∧ g.network.outgoing s = .ok out ∧ t ∈ out := by
  obtain ⟨states, hstates, hmem⟩ := hg.mem_walk_iff hr
  have hhas := (hg.walk_yields ⟨r, hr, rfl⟩).of_eq hstates
  obtain ⟨rows, hrows⟩ := exists_mapM fun s hs => (hg.outgoing_yields (hhas s hs)).result
  refine ⟨_, bind_eq_ok.2 ⟨rows.flatten, bind_eq_ok.2 ⟨states, hstates,
    bind_eq_ok.2 ⟨rows, hrows, rfl⟩⟩, rfl⟩, fun t => ?_⟩
  rw [List.mem_filter, List.mem_flatten, beq_iff_eq, and_comm]
  refine and_congr_right fun _ => ?_
  constructor
  · rintro ⟨out, hout, ht⟩
    obtain ⟨s, hs, hout⟩ := (mem_of_mapM hrows).1 hout
    exact ⟨s, out, (hmem s).1 hs, hout, ht⟩
  · rintro ⟨s, out, hs, hout, ht⟩
    exact ⟨out, (mem_of_mapM hrows).2 ⟨s, (hmem s).2 hs, hout⟩, ht⟩

theorem nullableRound_yields (known : OrderedSet Int) :
    Yields (g.nullableRound known) fun _ => True := by
  refine .foldlM trivial fun r hr known _ => .ite (fun _ => .ok trivial) fun _ => ?_
  exact (hg.reachesStop_yields _ (hg.start r hr) r.stop).bind fun _ _ =>
    .ite (fun _ => .ok trivial) fun _ => .ok trivial

theorem nullable_yields : Yields g.nullable fun _ => True := by
  have key : ∀ (bound : Nat) (known : OrderedSet Int),
      Yields (g.nullableRounds bound known) fun _ => True := by
    intro bound
    induction bound with
    | zero => exact fun known => .ok trivial
    | succ bound ih =>
      exact fun known => (hg.nullableRound_yields known).bind fun known' _ =>
        .ite (fun _ => .ok trivial) fun _ => ih known'
  exact key _ _

end Sound

end Grammar

end RuleNetwork
