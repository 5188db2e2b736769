import RuleNetwork.Proofs.Run.Walk

/-!
Trails: what a run does in one invocation, with every call that it makes passed as a whole. A trail
names the visits that it goes by, and a run that takes calls may follow one trail in several ways.

A derivation encloses a visit of a rule with some calls open if it enters the rule under those calls
and can be completed from the visit. If a derivation makes one call from one visit twice, and the first
time the call reads nothing, the two can change places, and what comes between them moves along.
-/

set_option autoImplicit false

namespace RuleNetwork

namespace Network

variable {n : Network} {rules : Nat} {types : List String} {i K : Nat}

/-- One transition within an invocation; a call leads to where it resumes. -/
inductive Hop (n : Network) (types : List String) (u : Visit) (id : Int) : Visit → Prop where
  | read {t : Transition} {k : Nat} (ht : n.Leaves u.state id t) (hr : t.Reads types u.position k) :
      Hop n types u id ⟨t.target, u.origin, k⟩
  | call {t : Transition} {callee follow z : Int} {k : Nat} {r : List Move}
      (hc : n.Calls u.state id t callee follow)
      (hr : n.run types (.enter t.target u.position) r = some ⟨z, u.position, k, []⟩)
      (hz : n.Ends z) : Hop n types u id ⟨follow, u.origin, k⟩

/-- A hop with the visits that it leads from and to. -/
structure Pace where
  source : Visit
  id : Int
  target : Visit

/-- Hops in a row, the last one listed first. -/
inductive Trail (n : Network) (types : List String) (u : Visit) : List Pace → Visit → Prop where
  | nil : Trail n types u [] u
  | cons {l : List Pace} {v w : Visit} {id : Int} (h : Trail n types u l v) (hop : n.Hop types v id w) :
      Trail n types u (⟨v, id, w⟩ :: l) w

theorem Leaves.unique {s id : Int} {t t' : Transition} (h : n.Leaves s id t) (h' : n.Leaves s id t') :
    t = t' := by
  obtain ⟨-, -, -, -, ht⟩ := h
  obtain ⟨-, -, -, -, ht'⟩ := h'
  rw [ht] at ht'
  exact Except.ok.inj ht'

theorem Hop.origin {u v : Visit} {id : Int} (h : n.Hop types u id v) : v.origin = u.origin := by
  cases h <;> rfl

theorem Hop.leaves {u v : Visit} {id : Int} (h : n.Hop types u id v) : ∃ t, n.Leaves u.state id t := by
  cases h with
  | read ht => exact ⟨_, ht⟩
  | call hc => exact ⟨_, hc.1⟩

/-- Along a transition that is not a call a hop reads what the transition reads. -/
theorem Leaves.hop_iff {u w : Visit} {id : Int} {t : Transition} (ht : n.Leaves u.state id t)
    (hk : t.kind ≠ .ruleCall) :
    n.Hop types u id w ↔ ∃ k, t.Reads types u.position k ∧ w = ⟨t.target, u.origin, k⟩ := by
  constructor
  · intro h
    cases h with
    | read ht' hr =>
      obtain rfl := ht.unique ht'
      exact ⟨_, hr, rfl⟩
    | call hc =>
      obtain rfl := ht.unique hc.1
      exact absurd (Transition.kind_of_call? hc.2) hk
  · rintro ⟨k, hr, rfl⟩
    exact .read ht hr

/-- Along a call a hop passes the callee. -/
theorem Calls.hop_iff {u w : Visit} {id callee follow : Int} {t : Transition}
    (hc : n.Calls u.state id t callee follow) :
    n.Hop types u id w ↔ ∃ k r z, n.run types (.enter t.target u.position) r =
      some ⟨z, u.position, k, []⟩ ∧ n.Ends z ∧ w = ⟨follow, u.origin, k⟩ := by
  constructor
  · intro h
    cases h with
    | read ht hr =>
      obtain rfl := hc.1.unique ht
      exact absurd (Transition.kind_of_call? hc.2) hr.kind_ne
    | call hc' hr hz =>
      obtain rfl := hc.1.unique hc'.1
      obtain ⟨-, rfl⟩ := Prod.mk.inj (Option.some.inj (hc.2.symm.trans hc'.2))
      exact ⟨_, _, _, hr, hz, rfl⟩
  · rintro ⟨k, r, z, hr, hz, rfl⟩
    exact .call hc hr hz

/-- A hop as a run, under any calls. -/
theorem Hop.run {u v : Visit} {id : Int} (h : n.Hop types u id v) (l : List Frame) :
    ∃ q, n.run types (u.config l) (.along id :: q) = some (v.config l) := by
  cases h with
  | read ht hr => exact ⟨[], run_cons_iff.2 ⟨_, step_read ht hr, rfl⟩⟩
  | call hc hr hz => exact ⟨_, run_over hc hr hz _ l⟩

theorem Hop.owns (hp : n.Proper rules) {u v : Visit} {id r : Int} (h : n.Hop types u id v)
    (ho : n.Owns r u.state) : n.Owns r v.state := by
  cases h with
  | read ht hr => exact (hp.inside_of_reads ht ho hr).owns
  | call hc =>
    obtain ⟨-, -, -, -, hin⟩ := hp.of_calls hc ho
    exact hin.owns

theorem Trail.origin {u v : Visit} {l : List Pace} (h : n.Trail types u l v) :
    v.origin = u.origin := by
  induction h with
  | nil => rfl
  | cons _ hop ih => exact hop.origin.trans ih

theorem Trail.append {u v w : Visit} {l l' : List Pace} (h : n.Trail types u l v)
    (h' : n.Trail types v l' w) : n.Trail types u (l' ++ l) w := by
  induction h' with
  | nil => exact h
  | cons _ hop ih => exact .cons ih hop

theorem Trail.single {u v : Visit} {id : Int} (h : n.Hop types u id v) :
    n.Trail types u [⟨u, id, v⟩] v := .cons .nil h

/-- Trails that part do not meet as one. -/
theorem append_ne_append {x x' t : List Pace} {p p' : Pace} (h : p ≠ p') :
    x ++ p :: t ≠ x' ++ p' :: t := by
  intro heq
  have hlen : x.length = x'.length := by
    have := congrArg List.length heq
    simp only [List.length_append, List.length_cons] at this
    omega
  obtain ⟨-, hcons⟩ := List.append_inj heq hlen
  exact h (List.cons.inj hcons).1

/-- A run that stays in its invocation follows a trail. -/
theorem exists_trail {s s' : Int} {o k k' : Nat} {ms : List Move}
    (h : n.run types ⟨s, o, k, []⟩ ms = some ⟨s', o, k', []⟩) :
    ∃ l, n.Trail types ⟨s, o, k⟩ l ⟨s', o, k'⟩ := by
  induction hlen : ms.length using Nat.strongRecOn generalizing s k ms with
  | ind len ih =>
    subst hlen
    obtain ⟨rfl, rfl, rfl⟩ | ⟨id, t, j, r, rfl, ht, hj, hr⟩ |
      ⟨id, t, callee, follow, q, z, j, r, rfl, hc, hq, hz, hr⟩ := first_cases h
    · exact ⟨[], .nil⟩
    · obtain ⟨l, hl⟩ := ih r.length (by simp) hr rfl
      exact ⟨_, (Trail.single (.read (u := ⟨s, o, k⟩) ht hj)).append hl⟩
    · obtain ⟨l, hl⟩ := ih r.length (by rw [length_over]; omega) hr rfl
      exact ⟨_, (Trail.single (.call (u := ⟨s, o, k⟩) hc hq hz)).append hl⟩

/-- A walk goes on with a hop. -/
theorem Walks.hop {j : Nat} {u v : Visit} {id : Int} {q : List Move} (h : n.Walks types j u q)
    (hop : n.Hop types u id v) : ∃ q', n.Walks types j v q' := by
  cases hop with
  | read ht hr => exact ⟨_, h.snoc ht hr⟩
  | call hc hr hz => exact ⟨_, h.call hc hr hz⟩

theorem Walks.trail {j : Nat} {u v : Visit} {l : List Pace} {q : List Move}
    (h : n.Walks types j u q) (ht : n.Trail types u l v) : ∃ q', n.Walks types j v q' := by
  induction ht with
  | nil => exact ⟨q, h⟩
  | cons _ hop ih =>
    obtain ⟨q', hq'⟩ := ih
    exact hq'.hop hop

/-- A derivation enters the rule under some calls and can be completed from the visit. -/
def Encloses (n : Network) (types : List String) (i K : Nat) (l : List Frame) (j : Nat) (v : Visit) :
    Prop :=
  (∃ p, n.run types (.enter (startState i) 0) p =
      some ((Config.enter (startState j) v.origin).under l)) ∧
    ∃ q, n.run types (v.config l) q = some ⟨stopState i, 0, K, []⟩

/-- A run that comes to the end of a rule goes back to the caller. -/
theorem run_of_ends {z : Int} {o k : Nat} {f : Frame} {l : List Frame} {q : List Move} {d : Config}
    (hz : n.Ends z) (h : n.run types ⟨z, o, k, f :: l⟩ q = some d) (hd : d.callers = []) :
    ∃ q', q = .back :: q' ∧ n.run types ⟨f.resume, f.origin, k, l⟩ q' = some d := by
  cases q with
  | nil =>
    cases h
    cases hd
  | cons m q =>
    obtain ⟨e, he, hr⟩ := run_cons_iff.1 h
    obtain ⟨id, t, j, -, ht, -⟩ | ⟨id, t, callee, follow, -, hc, -⟩ | ⟨rfl, -, g, r, hg, rfl⟩ :=
      step_cases he
    · exact absurd ht (not_leaves_of_ends hz)
    · exact absurd hc.1 (not_leaves_of_ends hz)
    · cases hg
      exact ⟨q, rfl, hr⟩

namespace Encloses

variable {l : List Frame} {j : Nat} {u v : Visit}

theorem passes (h : n.Encloses types i K l j v) {w : List Move} (hw : n.Walks types j v w) :
    n.Passes types i K (v.config l) := by
  obtain ⟨⟨p, hp⟩, hq⟩ := h
  exact ⟨⟨p ++ w, run_trans hp (run_under hw l)⟩, hq⟩

theorem visits (h : n.Encloses types i K l j v) {w : List Move} (hw : n.Walks types j v w) :
    n.Visits types i K v := ⟨l, h.passes hw⟩

theorem hop {id : Int} (h : n.Encloses types i K l j v) (hop : n.Hop types u id v) :
    n.Encloses types i K l j u := by
  obtain ⟨hp, q, hq⟩ := h
  obtain ⟨q', hq'⟩ := hop.run l
  rw [hop.origin] at hp
  exact ⟨hp, _, run_trans hq' hq⟩

theorem trail {x : List Pace} (h : n.Encloses types i K l j v) (ht : n.Trail types u x v) :
    n.Encloses types i K l j u := by
  induction ht with
  | nil => exact h
  | cons _ hop ih => exact ih (h.hop hop)

/-- Within a call that a derivation makes. -/
theorem inner {r : Nat} {p id callee follow z : Int} {o k k' : Nat} {t : Transition} {q : List Move}
    (h : n.Encloses types i K l j ⟨follow, o, k'⟩) (hq : n.Walks types j ⟨p, o, k⟩ q)
    (hc : n.Calls p id t callee follow) (ht : t.target = startState r) (hz : n.Ends z) :
    n.Encloses types i K (⟨follow, o⟩ :: l) r ⟨z, k, k'⟩ := by
  obtain ⟨⟨a, ha⟩, b, hb⟩ := h
  refine ⟨⟨a ++ (q ++ [.along id]), ?_⟩, .back :: b, run_cons_iff.2 ⟨_, step_back hz, hb⟩⟩
  have hcall : n.step types ⟨p, o, k, l⟩ (.along id) = some ⟨t.target, k, k, ⟨follow, o⟩ :: l⟩ :=
    step_call hc
  rw [ht] at hcall
  exact run_trans ha (run_snoc (run_under hq l) hcall)

/-- Out of a call that a derivation comes to the end of. -/
theorem outer {f : Frame} {z : Int} {o k r : Nat} {a : List Move}
    (h : n.Encloses types i K (f :: l) j ⟨z, o, k⟩) (hz : n.Ends z)
    (ha : n.run types (.enter (startState i) 0) a =
      some ((Config.enter (startState r) f.origin).under l)) :
    n.Encloses types i K l r ⟨f.resume, f.origin, k⟩ := by
  obtain ⟨-, q, hq⟩ := h
  obtain ⟨q', -, hq'⟩ := run_of_ends hz hq rfl
  exact ⟨⟨a, ha⟩, q', hq'⟩

end Encloses

/-- A run that does not end in the call that it makes first hops over it. -/
theorem exists_hop {v : Visit} {l : List Frame} {id : Int} {q : List Move} {d : Config}
    (h : n.run types (v.config l) (.along id :: q) = some d) (hd : d.callers.length ≤ l.length) :
    ∃ w q', n.Hop types v id w ∧ n.run types (w.config l) q' = some d := by
  obtain ⟨s, o, k⟩ := v
  obtain ⟨e, he, hr⟩ := run_cons_iff.1 h
  obtain ⟨id', t, j, hid, ht, hj, rfl⟩ | ⟨id', t, callee, follow, hid, hc, rfl⟩ | ⟨hm, -⟩ :=
    step_cases he
  · cases hid
    exact ⟨⟨t.target, o, j⟩, q, .read (u := ⟨s, o, k⟩) ht hj, hr⟩
  · cases hid
    obtain ⟨r, z, o', j, q', -, hrun, hz, hrest⟩ := exists_return (a := []) hr hd
    obtain rfl := origin_of_run hrun
    exact ⟨⟨follow, o, j⟩, q', .call (u := ⟨s, o, o'⟩) hc hrun hz, hrest⟩
  · cases hm

/-- A derivation that is at a visit goes on to the end of the visit's invocation. -/
theorem Proper.exists_stop (hp : n.Proper rules) (hi : i < rules) {j : Nat} (hj : j < rules)
    {l : List Frame} {v : Visit} {w : List Move} (he : n.Encloses types i K l j v)
    (hw : n.Walks types j v w) :
    ∃ m x, n.Trail types v x ⟨stopState j, v.origin, m⟩ ∧
      n.Encloses types i K l j ⟨stopState j, v.origin, m⟩ := by
  obtain ⟨s, o, k⟩ := v
  obtain ⟨hentry, q, hq⟩ := he
  have hown := hp.owns_of_walks hj hw
  cases l with
  | nil =>
    obtain rfl := origin_of_run hq
    have hstop : j = i :=
      Int.ofNat.inj ((hp.owns_of_run hq hown).unique (hp.owns_stop hi))
    subst hstop
    obtain ⟨x, hx⟩ := exists_trail hq
    exact ⟨K, x, hx, hentry, [], rfl⟩
  | cons f l =>
    obtain ⟨q₁, z, o', m, q₂, rfl, hrun, hz, hrest⟩ :=
      exists_return (s := s) (o := o) (k := k) (a := []) hq (Nat.zero_le _)
    obtain rfl := origin_of_run hrun
    obtain rfl := hp.eq_stop (hp.owns_of_run hrun hown) hz
    obtain ⟨x, hx⟩ := exists_trail hrun
    exact ⟨m, x, hx, hentry, .back :: q₂, run_cons_iff.2 ⟨_, step_back hz, hrest⟩⟩

/-- The caller of an invocation that is entered in a derivation. -/
theorem Proper.exists_caller (hp : n.Proper rules) (hi : i < rules) {j o : Nat} (hj : j < rules)
    {f : Frame} {l : List Frame} {p : List Move}
    (h : n.run types (.enter (startState i) 0) p =
      some ((Config.enter (startState j) o).under (f :: l))) :
    ∃ j' < rules, ∃ s id t w a, n.Owns j' s ∧ n.Calls s id t j f.resume ∧ t.target = startState j ∧
      n.Walks types j' ⟨s, f.origin, o⟩ w ∧
      n.run types (.enter (startState i) 0) a =
        some ((Config.enter (startState j') f.origin).under l) := by
  obtain ⟨p₁, s, k, id, t, callee, p₂, rfl, hrun, hc, hrest⟩ :=
    exists_call (a := []) h (Nat.zero_le _) rfl
  obtain rfl := origin_of_run hrest
  obtain ⟨owner, hown⟩ := hc.1.owned
  obtain ⟨j₁, hj₁, rfl, ht, -⟩ := hp.of_calls hc hown
  rw [ht] at hrest
  have hsame := (hp.owns_of_run hrest (hp.owns_start hj₁)).unique (hp.owns_start hj)
  obtain rfl := Int.ofNat.inj hsame
  obtain ⟨j', hj', a, w, -, hw, ho, ha⟩ := hp.exists_walk hi (v := ⟨s, f.origin, o⟩) hrun
  exact ⟨j', hj', s, id, t, w, a, ho, hc, ht, hw, ha⟩

/-- Every visit of a derivation is enclosed in one. -/
theorem Proper.exists_encloses (hp : n.Proper rules) (hi : i < rules) {v : Visit}
    (h : n.Visits types i K v) :
    ∃ j < rules, n.Owns j v.state ∧ ∃ l w, n.Encloses types i K l j v ∧ n.Walks types j v w := by
  obtain ⟨l, ⟨p, hrun⟩, hq⟩ := h
  obtain ⟨j, hj, a, w, -, hw, ho, ha⟩ := hp.exists_walk hi hrun
  exact ⟨j, hj, ho, l, w, ⟨⟨a, ha⟩, hq⟩, hw⟩

/-- A rule is enclosed up to one of its visits, and walks to another one. -/
theorem Proper.exists_encloses_walks (hp : n.Proper rules) (hi : i < rules) {u v : Visit} {r : Int}
    (hv : n.Visits types i K v) (hu : n.Visits types i K u) (hrv : n.Owns r v.state)
    (hru : n.Owns r u.state) :
    ∃ j < rules, r = Int.ofNat j ∧ ∃ l w, n.Encloses types i K l j v ∧ n.Walks types j u w := by
  obtain ⟨j, hj, hown, l, -, he, -⟩ := hp.exists_encloses hi hv
  obtain ⟨j', -, hown', -, w, -, hw⟩ := hp.exists_encloses hi hu
  obtain rfl := hrv.unique hown
  obtain rfl := Int.ofNat.inj (hru.unique hown')
  exact ⟨j, hj, rfl, l, w, he, hw⟩

/-- A derivation of the first `K` tokens takes the transition at the visit. -/
def Takes (n : Network) (types : List String) (i K : Nat) (v : Visit) (id : Int) : Prop :=
  ∃ l, (∃ p, n.run types (.enter (startState i) 0) p = some (v.config l)) ∧
    ∃ q, n.run types (v.config l) (.along id :: q) = some ⟨stopState i, 0, K, []⟩

/-- A transition is taken where derivations go by both ends of a hop along it. -/
theorem Proper.takes_iff (hp : n.Proper rules) (hi : i < rules) {v : Visit} {id : Int} :
    n.Takes types i K v id ↔
      n.Visits types i K v ∧ ∃ w, n.Visits types i K w ∧ n.Hop types v id w := by
  constructor
  · rintro ⟨l, ⟨p, hrun⟩, q, hrest⟩
    obtain ⟨w, q', hop, hrest'⟩ := exists_hop hrest (Nat.zero_le _)
    obtain ⟨q'', hop'⟩ := hop.run l
    exact ⟨⟨l, ⟨p, hrun⟩, _, hrest⟩, w, ⟨l, ⟨_, run_trans hrun hop'⟩, q', hrest'⟩, hop⟩
  · rintro ⟨hv, w, hw, hop⟩
    obtain ⟨r, -, hown, -⟩ := hp.exists_encloses hi hv
    obtain ⟨j, -, -, l, q, he, hq⟩ :=
      hp.exists_encloses_walks hi hw hv (hop.owns hp hown) hown
    obtain ⟨q', hrest⟩ := hop.run l
    obtain ⟨q'', hend⟩ := he.2
    exact ⟨l, ((he.hop hop).passes hq).1, _, run_trans hrest hend⟩

/-- A derivation that goes by a visit before the end of a rule takes some transition there. -/
theorem exists_takes {v : Visit} (hstop : n.Ends (stopState i)) (h : n.Visits types i K v)
    (hs : ¬ n.Ends v.state) : ∃ id, n.Takes types i K v id := by
  obtain ⟨l, hp, q, hq⟩ := h
  cases q with
  | nil =>
    have hsame : v.state = stopState i := congrArg Config.state (Option.some.inj hq)
    exact absurd (hsame ▸ hstop) hs
  | cons m q =>
    obtain ⟨e, he, -⟩ := run_cons_iff.1 hq
    obtain ⟨id, -, -, rfl, -⟩ | ⟨id, -, -, -, rfl, -⟩ | ⟨-, hend, -⟩ := step_cases he
    · exact ⟨id, l, hp, q, hq⟩
    · exact ⟨id, l, hp, q, hq⟩
    · exact absurd hend hs

/-- A derivation of the first `K` tokens invokes the rule. -/
def Invokes (n : Network) (types : List String) (i K j : Nat) : Prop :=
  ∃ o, n.Visits types i K ⟨startState j, o, o⟩

/-- A derivation that goes by a visit has invoked the rule of the visit. -/
theorem Proper.invokes_iff (hp : n.Proper rules) (hi : i < rules) {j : Nat} (hj : j < rules) :
    n.Invokes types i K j ↔ ∃ v, n.Visits types i K v ∧ n.Owns j v.state := by
  constructor
  · rintro ⟨o, h⟩
    exact ⟨_, h, hp.owns_start hj⟩
  · rintro ⟨v, h, hown⟩
    obtain ⟨j', -, hown', l, w, ⟨hentry, q, hq⟩, hw⟩ := hp.exists_encloses hi h
    obtain rfl := Int.ofNat.inj (hown.unique hown')
    exact ⟨v.origin, l, hentry, _, run_trans (run_under hw l) hq⟩

end Network

namespace Network

variable {n : Network} {types : List String} {i K : Nat}

/-- Two runs to the end of a rule, both followed by the way back. -/
theorem eq_of_append_back {c : Config} {z z' : Int} {o o' k k' : Nat} {r r' x x' : List Move}
    (h : n.run types c r = some ⟨z, o, k, []⟩) (hz : n.Ends z)
    (h' : n.run types c r' = some ⟨z', o', k', []⟩) (hz' : n.Ends z')
    (heq : r ++ .back :: x = r' ++ .back :: x') : r = r' := by
  have key : ∀ {z : Int} {o k : Nat} {r y x x' : List Move} {d : Config},
      n.run types c r = some ⟨z, o, k, []⟩ → n.Ends z → n.run types c (r ++ y) = some d →
      .back :: x = y ++ .back :: x' → y = [] := by
    intro z o k r y x x' d h hz hy heq
    cases y with
    | nil => rfl
    | cons m y =>
      obtain ⟨e, he, hrest⟩ := run_append_iff.1 hy
      rw [h] at he
      cases he
      exact absurd hrest (not_run_of_ends hz)
  obtain ⟨y, rfl, hy⟩ | ⟨y, rfl, hy⟩ := List.append_eq_append_iff.1 heq
  · rw [key h hz h' hy, List.append_nil]
  · rw [key h' hz' h hy, List.append_nil]

/-- A derivation calls a rule from a visit and comes back from it at a position. -/
structure Through (n : Network) (types : List String) (i K : Nat) (u : Visit) (id follow : Int)
    (t : Transition) (m : Nat) (p r v : List Move) (l : List Frame) : Prop where
  before : n.run types (.enter (startState i) 0) p = some (u.config l)
  inside : ∃ z, n.run types (.enter t.target u.position) r = some ⟨z, u.position, m, []⟩ ∧ n.Ends z
  after : n.run types ⟨follow, u.origin, m, l⟩ v = some ⟨stopState i, 0, K, []⟩

namespace Through

variable {u : Visit} {id callee follow : Int} {t : Transition} {m m' : Nat}
  {p p' r r' v v' : List Move} {l l' : List Frame}

theorem derives (h : n.Through types i K u id follow t m p r v l) (hc : n.Calls u.state id t callee follow) :
    n.run types (.enter (startState i) 0) (p ++ .along id :: (r ++ .back :: v)) =
      some ⟨stopState i, 0, K, []⟩ := by
  obtain ⟨hp, ⟨z, hr, hz⟩, hv⟩ := h
  have hrun := run_trans hp (run_trans (run_over hc hr hz u.origin l) hv)
  simpa using hrun

theorem position_eq (h : n.Through types i K u id follow t m p r v l)
    (h' : n.Through types i K u id follow t m' p' r v' l') : m = m' := by
  obtain ⟨z, hr, -⟩ := h.inside
  obtain ⟨z', hr', -⟩ := h'.inside
  rw [hr] at hr'
  cases hr'
  rfl

/-- Two calls one after the other, of which the first reads nothing, change places. -/
theorem swap (h : n.Through types i K u id follow t u.position p r v l)
    (h' : n.Through types i K u id follow t m' p' r' v' l')
    (hc : n.Calls u.state id t callee follow) {y : List Move}
    (hy : n.run types ⟨follow, u.origin, u.position, l⟩ y = some (u.config l')) :
    n.run types (.enter (startState i) 0)
        (p ++ .along id :: (r' ++ .back :: (y ++ .along id :: (r ++ .back :: v')))) =
      some ⟨stopState i, 0, K, []⟩ := by
  obtain ⟨z, hr, hz⟩ := h.inside
  obtain ⟨z', hr', hz'⟩ := h'.inside
  have hfirst := run_trans h.before (run_over hc hr' hz' u.origin l)
  -- what comes between reads nothing, so it can be moved to the end of the second call
  have hmoved : ∃ d, n.run types ⟨follow, u.origin, m', l⟩ y = some d ∧ (u.config l').Like d ∧
      d.position = m' + (u.position - u.position) :=
    run_transport hy ⟨rfl, rfl⟩ fun j hj => by
      change u.position + j < u.position at hj
      omega
  obtain ⟨⟨s, o, k, l₁⟩, hy', ⟨hs, hl⟩, hk⟩ := hmoved
  rw [Nat.sub_self, Nat.add_zero] at hk
  obtain rfl : u.state = s := hs
  obtain rfl : m' = k := hk.symm
  have hr₁ : n.run types ⟨t.target, m', m', []⟩ r =
      some ⟨z, m', m' + (u.position - u.position), []⟩ :=
    run_local_transport hr m' fun j hj => by omega
  rw [Nat.sub_self, Nat.add_zero] at hr₁
  have hsecond := run_over hc hr₁ hz o l₁
  have hrest : ∃ d, n.run types ⟨follow, o, m', l₁⟩ v' = some d ∧
      (Config.mk (stopState i) 0 K []).Like d ∧ d.position = m' + (K - m') :=
    run_transport h'.after ⟨rfl, hl⟩ fun j hj => rfl
  obtain ⟨⟨s, o', k, l₂⟩, hv, ⟨hs, hl₂⟩, hk⟩ := hrest
  have hle : m' ≤ K := (run_position h'.after).1
  obtain rfl : stopState i = s := hs
  obtain rfl : l₂ = [] := by simpa using hl₂.symm
  obtain rfl : k = K := by
    simp only at hk
    omega
  have hrun := run_trans hfirst (run_trans hy' (run_trans hsecond hv))
  obtain rfl := origin_of_run hrun
  simpa using hrun

/-- What happens between two calls of which one comes after the other. -/
theorem between {q : List Move} (h : n.Through types i K u id follow t m p r v l)
    (h' : n.Through types i K u id follow t m' (p ++ .along id :: (r ++ .back :: q)) r' v' l')
    (hc : n.Calls u.state id t callee follow) :
    n.run types ⟨follow, u.origin, m, l⟩ q = some (u.config l') := by
  obtain ⟨z, hr, hz⟩ := h.inside
  have hover := run_trans h.before (run_over hc hr hz u.origin l)
  have hbefore := h'.before
  rw [show p ++ .along id :: (r ++ .back :: q) = (p ++ .along id :: (r ++ [.back])) ++ q by simp]
    at hbefore
  obtain ⟨e, he, hq⟩ := run_append_iff.1 hbefore
  rw [hover] at he
  cases he
  exact hq

/-- Where a derivation makes a call once more after it has returned, the two change places. -/
theorem derives_swapped {q : List Move} (h : n.Through types i K u id follow t m p r v l)
    (h' : n.Through types i K u id follow t m' (p ++ .along id :: (r ++ .back :: q)) r' v' l')
    (hc : n.Calls u.state id t callee follow) :
    n.run types (.enter (startState i) 0)
        (p ++ .along id :: (r' ++ .back :: (q ++ .along id :: (r ++ .back :: v')))) =
      some ⟨stopState i, 0, K, []⟩ := by
  obtain ⟨z, hr, -⟩ := h.inside
  have hq := h.between h' hc
  -- the second call is made where the first one was, so that this one has read nothing
  have hge : u.position ≤ m := (run_position hr).1
  have hle : m ≤ u.position := (run_position hq).1
  obtain rfl : m = u.position := Nat.le_antisymm hle hge
  exact h.swap h' hc hq

end Through

end Network

end RuleNetwork
