import RuleNetwork.Grammar.Basic

/-!
Runs of a network with a stack of calls. A run goes along transitions and, at the end of a rule, back
to where the caller resumes. Runs are given by their moves, so two runs from one configuration differ
exactly when their moves do.
-/

set_option autoImplicit false

namespace RuleNetwork

/-- An open call: where its caller resumes, and where the caller's invocation began. -/
structure Frame where
  resume : Int
  origin : Nat
  deriving DecidableEq, Repr, Inhabited

/-- A run under way. The innermost open invocation began after `origin` tokens and is at `state` after
`position` tokens; the open calls are listed from the innermost one on. -/
structure Config where
  state : Int
  origin : Nat
  position : Nat
  callers : List Frame
  deriving DecidableEq, Repr, Inhabited

inductive Move where
  /-- Along the transition of that number. -/
  | along (transition : Int)
  /-- Out of a rule that has come to its end. -/
  | back
  deriving DecidableEq, Repr, Inhabited

namespace Config

/-- A rule entered after `k` tokens, without callers. -/
def enter (start : Int) (k : Nat) : Config := ⟨start, k, k, []⟩

/-- The same with further open calls below. -/
def under (c : Config) (callers : List Frame) : Config := { c with callers := c.callers ++ callers }

@[simp] theorem under_nil (c : Config) : c.under [] = c := by simp [under]

@[simp] theorem under_state (c : Config) (l : List Frame) : (c.under l).state = c.state := rfl

@[simp] theorem under_position (c : Config) (l : List Frame) : (c.under l).position = c.position := rfl

@[simp] theorem under_mk (s : Int) (o k : Nat) (a b : List Frame) :
    (Config.mk s o k a).under b = ⟨s, o, k, a ++ b⟩ := rfl

end Config

/-- The configuration after a transition, if the next token lets it pass. -/
def Transition.pass (t : Transition) (types : List String) (c : Config) : Option Config :=
  match t.kind with
  | .terminal =>
    if (types[c.position]?).any t.tokens.contains then
      some { c with state := t.target, position := c.position + 1 }
    else none
  | .ruleCall =>
    match t.call? with
    | some (_, follow) => some ⟨t.target, c.position, c.position, ⟨follow, c.origin⟩ :: c.callers⟩
    | none => none
  | .epsilon | .predicate => some { c with state := t.target }

namespace Transition

/-- A transition without a call passes from one position to another. -/
def Reads (t : Transition) (types : List String) (k k' : Nat) : Prop :=
  match t.kind with
  | .terminal => (∃ x, types[k]? = some x ∧ x ∈ t.tokens) ∧ k' = k + 1
  | .ruleCall => False
  | .epsilon | .predicate => k' = k

theorem of_call? {t : Transition} {callee follow : Int} (h : t.call? = some (callee, follow)) :
    t.kind = .ruleCall ∧ t.rule = some callee ∧ t.follow = some follow := by
  unfold call? at h
  split at h
  · rename_i hk hr hf
    cases h
    exact ⟨hk, hr, hf⟩
  · cases h

theorem kind_of_call? {t : Transition} {x : Int × Int} (h : t.call? = some x) :
    t.kind = .ruleCall := (of_call? h).1

theorem pass_iff {t : Transition} {types : List String} {c d : Config} :
    t.pass types c = some d ↔
      (∃ k, t.Reads types c.position k ∧ d = ⟨t.target, c.origin, k, c.callers⟩) ∨
      ∃ callee follow, t.call? = some (callee, follow) ∧
        d = ⟨t.target, c.position, c.position, ⟨follow, c.origin⟩ :: c.callers⟩ := by
  constructor
  · intro h
    unfold pass at h
    split at h
    · rename_i hk
      split at h
      · rename_i ht
        have hx : ∃ x, types[c.position]? = some x ∧ x ∈ t.tokens := by
          simpa [Option.any_eq_true] using ht
        exact .inl ⟨_, by simpa [Reads, hk] using hx, (Option.some.inj h).symm⟩
      · cases h
    · split at h
      · rename_i callee follow hc
        exact .inr ⟨callee, follow, hc, (Option.some.inj h).symm⟩
      · cases h
    all_goals
      rename_i hk
      exact .inl ⟨_, by simp [Reads, hk], (Option.some.inj h).symm⟩
  · rintro (⟨k, hr, rfl⟩ | ⟨callee, follow, hc, rfl⟩)
    · unfold Reads at hr
      split at hr
      · rename_i hk
        obtain ⟨hx, rfl⟩ := hr
        have ht : (types[c.position]?).any t.tokens.contains = true := by
          simpa [Option.any_eq_true] using hx
        simp only [pass, hk, ht, if_true]
      · exact hr.elim
      all_goals
        rename_i hk
        simp only [pass, hk, hr]
    · simp only [pass, kind_of_call? hc, hc]

theorem reads_of_isFree {t : Transition} {types : List String} (h : t.isFree = true) {k k' : Nat} :
    t.Reads types k k' ↔ k' = k := by
  unfold isFree at h
  unfold Reads
  split at h <;> simp_all

theorem reads_of_terminal {t : Transition} {types : List String} (h : t.kind = .terminal)
    {k k' : Nat} :
    t.Reads types k k' ↔ (∃ x, types[k]? = some x ∧ x ∈ t.tokens) ∧ k' = k + 1 := by
  unfold Reads
  rw [h]

theorem Reads.isFree_or_terminal {t : Transition} {types : List String} {k k' : Nat}
    (h : t.Reads types k k') : t.isFree = true ∨ t.kind = .terminal := by
  unfold Reads at h
  unfold isFree
  split at h <;> simp_all

theorem Reads.kind_ne {t : Transition} {types : List String} {k k' : Nat} (h : t.Reads types k k') :
    t.kind ≠ .ruleCall := by
  intro hk
  unfold Reads at h
  rw [hk] at h
  exact h

theorem Reads.bounds {t : Transition} {types : List String} {k k' : Nat} (h : t.Reads types k k') :
    k ≤ k' ∧ (k' ≤ k ∨ k' ≤ types.length) := by
  unfold Reads at h
  split at h
  · obtain ⟨⟨x, hx, -⟩, rfl⟩ := h
    exact ⟨Nat.le_succ k, .inr (List.getElem?_eq_some_iff.1 hx).1⟩
  · exact h.elim
  all_goals exact ⟨Nat.le_of_eq h.symm, .inl (Nat.le_of_eq h)⟩

end Transition

namespace Network

variable (n : Network) (types : List String)

def step (c : Config) (m : Move) : Option Config :=
  match n.state c.state with
  | .error _ => none
  | .ok s =>
    match m with
    | .along id =>
      match n.transition id with
      | .error _ => none
      | .ok t => if s.kind ≠ .ruleStop ∧ id ∈ s.transitions then t.pass types c else none
    | .back =>
      match c.callers with
      | [] => none
      | f :: r => if s.kind = .ruleStop then some ⟨f.resume, f.origin, c.position, r⟩ else none

def run (c : Config) (ms : List Move) : Option Config := ms.foldlM (n.step types) c

/-- A run through a whole rule that reads the first `k` tokens and leaves no call open. -/
def IsDerivation (r : Rule) (k : Nat) (ms : List Move) : Prop :=
  n.run types (.enter r.start 0) ms = some ⟨r.stop, 0, k, []⟩

instance (r : Rule) (k : Nat) (ms : List Move) : Decidable (n.IsDerivation types r k ms) :=
  inferInstanceAs (Decidable (_ = _))

/-- A rule derives a row of tokens. -/
def Derives (r : Rule) (types : List String) : Prop := ∃ ms, n.IsDerivation types r types.length ms

/-- A transition leaves a state that does not end its rule. -/
def Leaves (s id : Int) (t : Transition) : Prop :=
  ∃ st, n.state s = .ok st ∧ st.kind ≠ .ruleStop ∧ id ∈ st.transitions ∧ n.transition id = .ok t

/-- A call along a transition: what it calls, and where it resumes. -/
def Calls (s id : Int) (t : Transition) (callee follow : Int) : Prop :=
  n.Leaves s id t ∧ t.call? = some (callee, follow)

def Ends (s : Int) : Prop := ∃ st, n.state s = .ok st ∧ st.kind = .ruleStop

variable {n types}

theorem step_along_iff {c d : Config} {id : Int} :
    n.step types c (.along id) = some d ↔ ∃ t, n.Leaves c.state id t ∧ t.pass types c = some d := by
  constructor
  · intro h
    unfold step at h
    split at h
    · cases h
    · rename_i s hs
      simp only at h
      split at h
      · cases h
      · rename_i t ht
        split at h
        · rename_i hk
          exact ⟨t, ⟨s, hs, hk.1, hk.2, ht⟩, h⟩
        · cases h
  · rintro ⟨t, ⟨s, hs, hk, hi, ht⟩, hp⟩
    simp only [step, hs, ht]
    rw [if_pos ⟨hk, hi⟩]
    exact hp

theorem step_back_iff {c d : Config} :
    n.step types c .back = some d ↔
      n.Ends c.state ∧ ∃ f r, c.callers = f :: r ∧ d = ⟨f.resume, f.origin, c.position, r⟩ := by
  constructor
  · intro h
    unfold step at h
    split at h
    · cases h
    · rename_i s hs
      simp only at h
      split at h
      · cases h
      · rename_i f r hc
        split at h
        · rename_i hk
          exact ⟨⟨s, hs, hk⟩, f, r, hc, (Option.some.inj h).symm⟩
        · cases h
  · rintro ⟨⟨s, hs, hk⟩, f, r, hc, rfl⟩
    simp only [step, hs, hc]
    rw [if_pos hk]

/-- All that one step can do: read, call or return. -/
theorem step_cases {c d : Config} {m : Move} (h : n.step types c m = some d) :
    (∃ id t k, m = .along id ∧ n.Leaves c.state id t ∧ t.Reads types c.position k ∧
      d = ⟨t.target, c.origin, k, c.callers⟩) ∨
    (∃ id t callee follow, m = .along id ∧ n.Calls c.state id t callee follow ∧
      d = ⟨t.target, c.position, c.position, ⟨follow, c.origin⟩ :: c.callers⟩) ∨
    (m = .back ∧ n.Ends c.state ∧
      ∃ f r, c.callers = f :: r ∧ d = ⟨f.resume, f.origin, c.position, r⟩) := by
  cases m with
  | along id =>
    obtain ⟨t, ht, hp⟩ := step_along_iff.1 h
    obtain ⟨k, hk, rfl⟩ | ⟨callee, follow, hc, rfl⟩ := Transition.pass_iff.1 hp
    · exact .inl ⟨id, t, k, rfl, ht, hk, rfl⟩
    · exact .inr (.inl ⟨id, t, callee, follow, rfl, ⟨ht, hc⟩, rfl⟩)
  | back =>
    obtain ⟨he, hc⟩ := step_back_iff.1 h
    exact .inr (.inr ⟨rfl, he, hc⟩)

theorem step_read {s id : Int} {t : Transition} {o k k' : Nat} {l : List Frame}
    (h : n.Leaves s id t) (hr : t.Reads types k k') :
    n.step types ⟨s, o, k, l⟩ (.along id) = some ⟨t.target, o, k', l⟩ :=
  step_along_iff.2 ⟨t, h, Transition.pass_iff.2 (.inl ⟨k', hr, rfl⟩)⟩

theorem step_call {s id callee follow : Int} {t : Transition} {o k : Nat} {l : List Frame}
    (h : n.Calls s id t callee follow) :
    n.step types ⟨s, o, k, l⟩ (.along id) = some ⟨t.target, k, k, ⟨follow, o⟩ :: l⟩ :=
  step_along_iff.2 ⟨t, h.1, Transition.pass_iff.2 (.inr ⟨callee, follow, h.2, rfl⟩)⟩

theorem step_back {s : Int} {o k : Nat} {f : Frame} {l : List Frame} (h : n.Ends s) :
    n.step types ⟨s, o, k, f :: l⟩ .back = some ⟨f.resume, f.origin, k, l⟩ :=
  step_back_iff.2 ⟨h, f, l, rfl, rfl⟩

theorem not_leaves_of_ends {s id : Int} {t : Transition} (h : n.Ends s) : ¬ n.Leaves s id t := by
  obtain ⟨a, ha, hk⟩ := h
  rintro ⟨b, hb, hb', -⟩
  rw [ha] at hb
  cases hb
  exact hb' hk

@[simp] theorem run_nil (c : Config) : n.run types c [] = some c := rfl

theorem run_cons (c : Config) (m : Move) (ms : List Move) :
    n.run types c (m :: ms) = (n.step types c m).bind fun d => n.run types d ms := by
  simp only [run, List.foldlM_cons]
  rfl

theorem run_cons_iff {c d : Config} {m : Move} {ms : List Move} :
    n.run types c (m :: ms) = some d ↔
      ∃ e, n.step types c m = some e ∧ n.run types e ms = some d := by
  rw [run_cons, Option.bind_eq_some_iff]

theorem run_append (c : Config) (a b : List Move) :
    n.run types c (a ++ b) = (n.run types c a).bind fun d => n.run types d b := by
  simp only [run, List.foldlM_append]
  rfl

theorem run_append_iff {c d : Config} {a b : List Move} :
    n.run types c (a ++ b) = some d ↔
      ∃ e, n.run types c a = some e ∧ n.run types e b = some d := by
  rw [run_append, Option.bind_eq_some_iff]

theorem run_trans {c d e : Config} {a b : List Move} (h : n.run types c a = some d)
    (h' : n.run types d b = some e) : n.run types c (a ++ b) = some e :=
  run_append_iff.2 ⟨d, h, h'⟩

theorem run_snoc {c d e : Config} {a : List Move} {m : Move} (h : n.run types c a = some d)
    (h' : n.step types d m = some e) : n.run types c (a ++ [m]) = some e :=
  run_trans h (run_cons_iff.2 ⟨e, h', rfl⟩)

end Network

end RuleNetwork
