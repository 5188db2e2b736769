import Mathlib.Logic.Relation
import RuleNetwork.Proofs.Run.Walk

/-!
What a run does before it reads a token. A run that reads nothing goes along free transitions and over
calls whose callees are passed without input, and it can be made anywhere. The first token that a run
reads is read where such a run leads, or in a callee that is entered there.
-/

set_option autoImplicit false

namespace RuleNetwork

namespace Network

variable {n : Network} {types : List String} {s s' s'' : Int}

/-- Some run leads from one state to another in the same invocation and reads nothing. -/
def Skips (n : Network) (s s' : Int) : Prop :=
  ∃ ms, n.run [] ⟨s, 0, 0, []⟩ ms = some ⟨s', 0, 0, []⟩

theorem Skips.run (h : n.Skips s s') (types : List String) (o k : Nat) :
    ∃ ms, n.run types ⟨s, o, k, []⟩ ms = some ⟨s', o, k, []⟩ := by
  obtain ⟨ms, h⟩ := h
  exact ⟨ms, run_local_transport h o fun i hi => absurd hi (Nat.not_lt_zero _)⟩

theorem skips_of_run {o o' k : Nat} {ms : List Move}
    (h : n.run types ⟨s, o, k, []⟩ ms = some ⟨s', o', k, []⟩) : n.Skips s s' := by
  obtain rfl := origin_of_run h
  have hsame : ∀ j, k + j < k → ([] : List String)[0 + j]? = types[k + j]? := fun j hj =>
    absurd hj (by omega)
  have hrun := run_local_transport h 0 hsame
  rw [Nat.sub_self] at hrun
  exact ⟨ms, hrun⟩

theorem Skips.refl (s : Int) : n.Skips s s := ⟨[], rfl⟩

theorem Skips.trans (h : n.Skips s s') (h' : n.Skips s' s'') : n.Skips s s'' := by
  obtain ⟨a, ha⟩ := h
  obtain ⟨b, hb⟩ := h'
  exact ⟨a ++ b, run_trans ha hb⟩

/-- One step of a run that reads nothing; a call is passed as a whole. -/
inductive Silent (n : Network) (s : Int) : Int → Prop where
  | free {id : Int} {t : Transition} (ht : n.Leaves s id t) (hf : t.isFree = true) :
      Silent n s t.target
  | call {id callee follow z : Int} {t : Transition} (hc : n.Calls s id t callee follow)
      (hs : n.Skips t.target z) (hz : n.Ends z) : Silent n s follow

theorem Silent.skips (h : n.Silent s s') : n.Skips s s' := by
  cases h with
  | free ht hf =>
    exact ⟨[_], run_cons_iff.2 ⟨_, step_read ht ((Transition.reads_of_isFree hf).2 rfl), rfl⟩⟩
  | call hc hs hz =>
    obtain ⟨ms, hms⟩ := hs
    exact ⟨_, run_over hc hms hz 0 []⟩

/-- What a run that reads nothing does first. -/
theorem silent_cases {ms : List Move} (h : n.run [] ⟨s, 0, 0, []⟩ ms = some ⟨s', 0, 0, []⟩) :
    (ms = [] ∧ s' = s) ∨
    (∃ id t r, n.Leaves s id t ∧ t.isFree = true ∧ r.length < ms.length ∧
      n.run [] ⟨t.target, 0, 0, []⟩ r = some ⟨s', 0, 0, []⟩) ∨
    ∃ id t callee follow q z r, n.Calls s id t callee follow ∧ q.length < ms.length ∧
      r.length < ms.length ∧ n.run [] (.enter t.target 0) q = some ⟨z, 0, 0, []⟩ ∧ n.Ends z ∧
      n.run [] ⟨follow, 0, 0, []⟩ r = some ⟨s', 0, 0, []⟩ := by
  obtain ⟨hms, hs, -⟩ | ⟨id, t, j, r, rfl, ht, hj, hr⟩ |
    ⟨id, t, callee, follow, q, z, j, r, rfl, hc, hq, hz, hr⟩ := first_cases h
  · exact .inl ⟨hms, hs⟩
  · obtain hf | hk := hj.isFree_or_terminal
    · obtain rfl := (Transition.reads_of_isFree hf).1 hj
      exact .inr (.inl ⟨id, t, r, ht, hf, by simp, hr⟩)
    · obtain ⟨⟨x, hx, -⟩, -⟩ := (Transition.reads_of_terminal hk).1 hj
      cases hx
  · obtain rfl : j = 0 := Nat.le_zero.1 (run_position hr).1
    have hlen := length_over id q r
    exact .inr (.inr ⟨id, t, callee, follow, q, z, r, hc, by omega, by omega, hq, hz, hr⟩)

/-- A run that reads nothing is made of steps that read nothing. -/
theorem skips_iff : n.Skips s s' ↔ Relation.ReflTransGen n.Silent s s' := by
  constructor
  · rintro ⟨ms, h⟩
    induction hlen : ms.length using Nat.strongRecOn generalizing s ms with
    | ind len ih =>
      subst hlen
      obtain ⟨-, rfl⟩ | ⟨id, t, r, ht, hf, hlt, hr⟩ |
        ⟨id, t, callee, follow, q, z, r, hc, -, hlt, hq, hz, hr⟩ := silent_cases h
      · exact .refl
      · exact .head (.free ht hf) (ih _ hlt r hr rfl)
      · exact .head (.call hc ⟨q, hq⟩ hz) (ih _ hlt r hr rfl)
  · intro h
    induction h with
    | refl => exact .refl s
    | tail _ hstep ih => exact ih.trans hstep.skips

/-- Some run from the state, with no call open, reads the token first. -/
def Begins (n : Network) (s : Int) (x : String) : Prop :=
  ∃ rest ms d, n.run (x :: rest) ⟨s, 0, 0, []⟩ ms = some d ∧ 0 < d.position

theorem begins_of_run {o k : Nat} {ms : List Move} {d : Config} {x : String}
    (h : n.run types ⟨s, o, k, []⟩ ms = some d) (hk : k < d.position) (hx : types[k]? = some x) :
    n.Begins s x := by
  have hdrop : types.drop k = x :: types.drop (k + 1) := List.drop_eq_getElem?_toList_append.trans
    (by rw [hx]; rfl)
  have hlike : (Config.mk s o k []).Like ⟨s, 0, 0, []⟩ := ⟨rfl, rfl⟩
  have hsame : ∀ i, k + i < d.position → (types.drop k)[0 + i]? = types[k + i]? := fun i _ => by
    rw [List.getElem?_drop, Nat.zero_add]
  obtain ⟨d', hd', -, hpos⟩ := run_transport h hlike hsame
  rw [hdrop] at hd'
  exact ⟨_, ms, d', hd', by simp only at hpos; omega⟩

theorem Begins.run {x : String} (h : n.Begins s x) {k : Nat} (hx : types[k]? = some x) (o : Nat) :
    ∃ ms d, n.run types ⟨s, o, k, []⟩ ms = some d ∧ d.position = k + 1 := by
  obtain ⟨rest, ms, d, hd, hpos⟩ := h
  obtain ⟨p, e, -, hrun, he⟩ := exists_prefix (k := 1) hd (Nat.zero_le _) hpos
  have hlike : (Config.mk s 0 0 []).Like ⟨s, o, k, []⟩ := ⟨rfl, rfl⟩
  have hsame : ∀ i, 0 + i < e.position → types[k + i]? = (x :: rest)[0 + i]? := fun i hi => by
    obtain rfl : i = 0 := by omega
    simpa using hx
  obtain ⟨d', hd', -, hpos'⟩ := run_transport hrun hlike hsame
  exact ⟨p, d', hd', by simp only at hpos'; omega⟩

/-- The token at the position is read from the state, by a transition of its own or in a callee with
less than so many moves. -/
inductive ReadsFrom (n : Network) (types : List String) (k len : Nat) (s : Int) : Prop where
  | token {id : Int} {t : Transition} {x : String} (ht : n.Leaves s id t) (hk : t.kind = .terminal)
      (hx : types[k]? = some x) (hmem : x ∈ t.tokens)
  | callee {id callee follow : Int} {t : Transition} {q : List Move} {e : Config}
      (hc : n.Calls s id t callee follow) (hq : n.run types (.enter t.target k) q = some e)
      (he : k < e.position) (hlt : q.length < len)

theorem ReadsFrom.mono {k len len' : Nat} (h : n.ReadsFrom types k len s) (hle : len ≤ len') :
    n.ReadsFrom types k len' s := by
  cases h with
  | token ht hk hx hmem => exact .token ht hk hx hmem
  | callee hc hq he hlt => exact .callee hc hq he (Nat.lt_of_lt_of_le hlt hle)

/-- A run reads its first token after a run that reads nothing. -/
theorem exists_readsFrom {o k : Nat} {ms : List Move} {d : Config}
    (h : n.run types ⟨s, o, k, []⟩ ms = some d) (hk : k < d.position) :
    ∃ a, n.Skips s a ∧ n.ReadsFrom types k ms.length a := by
  induction hlen : ms.length using Nat.strongRecOn generalizing s ms with
  | ind len ih =>
    subst hlen
    -- a step that reads nothing leaves the first token to the rest of the run
    have hrest : ∀ {s' : Int} {r : List Move}, n.Silent s s' → r.length < ms.length →
        n.run types ⟨s', o, k, []⟩ r = some d →
        ∃ a, n.Skips s a ∧ n.ReadsFrom types k ms.length a := fun hs hlt hr => by
      obtain ⟨a, ha, hreads⟩ := ih _ hlt hr rfl
      exact ⟨a, hs.skips.trans ha, hreads.mono (Nat.le_of_lt hlt)⟩
    cases ms with
    | nil =>
      cases h
      exact absurd hk (Nat.lt_irrefl _)
    | cons m ms =>
      obtain ⟨e, he, hr⟩ := run_cons_iff.1 h
      obtain ⟨id, t, j, rfl, ht, hj, rfl⟩ | ⟨id, t, callee, follow, rfl, hc, rfl⟩ |
        ⟨-, -, f, r, hf, -⟩ := step_cases he
      · obtain hf | hkind := hj.isFree_or_terminal
        · obtain rfl := (Transition.reads_of_isFree hf).1 hj
          exact hrest (.free ht hf) (by simp) hr
        · obtain ⟨⟨x, hx, hmem⟩, -⟩ := (Transition.reads_of_terminal hkind).1 hj
          exact ⟨s, .refl s, .token ht hkind hx hmem⟩
      · obtain ⟨a, -, hrun⟩ | ⟨q, z, o', j, r, rfl, hq, hz, hr⟩ :=
          above_or_return (a := []) (b := []) hr
        · exact ⟨s, .refl s, .callee hc hrun hk (by simp)⟩
        · obtain hkj | rfl := Nat.lt_or_eq_of_le (run_position hq).1
          · exact ⟨s, .refl s, .callee hc hq hkj (by rw [length_over]; omega)⟩
          · exact hrest (.call hc (skips_of_run hq) hz) (by rw [length_over]; omega) hr
      · cases hf

end Network

end RuleNetwork
