import RuleNetwork.Proofs.Lookahead.Analysis
import RuleNetwork.Proofs.Run.Trail

/-!
What comes next in a derivation. After an invocation has ended, the next token is one that comes after
its rule: it is read where the caller resumes, or the caller ends too, and where all have ended it is the
end of input. So the next token is ahead of every transition that the derivation takes.
-/

set_option autoImplicit false

namespace RuleNetwork

open Network Relation

/-- The token is the next one to read at a position of a derivation of the first `K` tokens. -/
structure Upcoming (types : List String) (K k : Nat) (x : String) : Prop where
  token : k < K → types[k]? = some x
  last : k = K → x = endOfInput

namespace Network.Proper

variable {n : Network} {rules : Nat} (hp : n.Proper rules) {types : List String} {i j K : Nat}
include hp

/-- The rest of a derivation reads the next token in the invocation that it is in, or comes to the end
of it without reading. -/
theorem begins_or_skips (hi : i < rules) {s : Int} {o k : Nat} {l : List Frame} {q : List Move}
    (ho : n.Owns j s) (h : n.run types ⟨s, o, k, l⟩ q = some ⟨stopState i, 0, K, []⟩) {x : String}
    (hx : Upcoming types K k x) :
    n.Begins s x ∨ n.Skips s (stopState j) ∧
      ∃ q', n.run types ⟨stopState j, o, k, l⟩ q' = some ⟨stopState i, 0, K, []⟩ := by
  cases l with
  | nil =>
    obtain hlt | rfl := Nat.lt_or_eq_of_le (run_position h).1
    · exact .inl (begins_of_run h hlt (hx.token hlt))
    · obtain rfl := origin_of_run h
      obtain rfl := Int.ofNat.inj ((hp.owns_of_run h ho).unique (hp.owns_stop hi))
      exact .inr ⟨skips_of_run h, [], rfl⟩
  | cons f l =>
    obtain ⟨q₁, z, o', k', q₂, rfl, hq, hz, hrest⟩ := exists_return (a := []) h (Nat.zero_le _)
    obtain hlt | rfl := Nat.lt_or_eq_of_le (run_position hq).1
    · have hK : k' ≤ K := (run_position hrest).1
      exact .inl (begins_of_run hq hlt (hx.token (Nat.lt_of_lt_of_le hlt hK)))
    · obtain rfl := hp.eq_stop (hp.owns_of_run hq ho) hz
      exact .inr ⟨skips_of_run hq, .back :: q₂, run_cons_iff.2 ⟨_, step_back hz, hrest⟩⟩

end Network.Proper

namespace Grammar.Proper

variable {g : Grammar} (hg : g.Proper) {types : List String} {i K k : Nat} {entries : List Int}
  {x : String}
include hg

/-- What is read next after an invocation has ended comes after its rule. -/
theorem follows_of_run (hi : i < g.rules.size) (hentry : Int.ofNat i ∈ entries)
    (hx : Upcoming types K k x) {l : List Frame} {j o : Nat} {p q : List Move}
    (hj : j < g.rules.size)
    (hrun : g.network.run types (.enter (startState i) 0) p = some ⟨stopState j, o, k, l⟩)
    (hrest : g.network.run types ⟨stopState j, o, k, l⟩ q = some ⟨stopState i, 0, K, []⟩) :
    g.Follows entries j x := by
  have hp := hg.network
  induction l generalizing j o p q with
  | nil =>
    cases q with
    | nil =>
      rw [run_nil, Option.some.injEq, Config.mk.injEq] at hrest
      obtain ⟨hstop, -, rfl, -⟩ := hrest
      have hown := hp.owns_stop hj
      rw [hstop] at hown
      obtain rfl := Int.ofNat.inj (hown.unique (hp.owns_stop hi))
      rw [hx.last rfl]
      exact .entry hentry
    | cons m q => exact absurd hrest (not_run_of_ends (hp.ends_stop hj))
  | cons f l ih =>
    obtain ⟨q', -, hq'⟩ := run_of_ends (hp.ends_stop hj) hrest rfl
    obtain ⟨p₁, s, k', id, t, callee, p₂, -, hp₁, hc, hp₂⟩ :=
      exists_call (a := []) hrun (Nat.zero_le _) rfl
    obtain ⟨j', hj', a, w, -, hw, ho, -⟩ := hp.exists_walk hi (v := ⟨s, f.origin, k'⟩) hp₁
    obtain ⟨c, hlt, rfl, htarget, hin⟩ := hp.of_calls hc ho
    rw [htarget] at hp₂
    obtain rfl := Int.ofNat.inj
      ((hp.owns_of_run hp₂ (hp.owns_start hlt)).unique (hp.owns_stop hj))
    have hsite : g.network.Site j' (Int.ofNat c) f.resume := ⟨s, id, t, hw.inRule, hc⟩
    obtain hbegins | ⟨hskips, q'', hq''⟩ := hp.begins_or_skips hi hin.owns hq' hx
    · exact .token hj' hsite hbegins
    · obtain ⟨ms, hms⟩ := hskips.run types f.origin k
      have hback := run_snoc hrun (step_back (hp.ends_stop hj))
      exact .caller hj' hsite hskips (ih hj' (run_trans hback (run_under hms l)) hq'')

/-- The next token of a derivation is ahead of the transition that it takes. -/
theorem ahead_of_run (hi : i < g.rules.size) (hentry : Int.ofNat i ∈ entries)
    (hx : Upcoming types K k x) {s id : Int} {l : List Frame} {j o : Nat} {p q : List Move}
    (hj : j < g.rules.size) (ho : g.network.Owns j s)
    (hrun : g.network.run types (.enter (startState i) 0) p = some ⟨s, o, k, l⟩)
    (hrest : g.network.run types ⟨s, o, k, l⟩ (.along id :: q) = some ⟨stopState i, 0, K, []⟩)
    {t : Transition} (ht : g.network.Leaves s id t) : g.Ahead entries j t x := by
  have hp := hg.network
  -- once the transition is passed without reading, the token is read further on or after the rule
  have honward : ∀ {p' q' : List Move}, t.Quiet g.network g.rules.size →
      g.network.run types (.enter (startState i) 0) p' = some ⟨t.next, o, k, l⟩ →
      g.network.run types ⟨t.next, o, k, l⟩ q' = some ⟨stopState i, 0, K, []⟩ →
      g.Ahead entries j t x := fun {p' q'} hquiet hp' hq' => by
    obtain hbegins | ⟨hskips, q'', hq''⟩ :=
      hp.begins_or_skips hi (hp.inside_next ht ho).owns hq' hx
    · exact .onward hquiet hbegins
    · obtain ⟨ms, hms⟩ := hskips.run types o k
      exact .after hquiet hskips
        (hg.follows_of_run hi hentry hx hj (run_trans hp' (run_under hms l)) hq'')
  obtain ⟨e, he, hr⟩ := run_cons_iff.1 hrest
  obtain ⟨id', t', k', hid, ht', hk', rfl⟩ | ⟨id', t', callee, follow, hid, hc, rfl⟩ | ⟨hm, -⟩ :=
    step_cases he
  · cases hid
    obtain rfl := ht.unique ht'
    obtain hf | hkind := hk'.isFree_or_terminal
    · obtain rfl := (Transition.reads_of_isFree hf).1 hk'
      have hnext := run_snoc hrun he
      rw [← Transition.next_of_ne hk'.kind_ne] at hnext hr
      exact honward (.inl hf) hnext hr
    · obtain ⟨⟨y, hy, hmem⟩, rfl⟩ := (Transition.reads_of_terminal hkind).1 hk'
      have hlt : k < K := (run_position hr).1
      rw [hx.token hlt] at hy
      cases hy
      exact .token hkind hmem
  · cases hid
    obtain rfl := ht.unique hc.1
    obtain ⟨q₁, z, o', k', q₂, rfl, hq, hz, hr⟩ := exists_return (a := []) hr (Nat.zero_le _)
    obtain rfl := origin_of_run hq
    obtain hlt | rfl := Nat.lt_or_eq_of_le (run_position hq).1
    · have hK : k' ≤ K := (run_position hr).1
      exact .callee hc.2 (begins_of_run hq hlt (hx.token (Nat.lt_of_lt_of_le hlt hK)))
    · obtain ⟨c, hc', rfl, htarget, -⟩ := hp.of_calls hc ho
      have hzown := hp.owns_of_run hq (by rw [htarget]; exact hp.owns_start hc')
      obtain rfl := hp.eq_stop hzown hz
      have hskips := skips_of_run hq
      rw [htarget] at hskips
      have hnext := run_trans hrun (run_over hc hq hz o l)
      rw [← Transition.next_of_call? hc.2] at hnext hr
      exact honward (.inr ⟨_, follow, hc.2, c, hc', rfl, hskips⟩) hnext hr
  · cases hm

end Grammar.Proper

end RuleNetwork
