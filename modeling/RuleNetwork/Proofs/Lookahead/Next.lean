import RuleNetwork.Proofs.Lookahead.Coming
import RuleNetwork.Proofs.Lookahead.Follow

/-!
What comes next after an invocation has ended, in any run from any rule. It always comes after the rule
of the invocation, as the call sites say; and where every rule derives something and every terminal names
a token, all that the call sites say does come next in some run.

Runs over inputs that are put together. A run reads on when tokens are added behind what it reads, and a
run from a position on reads the same tokens wherever they stand. So if every rule derives something and
no terminal on a walk is without tokens, the walk can be run.
-/

set_option autoImplicit false

namespace RuleNetwork

open Relation

namespace Network

variable {n : Network} {u v : List String} {c d : Config} {ms : List Move}

/-- What stands behind the tokens read makes no difference. -/
theorem run_append_types (h : n.run u c ms = some d) (hd : d.position ≤ u.length) (v : List String) :
    n.run (u ++ v) c ms = some d := by
  rw [← run_take (m := u.length) hd, List.take_left]
  exact h

/-- A run from the front of an input can be run where other tokens stand before it. -/
theorem run_behind (h : n.run v c ms = some d) (hc : c.position = 0) {c' : Config} (hl : c.Like c')
    (hc' : c'.position = u.length) :
    ∃ d', n.run (u ++ v) c' ms = some d' ∧ d.Like d' ∧ d'.position = u.length + d.position := by
  have hsame : ∀ i, c.position + i < d.position → (u ++ v)[c'.position + i]? = v[c.position + i]? :=
    fun i _ => by
      rw [hc, hc', Nat.zero_add, List.getElem?_append_right (Nat.le_add_right ..),
        Nat.add_sub_cancel_left]
  obtain ⟨d', hd', hlike, hpos⟩ := run_transport h hl hsame
  exact ⟨d', hd', hlike, by omega⟩

theorem run_local_behind {s s' : Int} {o k : Nat} (h : n.run v ⟨s, o, 0, []⟩ ms = some ⟨s', o, k, []⟩)
    (u : List String) (o' : Nat) :
    n.run (u ++ v) ⟨s, o', u.length, []⟩ ms = some ⟨s', o', u.length + k, []⟩ :=
  run_local_transport h o' fun i _ => by
    rw [List.getElem?_append_right (Nat.le_add_right ..), Nat.add_sub_cancel_left, Nat.zero_add]

/-- Every terminal that a walk in a rule comes by names a token. -/
def Labelled (n : Network) (rules : Nat) : Prop :=
  ∀ i < rules, ∀ s, n.InRule i s → ∀ id t, n.Leaves s id t → t.kind = .terminal → t.tokens ≠ []

/-- Every rule has a run to its end. -/
def Productive (n : Network) (rules : Nat) : Prop :=
  ∀ i < rules, ∃ w ms, n.run w (.enter (startState i) 0) ms = some ⟨stopState i, 0, w.length, []⟩

namespace Proper

variable {rules : Nat} (hp : n.Proper rules) (hlabelled : n.Labelled rules)
  (hproductive : n.Productive rules)
include hp hlabelled hproductive

/-- Where a walk in a rule comes, a run of the rule comes too. -/
theorem exists_run_of_inRule {i : Nat} (hi : i < rules) {s : Int} (h : n.InRule i s) :
    ∃ w ms, n.run w (.enter (startState i) 0) ms = some ⟨s, 0, w.length, []⟩ := by
  induction h with
  | refl => exact ⟨[], [], rfl⟩
  | @tail a b hin hstep ih =>
    obtain ⟨w, ms, hms⟩ := ih
    obtain ⟨id, t, ht, rfl⟩ := hstep
    obtain hcall | hne := Decidable.em (t.kind = .ruleCall)
    · -- the callee derives something, so the call can be stepped over
      obtain ⟨hk, -⟩ | ⟨j, follow, hj, hc, htarget, -⟩ := hp.fits ht (hp.owns_of_inRule hi hin)
      · exact absurd hcall hk
      obtain ⟨w', ms', hms'⟩ := hproductive j hj
      have hinner := run_local_behind hms' w w.length
      refine ⟨w ++ w', ms ++ .along id :: (ms' ++ [.back]), ?_⟩
      rw [Transition.next_of_call? hc, List.length_append]
      exact run_trans (run_append_types hms (Nat.le_refl _) w')
        (run_over ⟨ht, hc⟩ (by rw [htarget]; exact hinner) (hp.ends_stop hj) 0 [])
    rw [Transition.next_of_ne hne]
    obtain hterm | hterm := Decidable.em (t.kind = .terminal)
    · obtain ⟨x, hx⟩ := List.exists_mem_of_ne_nil _ (hlabelled i hi a hin id t ht hterm)
      have hread : t.Reads (w ++ [x]) w.length (w.length + 1) :=
        (Transition.reads_of_terminal hterm).2 ⟨⟨x, by simp, hx⟩, rfl⟩
      refine ⟨w ++ [x], ms ++ [.along id], ?_⟩
      rw [List.length_append, List.length_singleton]
      exact run_snoc (run_append_types hms (Nat.le_refl _) [x]) (step_read ht hread)
    · have hread : t.Reads w w.length w.length :=
        (Transition.reads_of_isFree (Transition.isFree_of_kind hterm hne)).2 rfl
      exact ⟨w, _, run_snoc hms (step_read ht hread)⟩

end Proper

end Network

open Network

/-- The token comes next in some run after an invocation of the rule has ended: it is read next, or it is
the end of input and a run from an entry rule ends without reading on. -/
inductive Grammar.Next (g : Grammar) (entries : List Int) (j : Nat) (x : String) : Prop where
  | token {i : Nat} {types : List String} {p q : List Move} {o k : Nat} {l : List Frame} {d : Config}
      (hi : i < g.rules.size)
      (hrun : g.network.run types (.enter (startState i) 0) p = some ⟨stopState j, o, k, l⟩)
      (hrest : g.network.run types ⟨stopState j, o, k, l⟩ q = some d) (hk : k < d.position)
      (hx : types[k]? = some x)
  | last {i : Nat} {types : List String} {p q : List Move} {o k : Nat} {l : List Frame}
      (hi : i < g.rules.size) (hentry : Int.ofNat i ∈ entries)
      (hrun : g.network.run types (.enter (startState i) 0) p = some ⟨stopState j, o, k, l⟩)
      (hrest : g.network.run types ⟨stopState j, o, k, l⟩ q = some ⟨stopState i, 0, k, []⟩)
      (hx : x = endOfInput)

namespace Network

variable {n : Network} {types : List String}

/-- From the end of a rule a run that reads on first goes back to the caller. -/
theorem back_of_ends {z : Int} {o k : Nat} {l : List Frame} {q : List Move} {d : Config}
    (hz : n.Ends z) (h : n.run types ⟨z, o, k, l⟩ q = some d) (hk : k < d.position) :
    ∃ f l' q', l = f :: l' ∧ n.run types ⟨f.resume, f.origin, k, l'⟩ q' = some d := by
  cases q with
  | nil =>
    cases h
    exact absurd hk (Nat.lt_irrefl k)
  | cons m q =>
    obtain ⟨e, he, hr⟩ := run_cons_iff.1 h
    obtain ⟨id, t, k', -, ht, -⟩ | ⟨id, t, callee, follow, -, hc, -⟩ | ⟨-, -, f, l', hl, rfl⟩ :=
      step_cases he
    · exact absurd ht (not_leaves_of_ends hz)
    · exact absurd hc.1 (not_leaves_of_ends hz)
    · exact ⟨f, l', q, hl, hr⟩

/-- A run that reads on reads in the invocation that it is in, or comes to the end of it before. -/
theorem begins_or_returns {rules : Nat} (hp : n.Proper rules) {j : Nat} {s : Int} {o k : Nat}
    {l : List Frame} {q : List Move} {d : Config} (ho : n.Owns j s)
    (h : n.run types ⟨s, o, k, l⟩ q = some d) (hk : k < d.position) {x : String}
    (hx : types[k]? = some x) :
    n.Begins s x ∨ n.Skips s (stopState j) ∧ ∃ q', n.run types ⟨stopState j, o, k, l⟩ q' = some d := by
  cases l with
  | nil => exact .inl (begins_of_run h hk hx)
  | cons f l =>
    obtain ⟨a, -, hq⟩ | ⟨q₁, z, o', k', q₂, rfl, hq, hz, hrest⟩ := above_or_return (a := []) h
    · exact .inl (begins_of_run hq hk hx)
    · obtain hlt | rfl := Nat.lt_or_eq_of_le (run_position hq).1
      · exact .inl (begins_of_run hq hlt hx)
      · obtain rfl := hp.eq_stop (hp.owns_of_run hq ho) hz
        exact .inr ⟨skips_of_run hq, .back :: q₂, run_cons_iff.2 ⟨_, step_back hz, hrest⟩⟩

end Network

namespace Grammar.Proper

variable {g : Grammar} (hg : g.Proper) {entries : List Int}
include hg

/-- The call that opened the innermost frame of a run. -/
theorem exists_site {types : List String} {i j : Nat} (hi : i < g.rules.size) (hj : j < g.rules.size)
    {o k : Nat} {f : Frame} {l : List Frame} {p : List Move}
    (h : g.network.run types (.enter (startState i) 0) p = some ⟨stopState j, o, k, f :: l⟩) :
    ∃ j' < g.rules.size, g.network.Site j' j f.resume ∧ g.network.Owns j' f.resume := by
  have hp := hg.network
  obtain ⟨p₁, s, k', id, t, callee, p₂, -, hp₁, hc, hp₂⟩ := exists_call (a := []) h (Nat.zero_le _) rfl
  obtain ⟨j', hj', a, w, -, hw, ho, -⟩ := hp.exists_walk hi (v := ⟨s, f.origin, k'⟩) hp₁
  obtain ⟨c, hlt, rfl, htarget, hin⟩ := hp.of_calls hc ho
  rw [htarget] at hp₂
  obtain rfl := Int.ofNat.inj ((hp.owns_of_run hp₂ (hp.owns_start hlt)).unique (hp.owns_stop hj))
  exact ⟨j', hj', ⟨s, id, t, hw.inRule, hc⟩, hin.owns⟩

/-- A token that is read next after an invocation has ended comes after its rule. -/
theorem follows_of_reading {types : List String} {i : Nat} (hi : i < g.rules.size) {x : String}
    {k : Nat} (hx : types[k]? = some x) {d : Config} (hk : k < d.position) {l : List Frame} {j o : Nat}
    {p q : List Move} (hj : j < g.rules.size)
    (hrun : g.network.run types (.enter (startState i) 0) p = some ⟨stopState j, o, k, l⟩)
    (hrest : g.network.run types ⟨stopState j, o, k, l⟩ q = some d) : g.Follows entries j x := by
  have hp := hg.network
  induction l generalizing j o p q with
  | nil =>
    obtain ⟨f, l, q', hl, -⟩ := back_of_ends (hp.ends_stop hj) hrest hk
    cases hl
  | cons f l ih =>
    obtain ⟨f', l', q', hl, hq'⟩ := back_of_ends (hp.ends_stop hj) hrest hk
    cases hl
    obtain ⟨j', hj', hsite, hown⟩ := hg.exists_site hi hj hrun
    obtain hbegins | ⟨hskips, q'', hq''⟩ := begins_or_returns hp hown hq' hk hx
    · exact .token hj' hsite hbegins
    · obtain ⟨ms, hms⟩ := hskips.run types f.origin k
      have hback := run_snoc hrun (step_back (hp.ends_stop hj))
      exact .caller hj' hsite hskips (ih hj' (run_trans hback (run_under hms l)) hq'')

theorem follows_of_next {j : Nat} (hj : j < g.rules.size) {x : String} (h : g.Next entries j x) :
    g.Follows entries j x := by
  cases h with
  | token hi hrun hrest hk hx => exact hg.follows_of_reading hi hx hk hj hrun hrest
  | last hi hentry hrun hrest hx =>
    subst hx
    exact hg.follows_of_run hi hentry ⟨fun h => absurd h (Nat.lt_irrefl _), fun _ => rfl⟩ hj hrun hrest

end Grammar.Proper

/-- With these frames open, a run goes on from the end of the rule and reads the token next, or comes to
the end of an entry rule where the token is the end of input. -/
def Grammar.GoesOn (g : Grammar) (entries : List Int) (i j : Nat) (l : List Frame) (x : String) : Prop :=
  ∀ o, (∃ v q d, g.network.run v ⟨stopState j, o, 0, l⟩ q = some d ∧ 0 < d.position ∧ v[0]? = some x) ∨
    x = endOfInput ∧ Int.ofNat i ∈ entries ∧
      ∃ q o', g.network.run [] ⟨stopState j, o, 0, l⟩ q = some ⟨stopState i, o', 0, []⟩

/-- A run from some rule comes to the start of the rule, and once this has ended the token comes next. -/
def Grammar.Embeds (g : Grammar) (entries : List Int) (j : Nat) (x : String) : Prop :=
  ∃ i < g.rules.size, ∃ u p l,
    g.network.run u (.enter (startState i) 0) p = some ⟨startState j, u.length, u.length, l⟩ ∧
      g.GoesOn entries i j l x

namespace Grammar.Proper

variable {g : Grammar} (hg : g.Proper) {entries : List Int}
  (hlabelled : g.network.Labelled g.rules.size) (hproductive : g.network.Productive g.rules.size)
include hg hlabelled hproductive

/-- A call in a rule that a run comes to is come to by a run. -/
theorem exists_run_of_site {i j : Nat} (hi : i < g.rules.size) {follow : Int}
    (hs : g.network.Site i j follow) (u : List String) (l : List Frame) :
    ∃ w ms, g.network.run (u ++ w) ⟨startState i, u.length, u.length, l⟩ ms =
      some ⟨startState j, (u ++ w).length, (u ++ w).length, ⟨follow, u.length⟩ :: l⟩ := by
  obtain ⟨s, id, t, hin, hc⟩ := hs
  obtain ⟨c, -, hcallee, htarget, -⟩ := hg.network.of_calls hc (hg.network.owns_of_inRule hi hin)
  obtain rfl := Int.ofNat.inj hcallee
  obtain ⟨w, ms, hms⟩ := hg.network.exists_run_of_inRule hlabelled hproductive hi hin
  have hrun := run_under (run_local_behind hms u u.length) l
  refine ⟨w, ms ++ [.along id], ?_⟩
  rw [← htarget, List.length_append]
  exact run_snoc hrun (step_call hc)

/-- What the call sites say to come after a rule comes next in some run. -/
theorem embeds_of_follows {r : Int} {x : String} (h : g.Follows entries r x) {j : Nat}
    (hr : r = Int.ofNat j) (hj : j < g.rules.size) : g.Embeds entries j x := by
  have hp := hg.network
  induction h generalizing j with
  | entry hr' =>
    subst hr
    exact ⟨j, hj, [], [], [], rfl, fun o => .inr ⟨rfl, hr', [], o, rfl⟩⟩
  | @token i callee follow x hi hs hx =>
    subst hr
    obtain ⟨w, ms, hms⟩ := hg.exists_run_of_site hlabelled hproductive hi hs [] []
    refine ⟨i, hi, w, ms, _, hms, fun o => .inl ?_⟩
    obtain ⟨rest, q, d, hd, hpos⟩ := hx
    exact ⟨x :: rest, .back :: q, d, run_cons_iff.2 ⟨_, step_back (hp.ends_stop hj), hd⟩, hpos, rfl⟩
  | @caller i callee follow x hi hs hend _ ih =>
    subst hr
    obtain ⟨i₀, hi₀, u, p, l, hp₀, hgo⟩ := ih rfl hi
    obtain ⟨w, ms, hms⟩ := hg.exists_run_of_site hlabelled hproductive hi hs u l
    refine ⟨i₀, hi₀, u ++ w, p ++ ms, _,
      run_trans (run_append_types hp₀ (Nat.le_refl _) w) hms, fun o => ?_⟩
    -- back in the caller the run comes to its end without reading
    have hend' : ∀ v : List String, ∃ q, g.network.run v ⟨stopState j, o, 0, ⟨follow, u.length⟩ :: l⟩ q =
        some ⟨stopState i, u.length, 0, l⟩ := fun v => by
      obtain ⟨q, hq⟩ := hend.run v u.length 0
      exact ⟨.back :: q, run_cons_iff.2 ⟨_, step_back (hp.ends_stop hj), run_under hq l⟩⟩
    obtain ⟨v, q, d, hd, hpos, hx⟩ | ⟨hx, hentry, q, o', hd⟩ := hgo u.length
    · obtain ⟨q', hq'⟩ := hend' v
      exact .inl ⟨v, q' ++ q, d, run_trans hq' hd, hpos, hx⟩
    · obtain ⟨q', hq'⟩ := hend' []
      exact .inr ⟨hx, hentry, q' ++ q, o', run_trans hq' hd⟩

omit hg hlabelled in
theorem next_of_embeds {j : Nat} (hj : j < g.rules.size) {x : String} (h : g.Embeds entries j x) :
    g.Next entries j x := by
  obtain ⟨i, hi, u, p, l, hrun, hgo⟩ := h
  obtain ⟨w, ms, hms⟩ := hproductive j hj
  have hinner : ∀ v : List String, g.network.run (u ++ w ++ v) (.enter (startState i) 0) (p ++ ms) =
      some ⟨stopState j, u.length, (u ++ w).length, l⟩ := fun v => by
    have hbody := run_under (run_local_behind hms u u.length) l
    rw [← List.length_append] at hbody
    exact run_append_types (run_trans (run_append_types hrun (Nat.le_refl _) w) hbody)
      (Nat.le_refl _) v
  have hlike : (Config.mk (stopState j) u.length 0 l).Like ⟨stopState j, u.length, (u ++ w).length, l⟩ :=
    ⟨rfl, rfl⟩
  obtain ⟨v, q, d, hd, hpos, hx⟩ | ⟨hx, hentry, q, o', hd⟩ := hgo u.length
  · obtain ⟨d', hd', -, hpos'⟩ := run_behind (u := u ++ w) hd rfl hlike rfl
    refine .token hi (hinner v) hd' (by omega) ?_
    rw [List.getElem?_append_right (Nat.le_refl _), Nat.sub_self]
    exact hx
  · obtain ⟨d', hd', ⟨hstate, hframes⟩, hpos'⟩ := run_behind (u := u ++ w) hd rfl hlike rfl
    obtain ⟨s, o'', k, l'⟩ := d'
    obtain rfl : l' = [] := List.map_eq_nil_iff.1 hframes.symm
    obtain rfl : stopState i = s := hstate
    obtain rfl : k = (u ++ w).length := hpos'
    -- the bottom of the stack of a run is where it began
    have hbase : o'' = 0 := run_base (run_trans (hinner []) hd')
    rw [hbase] at hd'
    exact .last hi hentry (hinner []) hd' hx

end Grammar.Proper

end RuleNetwork
