import RuleNetwork.Proofs.Chart.Ways
import RuleNetwork.Proofs.Parsing.Notes

/-!
The calling contexts of an invocation in an accepted input: the ends from which a call from outside
of its group can resume, or the end of the input.
-/

set_option autoImplicit false

namespace RuleNetwork

open Network Relation

/-- The visit is one of the invocation. -/
def Invocation.Owns (n : Network) (a : Invocation) (v : Visit) : Prop :=
  n.Owns a.rule v.state ∧ a.origin = v.origin

theorem Invocation.Owns.unique {n : Network} {a b : Invocation} {v : Visit} (ha : a.Owns n v)
    (hb : b.Owns n v) : a = b := by
  obtain ⟨r, o⟩ := a
  obtain ⟨r', o'⟩ := b
  obtain ⟨hr, ho⟩ := ha
  obtain ⟨hr', ho'⟩ := hb
  rw [show r = r' from hr.unique hr', show o = o' from ho.trans ho'.symm]

namespace Ties

/-- What is known of the ties when all useful visits have been noted. -/
structure Noted (t : Ties) (i : Nat) (types : List String) : Prop where
  recognizes : t.chart.Recognizes i types
  contains : ∀ {v}, v ∈ t.useful.toList → t.chart.contains v = true
  closed : ∀ {u v}, v ∈ t.useful.toList → t.chart.Precedes types v u → u ∈ t.useful.toList
  together : ∀ a b, t.groups.together a b = true ↔
    TransGen (t.chart.EmptyCall (· ∈ t.useful.toList)) a b ∧
      TransGen (t.chart.EmptyCall (· ∈ t.useful.toList)) b a
  members : ∀ a b, b ∈ t.groups.membersOf a ↔ b = a ∨ t.groups.together a b = true
  ends : ∀ a k, k ∈ t.endsOf a ↔ ∃ v ∈ t.useful.toList, EndsAt t.chart.network a k v
  callers : ∀ a x, x ∈ t.callersOf a ↔ x.1 ∈ t.useful.toList ∧ CallsAt t.chart.network a x.1 x.2

/-- The ties of an accepted input. -/
structure Accepts (t : Ties) (i K : Nat) (types : List String) : Prop extends t.Noted i types where
  counted : t.chart.Counted i K types t.useful (some t.groups) t.counts
  accept : t.chart.accept? = some K
  openAt : t.openAt = none

variable {t : Ties} {i K : Nat} {types : List String}

/-- A context of an invocation: what a call of its group from outside accepts, or the goal. -/
inductive IsContext (t : Ties) (i K : Nat) (b : Invocation) : Context → Prop where
  | call {a member : Invocation} {caller : Visit} {follow : Int}
      (hm : member ∈ t.groups.membersOf b) (hc : (caller, follow) ∈ t.callersOf member)
      (ha : a.Owns t.chart.network caller) (hout : t.groups.together a member = false)
      (hne : t.accepted member caller follow ≠ []) : IsContext t i K b (t.accepted member caller follow)
  | goal (hm : ⟨i, 0⟩ ∈ t.groups.membersOf b) : IsContext t i K b [⟨i, some K⟩]

/-- A context that accepts two ends, or one that is come to in two ways. -/
def Ambiguous (t : Ties) (origin : Nat) (c : Context) : Prop :=
  2 ≤ c.length ∨ ∃ (r m : Nat), ⟨Int.ofNat r, some m⟩ ∈ c ∧ 2 ≤ t.counts.of ⟨stopState r, origin, m⟩

/-- The ends that a context tells of are those of rules. -/
def EndsRules (t : Ties) (x : Context) : Prop :=
  ∀ e ∈ x, ∀ m, e.stop = some m → ∃ r < t.chart.index.grammar.rules.size, e.rule = Int.ofNat r

theorem mem_accepted {member : Invocation} {caller : Visit} {follow : Int} {e : RuleEnd} :
    e ∈ t.accepted member caller follow ↔ ∃ k ∈ t.endsOf member,
      ⟨follow, caller.origin, k⟩ ∈ t.useful.toList ∧ e = ⟨member.rule, some k⟩ := by
  unfold accepted
  rw [List.mem_map]
  simp only [List.mem_eraseDups, List.mem_filter, OrderedSet.contains_iff]
  constructor
  · rintro ⟨k, ⟨hk, hu⟩, rfl⟩
    exact ⟨k, hk, hu, rfl⟩
  · rintro ⟨k, hk, hu, rfl⟩
    exact ⟨k, ⟨hk, hu⟩, rfl⟩

theorem nodup_accepted (member : Invocation) (caller : Visit) (follow : Int) :
    (t.accepted member caller follow).Nodup := by
  unfold accepted
  exact (nodup_eraseDups _).map fun k k' h => Option.some.inj (congrArg RuleEnd.stop h)

namespace Noted

variable (h : t.Noted i types)
include h

theorem proper : t.chart.network.Proper t.chart.index.grammar.rules.size :=
  h.recognizes.index.grammar.network

theorem invocation_ok {v : Visit} (hv : v ∈ t.useful.toList) :
    ∃ j : Nat, j < t.chart.index.grammar.rules.size ∧
      (⟨j, v.origin⟩ : Invocation).Owns t.chart.network v ∧
      t.chart.invocation v = .ok ⟨j, v.origin⟩ := by
  obtain ⟨j, hj, ho, hinv⟩ := h.recognizes.invocation_ok (h.contains hv)
  exact ⟨j, hj, ⟨ho, rfl⟩, hinv⟩

theorem isInternal_ok {v : Visit} (hv : v ∈ t.useful.toList) {a : Invocation}
    (ha : a.Owns t.chart.network v) (b : Invocation) :
    t.isInternal v b = .ok (t.groups.together a b) := by
  obtain ⟨j, -, ho, hinv⟩ := h.invocation_ok hv
  unfold isInternal
  rw [hinv, ha.unique ho]
  rfl

theorem callerContexts_ok (member : Invocation) :
    ∃ l, t.callerContexts member = .ok l ∧ ∀ x, x ∈ l ↔ x ≠ [] ∧
      ∃ caller follow a, (caller, follow) ∈ t.callersOf member ∧ a.Owns t.chart.network caller ∧
        t.groups.together a member = false ∧ x = t.accepted member caller follow := by
  unfold callerContexts
  refine exists_bind_mapM (fun e x => ∃ a : Invocation, a.Owns t.chart.network e.1 ∧
    x = if t.groups.together a member then [] else t.accepted member e.1 e.2) (fun e he => ?_)
    fun found hfound hall => ⟨_, rfl, fun x => ?_⟩
  · obtain ⟨j, -, ho, -⟩ := h.invocation_ok ((h.callers _ _).1 he).1
    exact ⟨_, bind_eq_ok.2 ⟨_, h.isInternal_ok ((h.callers _ _).1 he).1 ho member, rfl⟩, _, ho, rfl⟩
  rw [List.mem_filter, Bool.not_eq_true', List.isEmpty_eq_false_iff, and_comm]
  refine and_congr_right fun hne => ?_
  constructor
  · intro hx
    obtain ⟨⟨caller, follow⟩, he, a, ho, rfl⟩ := hfound x hx
    cases hout : t.groups.together a member with
    | true => simp [hout] at hne
    | false => exact ⟨caller, follow, a, he, ho, hout, by simp⟩
  · rintro ⟨caller, follow, a, he, ho, hout, rfl⟩
    obtain ⟨x, hx, a', ho', rfl⟩ := hall _ he
    rw [ho'.unique ho, hout] at hx
    exact hx

/-- Finding the contexts of an invocation never fails. -/
theorem contexts_ok (b : Invocation) :
    ∃ l, t.contexts b = .ok l ∧ ∀ x, x ∈ l ↔
      (∃ member ∈ t.groups.membersOf b, x ≠ [] ∧
        ∃ caller follow a, (caller, follow) ∈ t.callersOf member ∧ a.Owns t.chart.network caller ∧
          t.groups.together a member = false ∧ x = t.accepted member caller follow) ∨
      x ∈ t.goalContexts (t.groups.membersOf b) ∨ x ∈ t.openContexts (t.groups.membersOf b) := by
  obtain ⟨called, hcalled⟩ := exists_mapM (l := t.groups.membersOf b) (f := t.callerContexts)
    fun member _ => (h.callerContexts_ok member).imp fun _ hl => hl.1
  refine ⟨_, bind_eq_ok.2 ⟨called, hcalled, rfl⟩, fun x => ?_⟩
  rw [List.append_assoc, List.mem_append, List.mem_append, List.mem_flatten]
  refine or_congr_left ⟨?_, ?_⟩
  · rintro ⟨l, hl, hx⟩
    obtain ⟨member, hm, hl⟩ := (mem_of_mapM hcalled).1 hl
    obtain ⟨l', hl', hmem⟩ := h.callerContexts_ok member
    rw [hl] at hl'
    cases hl'
    exact ⟨member, hm, (hmem x).1 hx⟩
  · rintro ⟨member, hm, hx⟩
    obtain ⟨l, hl, hmem⟩ := h.callerContexts_ok member
    exact ⟨l, (mem_of_mapM hcalled).2 ⟨member, hm, hl⟩, (hmem x).2 hx⟩

theorem ends_of_accepted {member : Invocation} {caller : Visit} {follow : Int}
    (hc : (caller, follow) ∈ t.callersOf member) {e : RuleEnd}
    (he : e ∈ t.accepted member caller follow) :
    ∃ r < t.chart.index.grammar.rules.size, ∃ m, e = ⟨Int.ofNat r, some m⟩ := by
  obtain ⟨hu, -, id, tr, hcall⟩ := (h.callers _ _).1 hc
  obtain ⟨j, -, ho, -⟩ := h.invocation_ok hu
  obtain ⟨r, hr, hrule, -⟩ := h.proper.of_calls hcall ho.1
  obtain ⟨m, -, -, rfl⟩ := mem_accepted.1 he
  exact ⟨r, hr, m, by rw [hrule]⟩

theorem endsRules_of_contexts {b : Invocation} {l : List Context} (hl : t.contexts b = .ok l) :
    ∀ x ∈ l, t.EndsRules x := by
  obtain ⟨l', hl', hmem⟩ := h.contexts_ok b
  rw [hl] at hl'
  cases hl'
  intro x hx
  obtain ⟨member, -, -, caller, follow, a, hc, -, -, rfl⟩ | hgoal | hopen := (hmem x).1 hx
  · intro e he m hm
    obtain ⟨r, hr, -, rfl⟩ := h.ends_of_accepted hc he
    exact ⟨r, hr, rfl⟩
  · intro e he m hm
    unfold goalContexts at hgoal
    split at hgoal
    · split at hgoal
      · rw [List.mem_singleton.1 hgoal, List.mem_singleton] at he
        rw [he]
        exact ⟨i, h.recognizes.rule, h.recognizes.startRule⟩
      · cases hgoal
    · cases hgoal
  · intro e he m hm
    unfold openContexts at hopen
    simp only at hopen
    split at hopen
    · cases hopen
    · rw [List.mem_singleton.1 hopen, List.mem_eraseDups] at he
      obtain ⟨a, -, rfl⟩ := List.mem_map.1 he
      cases hm

theorem waysTo_ok (origin : Nat) {r : Nat} (hr : r < t.chart.index.grammar.rules.size) (m : Nat) :
    t.waysTo origin ⟨Int.ofNat r, some m⟩ = .ok (t.counts.of ⟨stopState r, origin, m⟩) :=
  bind_eq_ok.2 ⟨_, ChartIndex.stopOf_ok h.recognizes.index.grammar hr, rfl⟩

/-- Whether a context is ambiguous is found without fail. -/
theorem isAmbiguous_ok (origin : Nat) {x : Context} (hx : t.EndsRules x) :
    ∃ flag, t.isAmbiguous origin x = .ok flag := by
  unfold isAmbiguous
  split
  · exact ⟨true, rfl⟩
  · obtain ⟨ways, hw⟩ := exists_mapM (l := x) (f := t.waysTo origin) fun e he => by
      obtain ⟨rule, stop⟩ := e
      cases stop with
      | none => exact ⟨_, rfl⟩
      | some m =>
        obtain ⟨r, hr, hrule⟩ := hx _ he m rfl
        obtain rfl : rule = Int.ofNat r := hrule
        exact ⟨_, h.waysTo_ok origin hr m⟩
    exact ⟨_, bind_eq_ok.2 ⟨ways, hw, rfl⟩⟩

/-- A member of a group begins where all of the group do. -/
theorem origin_of_member {a b : Invocation} (hm : a ∈ t.groups.membersOf b) : a.origin = b.origin := by
  obtain rfl | hab := (h.members b a).1 hm
  · rfl
  · exact Chart.origin_of_emptyCalls ((h.together b a).1 hab).1

end Noted

namespace Accepts

variable (h : t.Accepts i K types)
include h

theorem goalContexts_eq (members : List Invocation) :
    t.goalContexts members = if ⟨i, 0⟩ ∈ members then [[⟨i, some K⟩]] else [] := by
  unfold goalContexts
  rw [h.accept, h.counted.recognizes.startRule]
  simp only [List.contains_iff_mem]

/-- The contexts of an invocation are found without fail. -/
theorem contexts_ok (b : Invocation) :
    ∃ l, t.contexts b = .ok l ∧ ∀ x, x ∈ l ↔ t.IsContext i K b x := by
  obtain ⟨l, hl, hmem⟩ := h.toNoted.contexts_ok b
  have hopen : t.openContexts (t.groups.membersOf b) = [] := by
    unfold openContexts
    rw [h.openAt]
    simp
  refine ⟨l, hl, fun x => (hmem x).trans ?_⟩
  rw [hopen, h.goalContexts_eq]
  constructor
  · rintro (⟨member, hm, hne, caller, follow, a, hc, ha, hout, rfl⟩ | hx | hx)
    · exact .call hm hc ha hout hne
    · split at hx
      · rename_i hm
        obtain rfl := List.mem_singleton.1 hx
        exact .goal hm
      · cases hx
    · cases hx
  · intro hx
    cases hx with
    | @call a member caller follow hm hc ha hout hne =>
      exact .inl ⟨member, hm, hne, caller, follow, a, hc, ha, hout, rfl⟩
    | goal hm =>
      rw [if_pos hm]
      exact .inr (.inl (List.mem_singleton_self _))

theorem ends_of_context {b : Invocation} {x : Context} (hx : t.IsContext i K b x) :
    ∀ e ∈ x, ∃ r < t.chart.index.grammar.rules.size, ∃ m, e = ⟨Int.ofNat r, some m⟩ := by
  cases hx with
  | call hm hc => exact fun e he => h.ends_of_accepted hc he
  | goal hm =>
    intro e he
    obtain rfl := List.mem_singleton.1 he
    exact ⟨i, h.recognizes.rule, K, rfl⟩

theorem isAmbiguous_ok {b : Invocation} {x : Context} (hx : t.IsContext i K b x) :
    ∃ flag, t.isAmbiguous b.origin x = .ok flag ∧ (flag = true ↔ t.Ambiguous b.origin x) := by
  have hways := fun (r m : Nat) (hr : r < t.chart.index.grammar.rules.size) =>
    h.waysTo_ok b.origin hr m
  unfold isAmbiguous
  by_cases hlen : 2 ≤ x.length
  · exact ⟨true, by rw [if_pos hlen]; rfl, iff_of_true rfl (.inl hlen)⟩
  · obtain ⟨ways, hw⟩ := exists_mapM (l := x) (f := t.waysTo b.origin) fun e he => by
      obtain ⟨r, hr, m, rfl⟩ := h.ends_of_context hx e he
      exact ⟨_, hways r m hr⟩
    refine ⟨ways.any (Counts.ambiguous ≤ ·), ?_, ?_⟩
    · rw [if_neg hlen]
      exact bind_eq_ok.2 ⟨ways, hw, rfl⟩
    · rw [List.any_eq_true]
      constructor
      · rintro ⟨k, hk, hle⟩
        obtain ⟨e, he, hk⟩ := (mem_of_mapM hw).1 hk
        obtain ⟨r, hr, m, rfl⟩ := h.ends_of_context hx e he
        rw [hways r m hr] at hk
        cases hk
        exact .inr ⟨r, m, he, of_decide_eq_true hle⟩
      · rintro (hlen' | ⟨r, m, he, hle⟩)
        · exact absurd hlen' hlen
        · obtain ⟨r', hr', m', heq⟩ := h.ends_of_context hx _ he
          cases heq
          exact ⟨_, (mem_of_mapM hw).2 ⟨_, he, hways r m hr'⟩, decide_eq_true hle⟩

end Accepts

end Ties

end RuleNetwork
