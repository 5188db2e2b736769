import Mathlib.Algebra.Ring.Int.Defs
import RuleNetwork.Proofs.Ambiguity.Tally
import RuleNetwork.Proofs.Container

/-!
The profile of a decision is the sum of what the runs observed there, so the profiles of some runs are
known from those of any two parts. Where every ambiguity is one of a decision that its own parse met,
none is lost from the profiles.
-/

set_option autoImplicit false

namespace RuleNetwork

namespace DecisionProfile

/-- A profile with so many ambiguities more. -/
def raise (p : DecisionProfile) (n : Nat) : DecisionProfile := { p with ambiguities := p.ambiguities + n }

/-- Two profiles of one decision taken together. -/
def join (p q : DecisionProfile) : DecisionProfile :=
  { p with
    invocations := p.invocations + q.invocations
    totalLook := p.totalLook + q.totalLook
    maxLook := max p.maxLook q.maxLook
    fallbacks := p.fallbacks + q.fallbacks
    ambiguities := p.ambiguities + q.ambiguities }

/-- A profile of the decision under the name that it has. -/
structure Of (name : Int → String → String) (d : Int) (p : DecisionProfile) : Prop where
  decision : p.decision = d
  ruleName : p.ruleName = name d ""
  maxLook : 0 ≤ p.maxLook

variable {name : Int → String → String} {d : Int} {p q : DecisionProfile}

theorem of_fresh (name : Int → String → String) (d : Int) : Of name d (fresh name d) :=
  ⟨rfl, rfl, Int.le_refl 0⟩

theorem Of.add (h : Of name d p) (s : DecisionStats) : Of name d (p.add s) :=
  ⟨h.decision, h.ruleName, Int.le_trans h.maxLook (Int.le_max_left ..)⟩

theorem Of.foldl_add (h : Of name d p) (l : List DecisionStats) :
    Of name d (l.foldl DecisionProfile.add p) := by
  induction l generalizing p with
  | nil => exact h
  | cons s l ih => exact ih (h.add s)

theorem Of.raise (h : Of name d p) (n : Nat) : Of name d (p.raise n) :=
  ⟨h.decision, h.ruleName, h.maxLook⟩

theorem Of.join_fresh (h : Of name d p) : p.join (fresh name d) = p := by
  have hmax := Int.max_eq_left h.maxLook
  cases p
  simp only [join, fresh, Int.add_zero, Nat.add_zero] at hmax ⊢
  rw [hmax]

theorem Of.fresh_join (h : Of name d p) : (fresh name d).join p = p := by
  have hmax := Int.max_eq_right h.maxLook
  obtain ⟨hdecision, hname, -⟩ := h
  cases p
  simp only at hdecision hname
  simp only [join, fresh, Int.zero_add, Nat.zero_add] at hmax ⊢
  rw [hmax, hdecision, hname]

theorem foldl_add_raise (l : List DecisionStats) (p : DecisionProfile) (n : Nat) :
    l.foldl add (p.raise n) = (l.foldl add p).raise n := by
  induction l generalizing p with
  | nil => rfl
  | cons s l ih => exact ih (p.add s)

theorem raise_raise (p : DecisionProfile) (m n : Nat) : (p.raise m).raise n = p.raise (m + n) := by
  simp only [raise, Nat.add_assoc]

theorem join_add (p q : DecisionProfile) (s : DecisionStats) : p.join (q.add s) = (p.join q).add s := by
  simp only [join, add, Int.add_assoc, Int.max_assoc]

theorem join_foldl_add (p q : DecisionProfile) (l : List DecisionStats) :
    p.join (l.foldl add q) = l.foldl add (p.join q) := by
  induction l generalizing q with
  | nil => rfl
  | cons s l ih => rw [List.foldl_cons, List.foldl_cons, ih, join_add]

theorem join_raise (p q : DecisionProfile) (m n : Nat) :
    (p.raise m).join (q.raise n) = (p.join q).raise (m + n) := by
  simp only [join, raise, Nat.add_add_add_comm]

/-- It does not matter in which order two parses are added. -/
instance : RightCommutative add where
  right_comm p s s' := by
    simp only [add]
    rw [Int.add_right_comm p.invocations, Int.add_right_comm p.totalLook,
      Int.add_right_comm p.fallbacks, Int.max_assoc, Int.max_comm s.maxLook, ← Int.max_assoc]

theorem foldl_add_eq (l : List DecisionStats) (p : DecisionProfile) :
    l.foldl add p = { p with
      invocations := p.invocations + (l.map DecisionStats.invocations).sum
      totalLook := p.totalLook + (l.map DecisionStats.totalLook).sum
      maxLook := (l.map DecisionStats.maxLook).foldl max p.maxLook
      fallbacks := p.fallbacks + (l.map DecisionStats.fallbacks).sum } := by
  induction l generalizing p with
  | nil => simp
  | cons s l ih => simp [ih, add, Int.add_assoc]

end DecisionProfile

/-- What the parses of some runs counted at a decision. -/
def SampleRun.statsAt (runs : List SampleRun) (d : Int) : List DecisionStats :=
  (runs.flatMap stats).filter fun s => s.decision = d

namespace DecisionProfile

variable {name : Int → String → String} {d : Int} {p : DecisionProfile}

/-- What some runs observed at a decision. -/
def total (name : Int → String → String) (runs : List SampleRun) (d : Int) : DecisionProfile :=
  ((SampleRun.statsAt runs d).foldl add (fresh name d)).raise
    ((runs.flatMap fun run => run.found name).countP fun b => b.decision = d)

/-- A profile that is the sum of what some runs observed at a decision; of the greatest distances that
they looked ahead it has the greatest. -/
structure Sums (name : Int → String → String) (runs : List SampleRun) (d : Int)
    (p : DecisionProfile) : Prop where
  decision : p.decision = d
  ruleName : p.ruleName = name d ""
  invocations : p.invocations = ((SampleRun.statsAt runs d).map DecisionStats.invocations).sum
  totalLook : p.totalLook = ((SampleRun.statsAt runs d).map DecisionStats.totalLook).sum
  maxLook : p.maxLook = ((SampleRun.statsAt runs d).map DecisionStats.maxLook).foldl max 0
  fallbacks : p.fallbacks = ((SampleRun.statsAt runs d).map DecisionStats.fallbacks).sum
  ambiguities : p.ambiguities =
    (runs.flatMap fun run => run.found name).countP fun b => b.decision = d

theorem sums_total (name : Int → String → String) (runs : List SampleRun) (d : Int) :
    Sums name runs d (total name runs d) := by
  unfold total
  rw [foldl_add_eq]
  constructor <;> simp [raise, fresh]

theorem of_total (name : Int → String → String) (runs : List SampleRun) (d : Int) :
    Of name d (total name runs d) := ((of_fresh name d).foldl_add _).raise _

theorem total_perm (name : Int → String → String) {runs runs' : List SampleRun} (h : runs.Perm runs')
    (d : Int) : total name runs d = total name runs' d := by
  unfold total SampleRun.statsAt
  rw [((h.flatMap_right _).filter _).foldl_eq, (h.flatMap_right _).countP_eq]

theorem total_append (name : Int → String → String) (first second : List SampleRun) (d : Int) :
    total name (first ++ second) d = (total name first d).join (total name second d) := by
  unfold total SampleRun.statsAt
  rw [join_raise, join_foldl_add, ((of_fresh name d).foldl_add _).join_fresh, ← List.foldl_append,
    ← List.filter_append, ← List.flatMap_append, ← List.countP_append, ← List.flatMap_append]

end DecisionProfile

/-- Every ambiguity of a run is one of a decision that its parse met. -/
def SampleRun.Covered (name : Int → String → String) (run : SampleRun) : Prop :=
  ∀ b ∈ run.found name, b.decision ∈ run.stats.map DecisionStats.decision

namespace Tally

open DecisionProfile (fresh total)

variable {name : Int → String → String} {m : OrderedMap Int DecisionProfile} {d : Int}

/-- The profile of a decision, or a new one. -/
def profileAt (name : Int → String → String) (m : OrderedMap Int DecisionProfile) (d : Int) :
    DecisionProfile :=
  (m.get? d).getD (fresh name d)

theorem profileAt_put (m : OrderedMap Int DecisionProfile) (k : Int) (p : DecisionProfile) :
    profileAt name (m.put k p) d = if k = d then p else profileAt name m d := by
  rw [profileAt, OrderedMap.get?_put]
  split <;> rfl

/-- What a parse observed is added to the profiles of its decisions. -/
theorem groups_record (name : Int → String → String) :
    OrderedMap.Groups DecisionStats.decision (fresh name) DecisionProfile.add (record name) :=
  fun _ _ => rfl

/-- A decision that has been met has its ambiguities counted. -/
theorem count_eq {b : Ambiguity} (h : b.decision ∈ m.keys) (name : Int → String → String) :
    count m b = m.put b.decision ((profileAt name m b.decision).raise 1) := by
  obtain ⟨p, hp⟩ := m.mem_keys_iff.1 h
  unfold count profileAt
  rw [hp]
  rfl

theorem mem_keys_counts {l : List Ambiguity} (h : ∀ b ∈ l, b.decision ∈ m.keys) :
    d ∈ (l.foldl count m).keys ↔ d ∈ m.keys := by
  induction l generalizing m with
  | nil => rfl
  | cons b l ih =>
    have hb := h b (List.mem_cons_self ..)
    -- the names given to decisions do not matter for which of them are there
    have hkeys : ∀ e, e ∈ (count m b).keys ↔ e ∈ m.keys := fun e => by
      rw [count_eq hb fun _ _ => "", OrderedMap.mem_keys_put]
      exact ⟨fun h => h.elim id fun h => h ▸ hb, .inl⟩
    rw [List.foldl_cons, ih fun c hc => (hkeys _).2 (h c (List.mem_cons_of_mem _ hc)), hkeys]

theorem profileAt_counts {l : List Ambiguity} (h : ∀ b ∈ l, b.decision ∈ m.keys) :
    profileAt name (l.foldl count m) d =
      (profileAt name m d).raise (l.countP fun b => b.decision = d) := by
  induction l generalizing m with
  | nil => rfl
  | cons b l ih =>
    have hb := h b (List.mem_cons_self ..)
    have hl : ∀ c ∈ l, c.decision ∈ (count m b).keys := fun c hc => by
      rw [count_eq hb name, OrderedMap.mem_keys_put]
      exact .inl (h c (List.mem_cons_of_mem _ hc))
    rw [List.foldl_cons, ih hl, count_eq hb name, profileAt_put, List.countP_cons]
    by_cases hd : b.decision = d
    · subst hd
      simp only [if_true, decide_true]
      rw [DecisionProfile.raise_raise, Nat.add_comm]
    · simp only [hd, if_false, decide_false, Bool.false_eq_true, Nat.add_zero]

theorem sum_records (l : List DecisionStats) (m : OrderedMap Int DecisionProfile) :
    ((l.foldl (record name) m).values.map DecisionProfile.ambiguities).sum =
      (m.values.map DecisionProfile.ambiguities).sum := by
  induction l generalizing m with
  | nil => rfl
  | cons s l ih =>
    have hput := m.sum_values_put DecisionProfile.ambiguities s.decision
      ((profileAt name m s.decision).add s)
    have hsame : ((profileAt name m s.decision).add s).ambiguities =
        ((m.get? s.decision).map DecisionProfile.ambiguities).getD 0 := by
      unfold profileAt
      cases m.get? s.decision <;> rfl
    rw [List.foldl_cons, ih]
    exact Nat.add_right_cancel (hput.trans (congrArg _ hsame))

theorem sum_counts {l : List Ambiguity} (h : ∀ b ∈ l, b.decision ∈ m.keys) :
    ((l.foldl count m).values.map DecisionProfile.ambiguities).sum =
      (m.values.map DecisionProfile.ambiguities).sum + l.length := by
  induction l generalizing m with
  | nil => rfl
  | cons b l ih =>
    obtain ⟨p, hp⟩ := m.mem_keys_iff.1 (h b (List.mem_cons_self ..))
    have hput := m.sum_values_put DecisionProfile.ambiguities b.decision (p.raise 1)
    have hcount : count m b = m.put b.decision (p.raise 1) := by
      unfold count
      rw [hp]
      rfl
    rw [hp, ← hcount] at hput
    simp only [Option.map_some, Option.getD_some, DecisionProfile.raise] at hput
    have hl : ∀ c ∈ l, c.decision ∈ (count m b).keys := fun c hc => by
      rw [hcount, OrderedMap.mem_keys_put]
      exact .inl (h c (List.mem_cons_of_mem _ hc))
    rw [List.foldl_cons, ih hl, List.length_cons]
    omega

/-- The profiles that some runs add up to. -/
structure Profiled (name : Int → String → String) (runs : List SampleRun)
    (m : OrderedMap Int DecisionProfile) : Prop where
  keys : ∀ d, d ∈ m.keys ↔ d ∈ (runs.flatMap SampleRun.stats).map DecisionStats.decision
  profile : ∀ d, profileAt name m d = total name runs d
  sum : (m.values.map DecisionProfile.ambiguities).sum =
    (runs.flatMap fun run => run.found name).length

/-- One more run. -/
theorem Profiled.snoc {runs : List SampleRun} {run : SampleRun} (h : Profiled name runs m)
    (hrun : run.Covered name) : Profiled name (runs ++ [run]) (observe name m run) := by
  have hmet : ∀ b ∈ run.found name, b.decision ∈ (run.stats.foldl (record name) m).keys := fun b hb =>
    ((groups_record name).mem_keys_foldl ..).2 (.inr (hrun b hb))
  constructor
  · intro d
    rw [observe, mem_keys_counts hmet, (groups_record name).mem_keys_foldl, h.keys, List.flatMap_append,
      List.flatMap_singleton, List.map_append, List.mem_append]
  · intro d
    have hrecords : profileAt name (run.stats.foldl (record name) m) d =
        (run.stats.filter fun s => s.decision = d).foldl DecisionProfile.add (profileAt name m d) :=
      (groups_record name).getD_foldl run.stats m d
    rw [observe, profileAt_counts hmet, hrecords, h.profile, total, total,
      SampleRun.statsAt, SampleRun.statsAt, DecisionProfile.foldl_add_raise,
      DecisionProfile.raise_raise, ← List.foldl_append, ← List.filter_append,
      ← List.countP_append, List.flatMap_append, List.flatMap_append, List.flatMap_singleton,
      List.flatMap_singleton]
  · rw [observe, sum_counts hmet, sum_records, h.sum, List.flatMap_append, List.flatMap_singleton,
      List.length_append]

theorem profiled {runs : List SampleRun} (h : ∀ run ∈ runs, run.Covered name) :
    Profiled name runs (runs.foldl (observe name) ∅) := by
  induction runs using List.reverseRecOn with
  | nil => exact ⟨fun d => Iff.rfl, fun d => rfl, rfl⟩
  | append_singleton runs run ih =>
    rw [List.foldl_append]
    exact (ih fun r hr => h r (List.mem_append_left _ hr)).snoc (h run (by simp))

namespace Profiled

variable {runs : List SampleRun}

theorem get?_eq (h : Profiled name runs m) (d : Int) : m.get? d =
    if d ∈ (runs.flatMap SampleRun.stats).map DecisionStats.decision then some (total name runs d)
    else none := by
  rw [m.get?_eq_ite d (fresh name d), ← profileAt, h.profile]
  simp only [h.keys]

theorem decision_of_mem (h : Profiled name runs m) {e : Int × DecisionProfile} (he : e ∈ m.entries) :
    e.2.decision = e.1 := by
  have hget := m.get?_eq_some_iff.2 he
  rw [h.get?_eq] at hget
  split at hget
  · rw [← Option.some.inj hget]
    exact (DecisionProfile.of_total ..).decision
  · cases hget

/-- There is one profile for each decision. -/
theorem nodup_decisions (h : Profiled name runs m) :
    (m.values.map DecisionProfile.decision).Nodup := by
  have hkeys : m.values.map DecisionProfile.decision = m.keys := by
    rw [OrderedMap.values, OrderedMap.keys, List.map_map]
    exact List.map_congr_left fun e he => h.decision_of_mem he
  rw [hkeys]
  exact m.nodup

end Profiled

/-- Nothing is observed at a decision that no parse met. -/
theorem total_eq_fresh {runs : List SampleRun} (h : ∀ run ∈ runs, run.Covered name)
    (hd : d ∉ (runs.flatMap SampleRun.stats).map DecisionStats.decision) :
    total name runs d = fresh name d := by
  have hm := profiled h
  rw [← hm.profile, profileAt, hm.get?_eq, if_neg hd]
  rfl

end Tally

end RuleNetwork
