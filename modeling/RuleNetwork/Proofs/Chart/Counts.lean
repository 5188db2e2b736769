import RuleNetwork.Proofs.Chart.Incoming
import RuleNetwork.Proofs.Graph.Worklist

/-!
Counting comes to its end. At each position passes are made over the useful visits until one of them
raises no count. All others raise one, and a count rises twice at most, so the slack that is left below
the cap bounds the number of passes: there is at most one more than twice the number of visits, and that
is also how often the signal to stop is looked for. What has been settled stays so, since nothing further
on leads back. At the end no count is below what comes in at its visit.
-/

set_option autoImplicit false

namespace RuleNetwork

open Relation

theorem Counts.of_insert (m : Counts) (v w : Visit) (k : Nat) :
    Counts.of (m.insert v k) w = if v = w then k else Counts.of m w := by
  unfold Counts.of
  rw [Std.HashMap.getD_insert]
  simp

@[simp] theorem Counts.of_empty (v : Visit) : Counts.of ∅ v = 0 := by
  unfold Counts.of
  simp

theorem le_foldl_max {l : List Nat} {a b : Nat} (h : a ≤ b ∨ a ∈ l) : a ≤ l.foldl max b := by
  induction l generalizing b with
  | nil => exact h.resolve_right List.not_mem_nil
  | cons x l ih =>
    refine ih ?_
    obtain h | h := h
    · exact .inl (Nat.le_trans h (Nat.le_max_left _ _))
    · obtain rfl | h := List.mem_cons.1 h
      · exact .inl (Nat.le_max_right _ _)
      · exact .inr h

theorem foldl_max_le {l : List Nat} {a b : Nat} (ha : a ≤ b) (h : ∀ n ∈ l, n ≤ b) : l.foldl max a ≤ b := by
  induction l generalizing a with
  | nil => exact ha
  | cons n l ih =>
    exact ih (Nat.max_le.2 ⟨ha, h n (List.mem_cons_self ..)⟩) fun m hm => h m (List.mem_cons_of_mem _ hm)

namespace Chart

variable {c : Chart} {i : Nat} {types : List String} {g : Option Groups} {m m' : Counts}
  {visits : List Visit}

/-- One count is raised to what comes in at its visit. -/
def Raises (c : Chart) (g : Option Groups) (visits : List Visit) (m m' : Counts) : Prop :=
  ∃ v ∈ visits, ∃ k, c.incoming g m v = .ok k ∧ m.of v < k ∧ m' = m.insert v k

/-- No count is below what comes in at its visit. -/
def Settled (c : Chart) (g : Option Groups) (m : Counts) (v : Visit) : Prop :=
  ∃ k, c.incoming g m v = .ok k ∧ k ≤ m.of v

/-- How far counts can still rise. -/
def slack (visits : List Visit) (m : Counts) : Nat :=
  (visits.map fun v => Counts.ambiguous - m.of v).sum

theorem slack_le (visits : List Visit) (m : Counts) : slack visits m ≤ 2 * visits.length := by
  unfold slack
  induction visits with
  | nil => simp
  | cons v visits ih =>
    rw [List.map_cons, List.sum_cons, List.length_cons]
    have : Counts.ambiguous - m.of v ≤ 2 := Nat.sub_le _ _
    omega

theorem Raises.mono {all : List Visit} (h : c.Raises g visits m m')
    (hsub : ∀ v ∈ visits, v ∈ all) : c.Raises g all m m' := by
  obtain ⟨v, hv, h⟩ := h
  exact ⟨v, hsub v hv, h⟩

/-- A round over settled visits raises nothing. -/
theorem countRound_of_settled (hs : ∀ v ∈ visits, c.Settled g m v) :
    c.countRound g visits m = .ok (m, false) := by
  unfold countRound
  induction visits with
  | nil => rfl
  | cons v visits ih =>
    obtain ⟨k, hk, hle⟩ := hs v (List.mem_cons_self ..)
    rw [List.foldlM_cons, bind_eq_ok]
    exact ⟨(m, false), bind_eq_ok.2 ⟨k, hk, by rw [if_neg (Nat.not_lt.2 hle)]; rfl⟩,
      ih fun w hw => hs w (List.mem_cons_of_mem _ hw)⟩

/-- Two is all that is counted. -/
theorem incoming_le {v : Visit} {k : Nat} (h : c.incoming g m v = .ok k) : k ≤ Counts.ambiguous := by
  obtain ⟨caller, -, h⟩ := bind_eq_ok.1 h
  obtain ⟨start, -, h⟩ := bind_eq_ok.1 h
  obtain ⟨sources, -, h⟩ := bind_eq_ok.1 h
  obtain ⟨scanned, -, h⟩ := bind_eq_ok.1 h
  obtain ⟨row, -, h⟩ := bind_eq_ok.1 h
  obtain ⟨called, -, h⟩ := bind_eq_ok.1 h
  obtain rfl := pure_eq_ok.1 h
  exact Nat.min_le_right _ _

theorem slack_lt_of_raises (hr : c.Raises g visits m m') : slack visits m' < slack visits m := by
  obtain ⟨v, hv, k, hk, hlt, rfl⟩ := hr
  have hle := incoming_le hk
  refine List.sum_lt_sum _ _ (fun w _ => ?_) ⟨v, hv, ?_⟩
  · rw [Counts.of_insert]
    split
    · rename_i hvw
      subst hvw
      omega
    · exact Nat.le_refl _
  · rw [Counts.of_insert, if_pos rfl]
    omega

theorem slack_le_of_raises (hr : ReflTransGen (c.Raises g visits) m m') :
    slack visits m' ≤ slack visits m := by
  induction hr with
  | refl => exact Nat.le_refl _
  | tail _ hstep ih =>
    have := slack_lt_of_raises hstep
    omega

section Round

variable (hincoming : ∀ v ∈ visits, ∀ m, ∃ k, c.incoming g m v = .ok k)
include hincoming

/-- Part of a round: `r` tells whether a count has been raised before. -/
theorem raise_ok {l : List Visit} (hl : ∀ v ∈ l, v ∈ visits) (m : Counts) (r : Bool) :
    ∃ m' r', (l.foldlM (fun (counts, raised) v => do
        let n ← c.incoming g counts v
        return if counts.of v < n then (counts.insert v n, true) else (counts, raised)) (m, r) :
          Except Fault (Counts × Bool)) = .ok (m', r') ∧
      ReflTransGen (c.Raises g visits) m m' ∧
      (r' = true → r = true ∨ slack visits m' < slack visits m) ∧
      (r' = false → r = false ∧ m' = m ∧ ∀ v ∈ l, c.Settled g m v) := by
  induction l generalizing m r with
  | nil =>
    exact ⟨m, r, rfl, .refl, .inl, fun hr => ⟨hr, rfl, fun v hv => absurd hv List.not_mem_nil⟩⟩
  | cons v l ih =>
    obtain ⟨k, hk⟩ := hincoming v (hl v (List.mem_cons_self ..)) m
    have hrest : ∀ w ∈ l, w ∈ visits := fun w hw => hl w (List.mem_cons_of_mem _ hw)
    by_cases hlt : m.of v < k
    · have hraise : c.Raises g visits m (m.insert v k) :=
        ⟨v, hl v (List.mem_cons_self ..), k, hk, hlt, rfl⟩
      obtain ⟨m', r', hm', hr, htrue, hfalse⟩ := ih hrest (m.insert v k) true
      refine ⟨m', r', ?_, .head hraise hr, fun _ => .inr ?_, fun hr' => ?_⟩
      · rw [List.foldlM_cons, bind_eq_ok]
        exact ⟨_, bind_eq_ok.2 ⟨k, hk, by rw [if_pos hlt]; rfl⟩, hm'⟩
      · have := slack_lt_of_raises hraise
        have := slack_le_of_raises hr
        omega
      · exact absurd (hfalse hr').1 Bool.noConfusion
    · obtain ⟨m', r', hm', hr, htrue, hfalse⟩ := ih hrest m r
      refine ⟨m', r', ?_, hr, htrue, fun hr' => ?_⟩
      · rw [List.foldlM_cons, bind_eq_ok]
        exact ⟨_, bind_eq_ok.2 ⟨k, hk, by rw [if_neg hlt]; rfl⟩, hm'⟩
      · obtain ⟨hr, hm, hs⟩ := hfalse hr'
        refine ⟨hr, hm, fun w hw => ?_⟩
        obtain rfl | hw := List.mem_cons.1 hw
        · exact ⟨k, hk, by omega⟩
        · exact hs w hw

/-- A round raises some counts; one that raises none leaves all settled. -/
theorem countRound_ok (m : Counts) :
    ∃ m' raised, c.countRound g visits m = .ok (m', raised) ∧
      ReflTransGen (c.Raises g visits) m m' ∧
      (raised = true → slack visits m' < slack visits m) ∧
      (raised = false → ∀ v ∈ visits, c.Settled g m' v) := by
  obtain ⟨m', r, hm', hr, htrue, hfalse⟩ := raise_ok hincoming (fun v hv => hv) m false
  refine ⟨m', r, hm', hr, fun hr' => (htrue hr').resolve_left Bool.noConfusion, fun hr' => ?_⟩
  obtain ⟨-, rfl, hs⟩ := hfalse hr'
  exact hs

end Round

/-- Passes are made over some visits as long as one raises a count. -/
def Passes (c : Chart) (g : Option Groups) (visits : List Visit) (m : Counts) (passes : Nat)
    (m' : Counts) : Prop :=
  ∃ l : List Unit, l.length = passes ∧ Loop (fun s : Counts × Bool => if s.2 then some () else none)
    (fun s _ => c.countRound g visits s.1) (m, true) l (m', false)

/-- The passes come to an end. They have raised counts, and leave all of them settled. -/
theorem exists_passes (hincoming : ∀ v ∈ visits, ∀ m, ∃ k, c.incoming g m v = .ok k) (m : Counts) :
    ∃ k m', c.Passes g visits m k m' ∧ k ≤ 2 * visits.length + 1 ∧
      ReflTransGen (c.Raises g visits) m m' ∧ ∀ v ∈ visits, c.Settled g m' v := by
  obtain ⟨l, ⟨m', raised⟩, h, ⟨hr, hs⟩, hlength⟩ := Loop.exists_of_measure
    (fun s : Counts × Bool => if s.2 then some () else none)
    (fun s _ => c.countRound g visits s.1)
    (fun s => ReflTransGen (c.Raises g visits) m s.1 ∧
      (s.2 = false → ∀ v ∈ visits, c.Settled g s.1 v))
    (fun s => if s.2 then slack visits s.1 + 1 else 0) (s := (m, true)) (fun {s _} hP hs => by
      obtain ⟨m₁, raised, hround, hr, htrue, hfalse⟩ := countRound_ok hincoming s.1
      have hraised : s.2 = true := by simpa using hs
      refine ⟨(m₁, raised), hround, ⟨hP.1.trans hr, hfalse⟩, ?_⟩
      cases raised with
      | true => simpa [hraised] using htrue rfl
      | false => simp [hraised]) ⟨.refl, fun h => absurd h Bool.noConfusion⟩
  have hend : raised = false := by simpa using h.end_eq
  subst hend
  have hslack := slack_le visits m
  exact ⟨_, m', ⟨l, rfl, h⟩, hlength.trans (by simpa using hslack), hr, hs rfl⟩

/-- Rounds that are counted down are the passes if there are enough of them; each looks for the signal
once. -/
theorem countRounds_eq {k : Nat} (h : c.Passes g visits m k m') {bound : Nat} (hb : k ≤ bound)
    (done : Nat) :
    (c.countRounds g visits bound done m).result = .ok m' ∧
      (c.countRounds g visits bound done m).checks = done + k := by
  obtain ⟨l, rfl, h⟩ := h
  induction l generalizing m bound done with
  | nil => cases h
  | cons _ l ih =>
    obtain ⟨⟨m₁, raised⟩, hround, h⟩ : ∃ s', c.countRound g visits m = .ok s' ∧ Loop _ _ s' l _ := by
      cases h with
      | next _ hs h => exact ⟨_, hs, h⟩
    cases bound with
    | zero => simp at hb
    | succ bound =>
      unfold countRounds
      rw [hround]
      cases raised with
      | true =>
        obtain ⟨hresult, hchecks⟩ := ih (done + 1) h (Nat.le_of_succ_le_succ hb)
        exact ⟨hresult, hchecks.trans (by rw [List.length_cons]; omega)⟩
      | false =>
        cases h with
        | done _ => exact ⟨rfl, rfl⟩
        | next ha _ _ => cases ha

/-- The positions are passed over one after the other; where there is nothing useful, no pass is made. -/
inductive PassesAlong (c : Chart) (g : Option Groups) :
    List (List Visit) → Counts → List Nat → Counts → Prop
  | nil {m : Counts} : PassesAlong c g [] m [] m
  | skip {rest : List (List Visit)} {m m' : Counts} {passes : List Nat}
      (h : PassesAlong c g rest m passes m') : PassesAlong c g ([] :: rest) m (0 :: passes) m'
  | cons {visits : List Visit} {rest : List (List Visit)} {m m₁ m' : Counts} {k : Nat}
      {passes : List Nat} (hne : visits ≠ []) (hk : c.Passes g visits m k m₁)
      (h : PassesAlong c g rest m₁ passes m') : PassesAlong c g (visits :: rest) m (k :: passes) m'

/-- Counting at one position after the other makes the passes along them. -/
theorem exists_passesAlong {positions : List (List Visit)}
    (hincoming : ∀ visits ∈ positions, ∀ v ∈ visits, ∀ m, ∃ k, c.incoming g m v = .ok k)
    {s : Stage Counts} (hs : s.result = .ok m) :
    ∃ passes m', c.PassesAlong g positions m passes m' ∧
      List.Forall₂ (fun visits k => k ≤ 2 * visits.length + 1) positions passes ∧
      (positions.foldl (fun s visits => c.countAt g visits s) s).result = .ok m' ∧
      (positions.foldl (fun s visits => c.countAt g visits s) s).checks = s.checks + passes.sum := by
  induction positions generalizing s m with
  | nil => exact ⟨[], m, .nil, .nil, hs, rfl⟩
  | cons visits rest ih =>
    obtain ⟨hvisits, hrest⟩ := List.forall_mem_cons.1 hincoming
    cases visits with
    | nil =>
      have hat : c.countAt g [] s = s := by
        unfold countAt
        rw [hs]
        rfl
      obtain ⟨passes, m', halong, hall, hresult, hchecks⟩ := ih hrest hs
      exact ⟨0 :: passes, m', .skip halong, .cons (Nat.zero_le _) hall, by
        rwa [List.foldl_cons, hat], by rw [List.foldl_cons, hat, hchecks, List.sum_cons, Nat.zero_add]⟩
    | cons v visits =>
      obtain ⟨k, m₁, hpasses, hk, -⟩ := exists_passes hvisits m
      obtain ⟨hresult₁, hchecks₁⟩ := countRounds_eq hpasses hk s.checks
      have hat : c.countAt g (v :: visits) s =
          c.countRounds g (v :: visits) (2 * (v :: visits).length + 1) s.checks m := by
        unfold countAt
        rw [hs]
        rfl
      rw [← hat] at hresult₁ hchecks₁
      obtain ⟨passes, m', halong, hall, hresult, hchecks⟩ := ih hrest hresult₁
      refine ⟨k :: passes, m', .cons (List.cons_ne_nil _ _) hpasses halong, .cons hk hall, hresult, ?_⟩
      rw [List.foldl_cons, hchecks, hchecks₁, List.sum_cons, Nat.add_assoc]

/-- The useful visits, position by position, in the order in which a pass goes over them. -/
def positions (u : OrderedSet Visit) : List (List Visit) :=
  let visits := u.toList.mergeSort Visit.precedes
  (List.range ((visits.map Visit.position).foldl max 0 + 1)).map
    fun k => visits.filter fun v => v.position == k

theorem counts_eq (u : OrderedSet Visit) : c.counts g u =
    (positions u).foldl (fun s visits => c.countAt g visits s) ⟨0, fun _ => .counting, .ok ∅⟩ := by
  unfold counts positions
  rw [List.foldl_map]

/-- Every useful visit is gone over at its position. -/
theorem perm_positions {u : OrderedSet Visit} {k : Nat} {visits : List Visit}
    (h : (positions u)[k]? = some visits) : visits.Perm (u.toList.filter fun v => v.position == k) := by
  unfold positions at h
  rw [List.getElem?_map, Option.map_eq_some_iff] at h
  obtain ⟨j, hj, rfl⟩ := h
  obtain ⟨hlt, rfl⟩ := List.getElem?_eq_some_iff.1 hj
  rw [List.getElem_range]
  exact (List.mergeSort_perm _ _).filter _

theorem position_lt_length {u : OrderedSet Visit} {v : Visit} (hv : v ∈ u.toList) :
    v.position < (positions u).length := by
  unfold positions
  rw [List.length_map, List.length_range]
  exact Nat.lt_succ_of_le (le_foldl_max (.inr (List.mem_map_of_mem (List.mem_mergeSort.2 hv))))

/-- What counting comes to, and the number of passes that it makes at each position. -/
structure CountsTo (c : Chart) (g : Option Groups) (u : OrderedSet Visit) (passes : List Nat)
    (m : Counts) : Prop where
  loop : c.PassesAlong g (positions u) ∅ passes m
  listed : ∀ v ∈ u.toList, v.position < passes.length
  bounded : ∀ k n, passes[k]? = some n → n ≤ 2 * (u.toList.filter fun v => v.position == k).length + 1
  result : (c.counts g u).result = .ok m
  checks : (c.counts g u).checks = passes.sum

/-- Counting comes to its end. -/
theorem exists_countsTo {u : OrderedSet Visit}
    (hincoming : ∀ v ∈ u.toList, ∀ m, ∃ k, c.incoming g m v = .ok k) :
    ∃ passes m, c.CountsTo g u passes m := by
  have hall : ∀ visits ∈ positions u, ∀ v ∈ visits, ∀ m, ∃ k, c.incoming g m v = .ok k :=
    fun visits hvisits v hv => by
      obtain ⟨k, hk⟩ := List.mem_iff_getElem?.1 hvisits
      exact hincoming v (List.mem_of_mem_filter ((perm_positions hk).mem_iff.1 hv))
  obtain ⟨passes, m, halong, hbound, hresult, hchecks⟩ :=
    exists_passesAlong (s := ⟨0, fun _ => .counting, .ok ∅⟩) hall rfl
  rw [← counts_eq] at hresult hchecks
  refine ⟨passes, m, halong, fun v hv => hbound.length_eq ▸ position_lt_length hv, fun k n hn => ?_,
    hresult, by rw [hchecks, Nat.zero_add]⟩
  have hk : k < (positions u).length := hbound.length_eq ▸ (List.getElem?_eq_some_iff.1 hn).1
  have hvisits := List.getElem?_eq_getElem hk
  rw [← (perm_positions hvisits).length_eq]
  obtain ⟨hlt, rfl⟩ := List.getElem?_eq_some_iff.1 hn
  exact hbound.get hk hlt

namespace Recognizes

variable (h : c.Recognizes i types)
include h

theorem exists_incoming (hvisits : ∀ v ∈ visits, c.contains v = true) :
    ∀ v ∈ visits, ∀ m, ∃ k, c.incoming g m v = .ok k := fun v hv m => by
  obtain ⟨j, -, ho, -⟩ := h.invocation_ok (hvisits v hv)
  exact ⟨_, h.incoming_ok g m (hvisits v hv) ho⟩

theorem countAt_ok (hvisits : ∀ v ∈ visits, c.contains v = true) {s : Stage Counts}
    (hs : s.result = .ok m) :
    ∃ m', (c.countAt g visits s).result = .ok m' ∧
      ReflTransGen (c.Raises g visits) m m' ∧ ∀ v ∈ visits, c.Settled g m' v := by
  unfold countAt
  rw [hs]
  simp only
  split
  · rename_i hempty
    rw [List.isEmpty_iff] at hempty
    subst hempty
    exact ⟨m, hs, .refl, fun v hv => absurd hv List.not_mem_nil⟩
  · obtain ⟨k, m', hpasses, hk, hr, hsettled⟩ := exists_passes (h.exists_incoming (g := g) hvisits) m
    exact ⟨m', (countRounds_eq hpasses hk s.checks).1, hr, hsettled⟩

/-- What is settled is not affected by counts that rise further on. -/
theorem settled_of_raises {k : Nat} (hvisits : ∀ v ∈ visits, v.position = k)
    (hr : ReflTransGen (c.Raises g visits) m m') {w : Visit} (hw : c.contains w = true)
    (hk : w.position < k) (hs : c.Settled g m w) : c.Settled g m' w := by
  have hsame : ∀ u : Visit, u.position < k → m'.of u = m.of u := by
    intro u hu
    induction hr with
    | refl => rfl
    | tail _ hstep ih =>
      obtain ⟨v, hv, n, -, -, rfl⟩ := hstep
      have hne : v ≠ u := by
        rintro rfl
        have := hvisits v hv
        omega
      rw [Counts.of_insert, if_neg hne, ih]
  obtain ⟨j, -, ho, -⟩ := h.invocation_ok hw
  obtain ⟨n, hn, hle⟩ := hs
  refine ⟨n, ?_, by rw [hsame w hk]; exact hle⟩
  rw [h.incoming_ok g m hw ho] at hn
  rw [h.incoming_ok g m' hw ho,
    h.total_congr fun u hu => hsame u (Nat.lt_of_le_of_lt hu hk)]
  exact hn

/-- Counting never fails. Every count has been raised to what came in at its visit, and at the end
none is below it. -/
theorem counts_ok (g : Option Groups) {u : OrderedSet Visit}
    (hu : ∀ v ∈ u.toList, c.contains v = true) :
    ∃ m, (c.counts g u).result = .ok m ∧ ReflTransGen (c.Raises g u.toList) ∅ m ∧
      ∀ v ∈ u.toList, c.Settled g m v := by
  have hmem : ∀ {v}, v ∈ u.toList.mergeSort Visit.precedes ↔ v ∈ u.toList := List.mem_mergeSort
  have key : ∀ n, ∃ m, ((List.range n).foldl (fun s k => c.countAt g
        ((u.toList.mergeSort Visit.precedes).filter fun v => v.position == k) s)
        ⟨0, fun _ => .counting, .ok ∅⟩).result = .ok m ∧
      ReflTransGen (c.Raises g u.toList) ∅ m ∧
      ∀ v ∈ u.toList, v.position < n → c.Settled g m v := by
    intro n
    induction n with
    | zero => exact ⟨∅, rfl, .refl, fun v _ hv => absurd hv (Nat.not_lt_zero _)⟩
    | succ n ih =>
      obtain ⟨m, hm, hr, hs⟩ := ih
      rw [List.range_succ, List.foldl_append, List.foldl_cons, List.foldl_nil]
      have hhere : ∀ v, v ∈ (u.toList.mergeSort Visit.precedes).filter (fun v => v.position == n) ↔
          v ∈ u.toList ∧ v.position = n := fun v => by simp [hmem]
      obtain ⟨m', hm', hr', hs'⟩ := h.countAt_ok (g := g)
        (fun v hv => hu v ((hhere v).1 hv).1) hm
      have hraises : ReflTransGen (c.Raises g u.toList) m m' :=
        ReflTransGen.mono (fun _ _ hstep => hstep.mono fun v hv => ((hhere v).1 hv).1) _ _ hr'
      refine ⟨m', hm', hr.trans hraises, fun v hv hlt => ?_⟩
      by_cases hn : v.position = n
      · exact hs' v ((hhere v).2 ⟨hv, hn⟩)
      · exact h.settled_of_raises (fun w hw => ((hhere w).1 hw).2) hr' (hu v hv) (by omega)
          (hs v hv (by omega))
  obtain ⟨m, hm, hr, hs⟩ := key _
  refine ⟨m, hm, hr, fun v hv => hs v hv (Nat.lt_succ_of_le ?_)⟩
  exact le_foldl_max (.inr (List.mem_map_of_mem (hmem.2 hv)))

end Recognizes

end Chart

end RuleNetwork
