import Mathlib.Logic.Relation
import RuleNetwork.Graph.Search
import RuleNetwork.Proofs.Attempt
import RuleNetwork.Proofs.Container

/-!
What a search finds. Within a universe of nodes that its bound covers, a search that does not fail
finds exactly the nodes that its starts lead to.
-/

set_option autoImplicit false

namespace RuleNetwork

section Inside

variable {α : Type} {R S : α → α → Prop} {P : α → Prop} {a b : α}

/-- What a relation leads to from within a part that it does not leave. -/
theorem reflTransGen_inside (hin : ∀ {a b}, P a → R a b → S a b ∧ P b) (ha : P a)
    (hab : Relation.ReflTransGen R a b) : Relation.ReflTransGen S a b ∧ P b := by
  induction hab with
  | refl => exact ⟨.refl, ha⟩
  | tail _ hstep ih =>
    obtain ⟨hs, hb⟩ := hin ih.2 hstep
    exact ⟨ih.1.tail hs, hb⟩

/-- Two relations that agree within a part that neither leaves lead on alike. -/
theorem reflTransGen_iff_inside (hkeep : ∀ {a b}, P a → S a b → P b)
    (hiff : ∀ {a b}, P a → (R a b ↔ S a b)) (ha : P a) :
    Relation.ReflTransGen R a b ↔ Relation.ReflTransGen S a b := by
  constructor
  · refine fun hab => (reflTransGen_inside (fun hp hr => ?_) ha hab).1
    have hs := (hiff hp).1 hr
    exact ⟨hs, hkeep hp hs⟩
  · refine fun hab => (reflTransGen_inside (fun hp hs => ?_) ha hab).1
    exact ⟨(hiff hp).2 hs, hkeep hp hs⟩

end Inside

namespace Search

variable {α ε : Type} [BEq α] [Hashable α] [LawfulBEq α] {next : α → Except ε (List α)}

/-- A step of a search. -/
def Step (next : α → Except ε (List α)) (a b : α) : Prop := ∃ l, next a = .ok l ∧ b ∈ l

omit [BEq α] [Hashable α] [LawfulBEq α] in
theorem step_iff {a b : α} {l : List α} (hl : next a = .ok l) : Step next a b ↔ b ∈ l := by
  constructor
  · rintro ⟨l', hl', hb⟩
    rw [hl] at hl'
    cases hl'
    exact hb
  · exact fun hb => ⟨l, hl, hb⟩

/-- A universe of nodes that no step leaves. -/
def Universe (next : α → Except ε (List α)) (univ : List α) : Prop :=
  ∀ a ∈ univ, ∀ b, Step next a b → b ∈ univ

theorem spread_ok {univ : List α} (hu : Universe next univ) {bound i : Nat}
    {found s : OrderedSet α} (hf : ∀ a ∈ found.toList, a ∈ univ)
    (hdone : ∀ a ∈ found.toList.take i, ∃ l, next a = .ok l ∧ ∀ b ∈ l, b ∈ found.toList)
    (hb : univ.length ≤ bound + i) (h : spread next bound found i = .ok s) :
    (∀ a ∈ found.toList, a ∈ s.toList) ∧
      (∀ a ∈ s.toList, ∃ l, next a = .ok l ∧ ∀ b ∈ l, b ∈ s.toList) ∧
      ∀ b ∈ s.toList, ∃ a ∈ found.toList, Relation.ReflTransGen (Step next) a b := by
  induction bound generalizing i found with
  | zero =>
    cases h
    have := OrderedSet.length_le _ hf
    rw [List.take_of_length_le (by omega)] at hdone
    exact ⟨fun a ha => ha, hdone, fun b hb => ⟨b, hb, .refl⟩⟩
  | succ bound ih =>
    unfold spread at h
    rw [OrderedSet.get?_eq] at h
    cases ha : found.toList[i]? with
    | none =>
      rw [ha] at h
      cases h
      rw [List.take_of_length_le (List.getElem?_eq_none_iff.1 ha)] at hdone
      exact ⟨fun a ha => ha, hdone, fun b hb => ⟨b, hb, .refl⟩⟩
    | some a =>
      rw [ha] at h
      obtain ⟨l, hl, h⟩ := bind_eq_ok.1 h
      have hmem := List.mem_of_getElem? ha
      have hstep : ∀ b ∈ l, Step next a b := fun b hb => ⟨l, hl, hb⟩
      obtain ⟨h₁, h₂, h₃⟩ := ih (fun b hb => by
          obtain hb | hb := (OrderedSet.mem_toList_insertAll _ _ _).1 hb
          · exact hf b hb
          · exact hu a (hf a hmem) b (hstep b hb))
        (fun b hb => by
          obtain ⟨rest, hrest⟩ := found.prefix_insertAll l
          have hi : i < found.toList.length := (List.getElem?_eq_some_iff.1 ha).1
          rw [← hrest, List.take_append_of_le_length (by omega), List.take_add_one, ha] at hb
          rw [← hrest]
          obtain hb | hb := List.mem_append.1 hb
          · obtain ⟨l', hl', hsub⟩ := hdone b hb
            exact ⟨l', hl', fun x hx => List.mem_append_left _ (hsub x hx)⟩
          · obtain rfl : b = a := by simpa using hb
            rw [hrest]
            exact ⟨l, hl, fun x hx => (OrderedSet.mem_toList_insertAll _ _ _).2 (.inr hx)⟩)
        (by omega) h
      refine ⟨fun b hb => h₁ b ((OrderedSet.mem_toList_insertAll _ _ _).2 (.inl hb)), h₂,
        fun b hb => ?_⟩
      obtain ⟨c, hc, hreach⟩ := h₃ b hb
      obtain hc | hc := (OrderedSet.mem_toList_insertAll _ _ _).1 hc
      · exact ⟨c, hc, hreach⟩
      · exact ⟨a, hmem, .head (hstep c hc) hreach⟩

omit [LawfulBEq α] in
/-- A closed set holds what its members lead to. -/
theorem mem_of_reach {s : OrderedSet α}
    (hs : ∀ a ∈ s.toList, ∃ l, next a = .ok l ∧ ∀ b ∈ l, b ∈ s.toList) {a b : α}
    (h : Relation.ReflTransGen (Step next) a b) (ha : a ∈ s.toList) : b ∈ s.toList := by
  induction h with
  | refl => exact ha
  | tail _ hstep ih =>
    obtain ⟨l, hl, hsub⟩ := hs _ ih
    obtain ⟨l', hl', hb⟩ := hstep
    rw [hl] at hl'
    cases hl'
    exact hsub _ hb

/-- A search breadth first finds what its starts lead to. -/
theorem mem_breadthFirst_iff {univ starts : List α} (hu : Universe next univ)
    (hstarts : ∀ a ∈ starts, a ∈ univ) {bound : Nat} (hb : univ.length ≤ bound) {s : OrderedSet α}
    (h : breadthFirst next bound starts = .ok s) {b : α} :
    b ∈ s.toList ↔ ∃ a ∈ starts, Relation.ReflTransGen (Step next) a b := by
  obtain ⟨h₁, h₂, h₃⟩ := spread_ok hu
    (fun a ha => hstarts a ((OrderedSet.mem_toList_ofList _ _).1 ha))
    (fun a ha => absurd ha (by simp)) (by omega) h
  constructor
  · intro hmem
    obtain ⟨a, ha, hr⟩ := h₃ b hmem
    exact ⟨a, (OrderedSet.mem_toList_ofList _ _).1 ha, hr⟩
  · rintro ⟨a, ha, hr⟩
    exact mem_of_reach h₂ hr (h₁ a ((OrderedSet.mem_toList_ofList _ _).2 ha))

section Listed

variable (next)

/-- A list with all members of another, those that are new at the end. -/
def adjoin (found l : List α) : List α :=
  l.foldl (fun found a => if found.contains a then found else found ++ [a]) found

/-- A search breadth first on the list of the nodes found. -/
def spreadList : Nat → List α → Nat → Except ε (List α)
  | 0, found, _ => .ok found
  | bound + 1, found, i =>
    match found[i]? with
    | none => .ok found
    | some a => do spreadList bound (adjoin found (← next a)) (i + 1)

theorem toList_insertAll (s : OrderedSet α) (l : List α) :
    (s.insertAll l).toList = adjoin s.toList l := by
  induction l generalizing s with
  | nil => rfl
  | cons a l ih =>
    rw [OrderedSet.insertAll_cons, ih, OrderedSet.toList_insert, adjoin, adjoin, List.foldl_cons]
    simp only [List.contains_iff_mem]

theorem toList_spread (bound : Nat) (s : OrderedSet α) (i : Nat) :
    (spread next bound s i).map OrderedSet.toList = spreadList next bound s.toList i := by
  induction bound generalizing s i with
  | zero => rfl
  | succ bound ih =>
    unfold spread spreadList
    rw [OrderedSet.get?_eq]
    cases s.toList[i]? with
    | none => rfl
    | some a =>
      cases ha : next a with
      | error e => simp [bind, Except.bind, ha, Except.map]
      | ok l =>
        simp only [bind, Except.bind, ha]
        rw [ih, toList_insertAll]

end Listed

theorem exists_spread {P : α → Prop} (hnext : ∀ a, P a → ∃ l, next a = .ok l ∧ ∀ b ∈ l, P b)
    (bound i : Nat) (found : OrderedSet α) (hf : ∀ a ∈ found.toList, P a) :
    ∃ s, spread next bound found i = .ok s ∧ ∀ a ∈ s.toList, P a := by
  induction bound generalizing i found with
  | zero => exact ⟨found, rfl, hf⟩
  | succ bound ih =>
    unfold spread
    rw [OrderedSet.get?_eq]
    cases ha : found.toList[i]? with
    | none => exact ⟨found, rfl, hf⟩
    | some a =>
      obtain ⟨l, hl, hlP⟩ := hnext a (hf a (List.mem_of_getElem? ha))
      obtain ⟨s, hs, hsP⟩ := ih (i + 1) (found.insertAll l) fun b hb => by
        obtain hb | hb := (OrderedSet.mem_toList_insertAll _ _ _).1 hb
        · exact hf b hb
        · exact hlP b hb
      exact ⟨s, bind_eq_ok.2 ⟨l, hl, hs⟩, hsP⟩

/-- A search does not fail among nodes where its steps do not. -/
theorem exists_breadthFirst {P : α → Prop}
    (hnext : ∀ a, P a → ∃ l, next a = .ok l ∧ ∀ b ∈ l, P b) (bound : Nat) {starts : List α}
    (hstarts : ∀ a ∈ starts, P a) :
    ∃ s, breadthFirst next bound starts = .ok s ∧ ∀ a ∈ s.toList, P a :=
  exists_spread hnext bound 0 _ fun a ha => hstarts a ((OrderedSet.mem_toList_ofList _ _).1 ha)

theorem exists_descend {P : α → Prop} (hnext : ∀ a, P a → ∃ l, next a = .ok l ∧ ∀ b ∈ l, P b)
    (goal : α → Bool) (bound : Nat) (stack : List α) (marked : OrderedSet α) (taken : List α)
    (hstack : ∀ a ∈ stack, P a) (htaken : ∀ a ∈ taken, P a) :
    ∃ r, descend next goal bound stack marked taken = .ok r ∧ ∀ a ∈ r, P a := by
  have hreverse : ∀ {l : List α}, (∀ a ∈ l, P a) → ∀ a ∈ l.reverse, P a :=
    fun hl a ha => hl a (List.mem_reverse.1 ha)
  induction bound generalizing stack marked taken with
  | zero => exact ⟨_, rfl, hreverse htaken⟩
  | succ bound ih =>
    cases stack with
    | nil => exact ⟨_, rfl, hreverse htaken⟩
    | cons a stack =>
      have ha := hstack a (List.mem_cons_self ..)
      have htaken' : ∀ b ∈ a :: taken, P b := by
        intro b hb
        obtain rfl | hb := List.mem_cons.1 hb
        · exact ha
        · exact htaken b hb
      unfold descend
      split
      · exact ⟨_, rfl, hreverse htaken'⟩
      · obtain ⟨l, hl, hlP⟩ := hnext a ha
        obtain ⟨fresh, hfresh⟩ := marked.prefix_insertAll l
        have hpushed : ∀ b ∈ ((marked.insertAll l).toList.drop marked.size).reverse ++ stack, P b := by
          intro b hb
          obtain hb | hb := List.mem_append.1 hb
          · have hdrop : (marked.insertAll l).toList.drop marked.size = fresh := by
              rw [← hfresh, ← marked.length_toList, List.drop_left]
            rw [hdrop, List.mem_reverse] at hb
            have hnodup := (marked.insertAll l).nodup_toList
            have hmem : b ∈ (marked.insertAll l).toList := hfresh ▸ List.mem_append_right _ hb
            obtain hm | hm := (OrderedSet.mem_toList_insertAll _ _ _).1 hmem
            · rw [← hfresh] at hnodup
              exact absurd rfl ((List.nodup_append.1 hnodup).2.2 b hm b hb)
            · exact hlP b hm
          · exact hstack b (List.mem_cons_of_mem _ hb)
        obtain ⟨r, hr, hrP⟩ := ih _ (marked.insertAll l) (a :: taken) hpushed htaken'
        exact ⟨r, bind_eq_ok.2 ⟨l, hl, hr⟩, hrP⟩

theorem exists_depthFirst {P : α → Prop} (hnext : ∀ a, P a → ∃ l, next a = .ok l ∧ ∀ b ∈ l, P b)
    (goal : α → Bool) (bound : Nat) {start : α} (hstart : P start) :
    ∃ r, depthFirst next goal bound start = .ok r ∧ ∀ a ∈ r, P a :=
  exists_descend hnext goal bound _ _ _ (fun a ha => by rwa [List.mem_singleton.1 ha])
    fun a ha => absurd ha List.not_mem_nil

omit [BEq α] [Hashable α] [LawfulBEq α] in
/-- The steps of a search that cannot fail. -/
theorem step_pure (next : α → List α) :
    Step (fun a => (.ok (next a) : Except Empty (List α))) = fun x y => y ∈ next x := by
  funext x y
  exact propext (step_iff rfl)

theorem mem_closure_iff {next : α → List α} {univ starts : List α}
    (hu : ∀ a ∈ univ, ∀ b ∈ next a, b ∈ univ) (hstarts : ∀ a ∈ starts, a ∈ univ) {bound : Nat}
    (hb : univ.length ≤ bound) {b : α} :
    b ∈ (closure next bound starts).toList ↔
      ∃ a ∈ starts, Relation.ReflTransGen (fun x y => y ∈ next x) a b := by
  have huniv : Universe (fun a => (.ok (next a) : Except Empty (List α))) univ := by
    unfold Universe
    rw [step_pure]
    exact hu
  unfold closure
  split
  rename_i s hs
  rw [mem_breadthFirst_iff huniv hstarts hb hs, step_pure]

/-- The invariant of a search in depth: what is marked is on the stack or has been taken off it. -/
structure Descent (next : α → Except ε (List α)) (univ stack : List α) (marked : OrderedSet α)
    (taken : List α) : Prop where
  within : ∀ a ∈ stack ++ taken, a ∈ univ
  nodup : (stack ++ taken).Nodup
  marks : ∀ a, a ∈ marked.toList ↔ a ∈ stack ++ taken
  done : ∀ a ∈ taken, ∃ l, next a = .ok l ∧ ∀ b ∈ l, b ∈ marked.toList

theorem descent_step {univ stack taken l : List α} {marked : OrderedSet α} {a : α}
    (hu : Universe next univ) (h : Descent next univ (a :: stack) marked taken)
    (hl : next a = .ok l) :
    Descent next univ (((marked.insertAll l).toList.drop marked.size).reverse ++ stack)
      (marked.insertAll l) (a :: taken) := by
  obtain ⟨fresh, hfresh⟩ := marked.prefix_insertAll l
  have hdrop : (marked.insertAll l).toList.drop marked.size = fresh := by
    rw [← hfresh, ← marked.length_toList, List.drop_left]
  have hnew : ∀ b, b ∈ fresh → b ∈ l ∧ b ∉ marked.toList := by
    intro b hb
    have hnodup := (marked.insertAll l).nodup_toList
    rw [← hfresh] at hnodup
    have hnot : b ∉ marked.toList := fun hm =>
      (List.nodup_append.1 hnodup).2.2 b hm b hb rfl
    have hmem : b ∈ (marked.insertAll l).toList := by
      rw [← hfresh]
      exact List.mem_append_right _ hb
    exact ⟨((OrderedSet.mem_toList_insertAll _ _ _).1 hmem).resolve_left hnot, hnot⟩
  rw [hdrop]
  have hperm : (fresh.reverse ++ stack ++ a :: taken).Perm (fresh ++ (a :: stack ++ taken)) := by
    rw [List.append_assoc]
    exact (List.reverse_perm fresh).append List.perm_middle
  refine ⟨fun b hb => ?_, hperm.nodup_iff.2 ?_, fun b => ?_, fun b hb => ?_⟩
  · obtain hb | hb := List.mem_append.1 (hperm.mem_iff.1 hb)
    · exact hu a (h.within a (List.mem_cons_self ..)) b ⟨l, hl, (hnew b hb).1⟩
    · exact h.within b hb
  · have hnodup := (marked.insertAll l).nodup_toList
    rw [← hfresh] at hnodup
    refine List.nodup_append.2 ⟨(List.nodup_append.1 hnodup).2.1, h.nodup, fun b hb c hc hbc => ?_⟩
    subst hbc
    exact (hnew b hb).2 ((h.marks b).2 hc)
  · rw [← hfresh, hperm.mem_iff, List.mem_append, List.mem_append, h.marks]
    exact or_comm
  · obtain rfl | hb := List.mem_cons.1 hb
    · exact ⟨l, hl, fun c hc => (OrderedSet.mem_toList_insertAll _ _ _).2 (.inr hc)⟩
    · obtain ⟨l', hl', hmem⟩ := h.done b hb
      exact ⟨l', hl', fun c hc => (OrderedSet.mem_toList_insertAll _ _ _).2 (.inl (hmem c hc))⟩

namespace Descent

variable {univ starts stack taken : List α} {marked : OrderedSet α}
omit [LawfulBEq α]

theorem nodup_taken (h : Descent next univ stack marked taken) : taken.reverse.Nodup :=
  (List.reverse_perm taken).nodup_iff.2 (h.nodup.sublist (List.sublist_append_right stack taken))

/-- What is known of all that is marked is known of what has been taken. -/
theorem of_taken {P : α → Prop} (h : Descent next univ stack marked taken)
    (hP : ∀ b ∈ marked.toList, P b) : ∀ b ∈ taken.reverse, b ∈ univ ∧ P b := by
  intro b hb
  have hmem := List.mem_append_right stack (List.mem_reverse.1 hb)
  exact ⟨h.within b hmem, hP b ((h.marks b).2 hmem)⟩

/-- With an empty stack what has been taken is closed. -/
theorem mem_of_reaches (h : Descent next univ [] marked taken)
    (hstarts : ∀ a ∈ starts, a ∈ marked.toList) {b : α}
    (hb : ∃ a ∈ starts, Relation.ReflTransGen (Step next) a b) : b ∈ taken.reverse := by
  obtain ⟨a, ha, hab⟩ := hb
  have hmarks : ∀ a, a ∈ marked.toList ↔ a ∈ taken := h.marks
  rw [List.mem_reverse, ← hmarks]
  exact mem_of_reach (fun a ha => h.done a ((hmarks a).1 ha)) hab (hstarts a ha)

end Descent

/-- A search in depth takes nodes that its starts lead to, each once: all of them, unless it meets its
goal. -/
theorem descend_ok {goal : α → Bool} {univ starts : List α} (hu : Universe next univ) {bound : Nat}
    {stack taken r : List α} {marked : OrderedSet α} (h : Descent next univ stack marked taken)
    (hb : univ.length ≤ bound + taken.length) (hstarts : ∀ a ∈ starts, a ∈ marked.toList)
    (hreach : ∀ b ∈ marked.toList, ∃ a ∈ starts, Relation.ReflTransGen (Step next) a b)
    (hr : descend next goal bound stack marked taken = .ok r) :
    r.Nodup ∧ (∀ b ∈ r, b ∈ univ ∧ ∃ a ∈ starts, Relation.ReflTransGen (Step next) a b) ∧
      ((∃ b ∈ r, goal b = true) ∨
        ∀ b, (∃ a ∈ starts, Relation.ReflTransGen (Step next) a b) → b ∈ r) := by
  induction bound generalizing stack marked taken with
  | zero =>
    have hlen := (h.nodup.subperm h.within).length_le
    rw [List.length_append] at hlen
    obtain rfl : stack = [] := List.length_eq_zero_iff.1 (by omega)
    cases hr
    exact ⟨h.nodup_taken, h.of_taken hreach, .inr fun b => h.mem_of_reaches hstarts⟩
  | succ bound ih =>
    cases stack with
    | nil =>
      cases hr
      exact ⟨h.nodup_taken, h.of_taken hreach, .inr fun b => h.mem_of_reaches hstarts⟩
    | cons a stack =>
      unfold descend at hr
      split at hr
      · rename_i hgoal
        cases hr
        have hperm : (a :: taken).reverse.Perm (a :: taken) := List.reverse_perm _
        refine ⟨hperm.nodup_iff.2 ?_, fun b hb => ?_, .inl ⟨a, by simp, hgoal⟩⟩
        · exact h.nodup.sublist (.cons_cons a (List.sublist_append_right stack taken))
        · have hmem : b ∈ a :: stack ++ taken := by
            obtain rfl | hb := List.mem_cons.1 (hperm.mem_iff.1 hb)
            · exact List.mem_cons_self ..
            · exact List.mem_append_right _ hb
          exact ⟨h.within b hmem, hreach b ((h.marks b).2 hmem)⟩
      · obtain ⟨l, hl, hr⟩ := bind_eq_ok.1 hr
        refine ih (descent_step hu h hl) (by rw [List.length_cons]; omega)
          (fun b hb => (OrderedSet.mem_toList_insertAll _ _ _).2 (.inl (hstarts b hb)))
          (fun b hb => ?_) hr
        obtain hb | hb := (OrderedSet.mem_toList_insertAll _ _ _).1 hb
        · exact hreach b hb
        · obtain ⟨c, hc, hca⟩ := hreach a ((h.marks a).2 (List.mem_cons_self ..))
          exact ⟨c, hc, hca.tail ⟨l, hl, hb⟩⟩

theorem depthFirst_ok {goal : α → Bool} {univ r : List α} {start : α} (hu : Universe next univ)
    (hstart : start ∈ univ) {bound : Nat} (hb : univ.length ≤ bound)
    (hr : depthFirst next goal bound start = .ok r) :
    (∀ b ∈ r, Relation.ReflTransGen (Step next) start b) ∧
      ((∃ b ∈ r, goal b = true) ∨ ∀ b, Relation.ReflTransGen (Step next) start b → b ∈ r) := by
  have hmark : ∀ a, a ∈ (OrderedSet.ofList [start]).toList ↔ a = start := fun a => by simp
  have h : Descent next univ [start] (.ofList [start]) [] := by
    refine ⟨fun a ha => ?_, by simp, fun a => by simp, fun a ha => absurd ha List.not_mem_nil⟩
    obtain rfl : a = start := by simpa using ha
    exact hstart
  have hstarts : ∀ a ∈ [start], a ∈ (OrderedSet.ofList [start]).toList := fun a ha =>
    (hmark a).2 (List.mem_singleton.1 ha)
  obtain ⟨-, hreach, hall⟩ := descend_ok hu h (by simpa using hb) hstarts
    (fun b hb => ⟨start, List.mem_singleton_self _, by rw [(hmark b).1 hb]⟩) hr
  simp only [List.mem_singleton, exists_eq_left] at hreach hall
  exact ⟨fun b hb => (hreach b hb).2, hall⟩

/-- A search in depth without a goal takes all that its start leads to. -/
theorem mem_depthFirst_iff {univ r : List α} {start : α} (hu : Universe next univ)
    (hstart : start ∈ univ) {bound : Nat} (hb : univ.length ≤ bound)
    (hr : depthFirst next (fun _ => false) bound start = .ok r) {b : α} :
    b ∈ r ↔ Relation.ReflTransGen (Step next) start b := by
  obtain ⟨hreach, hgoal | hall⟩ := depthFirst_ok hu hstart hb hr
  · obtain ⟨-, -, hgoal⟩ := hgoal
    cases hgoal
  · exact ⟨hreach b, hall b⟩

/-- A search in depth for one node takes it just if its start leads there. -/
theorem contains_depthFirst_iff {univ r : List α} {start stop : α} (hu : Universe next univ)
    (hstart : start ∈ univ) {bound : Nat} (hb : univ.length ≤ bound)
    (hr : depthFirst next (· == stop) bound start = .ok r) :
    r.contains stop = true ↔ Relation.ReflTransGen (Step next) start stop := by
  obtain ⟨hreach, hall⟩ := depthFirst_ok hu hstart hb hr
  rw [List.contains_iff_mem]
  refine ⟨hreach stop, fun hstop => ?_⟩
  obtain ⟨b, hb, hgoal⟩ | hall := hall
  · obtain rfl : b = stop := by simpa using hgoal
    exact hb
  · exact hall stop hstop

end Search

end RuleNetwork
