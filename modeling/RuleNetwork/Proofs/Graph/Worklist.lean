import RuleNetwork.Proofs.Graph.Breadth

/-!
Loops without a bound. A loop takes something up and makes a turn, until there is nothing left to take
up; it may as well never end. If each turn lowers a measure it does end, and then a function that makes
the same turns, but no more than a number of them, comes to the same result as soon as this number is
large enough.

Two such loops go over a set that grows meanwhile. The members of a queue are taken up in the order in
which they were added, and so each of them once. A stack is taken from at its top; what is pushed has not
been marked before, so nothing is taken up twice. Where all members come from a list, both loops end, and
the searches, whose bounds allow for the list, do what the loops do.
-/

set_option autoImplicit false

namespace RuleNetwork

section Loop

variable {σ α ε : Type} {pick : σ → Option α} {turn : σ → α → Except ε σ}

/-- The loop ends, from one state in another. The list is of what its turns take up. -/
inductive Loop (pick : σ → Option α) (turn : σ → α → Except ε σ) : σ → List α → σ → Prop
  | done {s : σ} (h : pick s = none) : Loop pick turn s [] s
  | next {s s' t : σ} {a : α} {l : List α} (ha : pick s = some a) (hs : turn s a = .ok s')
    (h : Loop pick turn s' l t) : Loop pick turn s (a :: l) t

namespace Loop

theorem end_eq {s t : σ} {l : List α} (h : Loop pick turn s l t) : pick t = none := by
  induction h with
  | done h => exact h
  | next _ _ _ ih => exact ih

/-- A loop whose turns lower a measure ends, after no more turns than the measure tells. -/
theorem exists_of_measure (pick : σ → Option α) (turn : σ → α → Except ε σ) (P : σ → Prop) (μ : σ → Nat)
    (hturn : ∀ {s a}, P s → pick s = some a → ∃ s', turn s a = .ok s' ∧ P s' ∧ μ s' < μ s) {s : σ}
    (hs : P s) : ∃ l t, Loop pick turn s l t ∧ P t ∧ l.length ≤ μ s := by
  induction hμ : μ s using Nat.strongRecOn generalizing s with
  | ind m ih =>
    cases ha : pick s with
    | none => exact ⟨[], s, .done ha, hs, Nat.zero_le _⟩
    | some a =>
      obtain ⟨s', hs', hP, hlt⟩ := hturn hs ha
      obtain ⟨l, t, hl, ht, hle⟩ := ih (μ s') (hμ ▸ hlt) hP rfl
      exact ⟨a :: l, t, .next ha hs' hl, ht, by rw [List.length_cons]; omega⟩

/-- Turns that are counted down come to the end of the loop if there are enough of them. -/
theorem run_eq {ρ : Type} (run : Nat → σ → Except ε ρ) (out : σ → ρ)
    (hdone : ∀ b {s}, pick s = none → run b s = .ok (out s))
    (hnext : ∀ b {s a s'}, pick s = some a → turn s a = .ok s' → run (b + 1) s = run b s') {s t : σ}
    {l : List α} (h : Loop pick turn s l t) {b : Nat} (hb : l.length ≤ b) : run b s = .ok (out t) := by
  induction h generalizing b with
  | done h => exact hdone b h
  | next ha hs _ ih =>
    cases b with
    | zero => simp at hb
    | succ b =>
      rw [hnext b ha hs]
      exact ih (Nat.le_of_succ_le_succ hb)

end Loop

end Loop

section Queue

variable {σ α ε : Type} [BEq α] [Hashable α] {items : σ → OrderedSet α} {grow : σ → α → Except ε σ}

/-- The next member of the queue. -/
def Queue.head (items : σ → OrderedSet α) (q : Nat × σ) : Option α := (items q.2).get? q.1

def Queue.turn (grow : σ → α → Except ε σ) (q : Nat × σ) (a : α) : Except ε (Nat × σ) := do
  return (q.1 + 1, ← grow q.2 a)

/-- A queue is gone through to its end, while more comes in. -/
def Queue.Loop (items : σ → OrderedSet α) (grow : σ → α → Except ε σ) (s : σ) (taken : List α) (t : σ) :
    Prop :=
  ∃ n, RuleNetwork.Loop (head items) (turn grow) (0, s) taken (n, t)

namespace Queue

/-- The members that are left are taken up in order. -/
theorem taken_eq_drop (hgrow : ∀ {s a s'}, grow s a = .ok s' → (items s).toList <+: (items s').toList)
    {i n : Nat} {s t : σ} {taken : List α}
    (h : RuleNetwork.Loop (head items) (turn grow) (i, s) taken (n, t)) :
    taken = (items t).toList.drop i ∧ (items s).toList <+: (items t).toList := by
  generalize hq : (i, s) = q at h
  generalize hr : (n, t) = r at h
  induction h generalizing i s with
  | done h =>
    subst hr
    cases hq
    rw [head, OrderedSet.get?_eq, List.getElem?_eq_none_iff] at h
    exact ⟨(List.drop_eq_nil_iff.2 h).symm, List.prefix_rfl⟩
  | next ha hs _ ih =>
    subst hq
    obtain ⟨s', hs', hturn⟩ := bind_eq_ok.1 hs
    obtain rfl := pure_eq_ok.1 hturn
    obtain ⟨rfl, hfront⟩ := ih rfl hr
    have hwhole := (hgrow hs').trans hfront
    refine ⟨?_, hwhole⟩
    rw [head, OrderedSet.get?_eq] at ha
    obtain ⟨hi, rfl⟩ := List.getElem?_eq_some_iff.1 ha
    rw [hwhole.getElem hi, List.getElem_cons_drop]

/-- A queue that is bounded is gone through, each member once. -/
theorem exists_loop (items : σ → OrderedSet α) (grow : σ → α → Except ε σ) (P : σ → Prop) (bound : Nat)
    (hgrow : ∀ {s a s'}, grow s a = .ok s' → (items s).toList <+: (items s').toList)
    (hstep : ∀ {s a}, P s → a ∈ (items s).toList → ∃ s', grow s a = .ok s' ∧ P s')
    (hbound : ∀ {s}, P s → (items s).toList.length ≤ bound) {s : σ} (hs : P s) :
    ∃ t, Loop items grow s (items t).toList t ∧ P t := by
  obtain ⟨taken, ⟨n, t⟩, h, ht, -⟩ := Loop.exists_of_measure (head items) (turn grow) (fun q => P q.2)
    (fun q => bound - q.1) (s := (0, s)) (fun {q a} hq ha => by
      rw [head, OrderedSet.get?_eq] at ha
      obtain ⟨s', hs', hP⟩ := hstep hq (List.mem_of_getElem? ha)
      have hlt := (List.getElem?_eq_some_iff.1 ha).1
      have hle := hbound hq
      exact ⟨(q.1 + 1, s'), bind_eq_ok.2 ⟨s', hs', rfl⟩, hP, by dsimp only; omega⟩) hs
  obtain ⟨rfl, -⟩ := taken_eq_drop hgrow h
  exact ⟨t, ⟨n, h⟩, ht⟩

end Queue

end Queue

namespace Search

variable {α ε : Type} [BEq α] [Hashable α] [LawfulBEq α] {next : α → Except ε (List α)}

/-- A search breadth first goes through the queue of what it has found. -/
def Spreads (next : α → Except ε (List α)) (starts taken : List α) (found : OrderedSet α) : Prop :=
  Queue.Loop id (fun found a => do return found.insertAll (← next a)) (.ofList starts) taken found

/-- Within a list that no step leaves a search breadth first is the loop that has no bound. -/
theorem exists_spreads {univ starts : List α}
    (hnext : ∀ a ∈ univ, ∃ l, next a = .ok l ∧ ∀ b ∈ l, b ∈ univ) (hstarts : ∀ a ∈ starts, a ∈ univ)
    {bound : Nat} (hb : univ.length ≤ bound) :
    ∃ found, Spreads next starts found.toList found ∧ breadthFirst next bound starts = .ok found ∧
      ∀ a ∈ found.toList, a ∈ univ := by
  obtain ⟨found, hloop, hfound⟩ := Queue.exists_loop (id : OrderedSet α → OrderedSet α)
    (fun found a => do return found.insertAll (← next a)) (fun found => ∀ a ∈ found.toList, a ∈ univ)
    univ.length (s := .ofList starts)
    (fun {s a s'} h => by
      obtain ⟨l, -, h⟩ := bind_eq_ok.1 h
      obtain rfl := pure_eq_ok.1 h
      exact s.prefix_insertAll l)
    (fun {s a} hs ha => by
      obtain ⟨l, hl, hin⟩ := hnext a (hs a ha)
      exact ⟨_, bind_eq_ok.2 ⟨l, hl, rfl⟩, fun b hb =>
        ((OrderedSet.mem_toList_insertAll _ _ _).1 hb).elim (hs b) (hin b)⟩)
    (fun hs => OrderedSet.length_le _ hs)
    fun a ha => hstarts a ((OrderedSet.mem_toList_ofList _ _).1 ha)
  refine ⟨found, hloop, ?_, hfound⟩
  obtain ⟨n, hloop⟩ := hloop
  refine hloop.run_eq (fun b q => spread next b q.2 q.1) Prod.snd (fun b q h => ?_)
    (fun b q a q' ha hq => ?_) (Nat.le_trans (OrderedSet.length_le _ hfound) hb)
  · rw [Queue.head, OrderedSet.get?_eq, List.getElem?_eq_none_iff] at h
    exact spread_of_length_le h
  · obtain ⟨s', hs', hq⟩ := bind_eq_ok.1 hq
    obtain ⟨l, hl, hs'⟩ := bind_eq_ok.1 hs'
    cases hq
    cases hs'
    have ha : q.2.get? q.1 = some a := ha
    conv_lhs => unfold spread
    simp only [ha, hl, bind, Except.bind]

section Stack

/-- Takes a node from the top of a stack. What it leads to is pushed if it has not been marked. -/
def Stack.turn (next : α → Except ε (List α)) (w : List α × OrderedSet α) (a : α) :
    Except ε (List α × OrderedSet α) := do
  let marked := w.2.insertAll (← next a)
  return ((marked.toList.drop w.2.size).reverse ++ w.1.tail, marked)

def Stack.top (w : List α × OrderedSet α) : Option α := w.1.head?

/-- A search in depth goes on until its stack is empty. -/
def Descends (next : α → Except ε (List α)) (starts taken : List α) : Prop :=
  ∃ marked, Loop Stack.top (Stack.turn next) (starts.reverse, .ofList starts) taken ([], marked)

theorem Stack.turn_ok {a : α} {l : List α} (hl : next a = .ok l) (stack : List α)
    (marked : OrderedSet α) :
    ∃ fresh, turn next (a :: stack, marked) a = .ok (fresh.reverse ++ stack, marked.insertAll l) ∧
      (marked.insertAll l).toList = marked.toList ++ fresh := by
  obtain ⟨fresh, hfresh⟩ := marked.prefix_insertAll l
  have hdrop : (marked.insertAll l).toList.drop marked.size = fresh := by
    rw [← hfresh, ← marked.length_toList, List.drop_left]
  exact ⟨fresh, bind_eq_ok.2 ⟨l, hl, by simp only [hdrop]; rfl⟩, hfresh.symm⟩

theorem exists_descends {univ starts : List α}
    (hnext : ∀ a ∈ univ, ∃ l, next a = .ok l ∧ ∀ b ∈ l, b ∈ univ) (hstarts : ∀ a ∈ starts, a ∈ univ) :
    ∃ taken, Descends next starts taken ∧ taken.length ≤ univ.length + starts.length := by
  obtain ⟨taken, ⟨stack, marked⟩, h, -, hlength⟩ := Loop.exists_of_measure Stack.top
    (Stack.turn next) (s := (starts.reverse, .ofList starts))
    (fun w => (∀ a ∈ w.1, a ∈ univ) ∧ ∀ a ∈ w.2.toList, a ∈ univ)
    (fun w => univ.length + w.1.length - w.2.size) (fun {w a} hw ha => by
      obtain ⟨stack, marked⟩ := w
      obtain ⟨hstack, hmarked⟩ := hw
      obtain ⟨rest, rfl⟩ := List.head?_eq_some_iff.1 ha
      obtain ⟨l, hl, hin⟩ := hnext a (hstack a (List.mem_cons_self ..))
      obtain ⟨fresh, hturn, hfresh⟩ := Stack.turn_ok hl rest marked
      have hall : ∀ b ∈ (marked.insertAll l).toList, b ∈ univ := fun b hb =>
        ((OrderedSet.mem_toList_insertAll _ _ _).1 hb).elim (hmarked b) (hin b)
      refine ⟨_, hturn, ⟨fun b hb => ?_, hall⟩, ?_⟩
      · obtain hb | hb := List.mem_append.1 hb
        · exact hall b (hfresh ▸ List.mem_append_right _ (List.mem_reverse.1 hb))
        · exact hstack b (List.mem_cons_of_mem _ hb)
      · have hle := OrderedSet.length_le _ hmarked
        have hsize := congrArg List.length hfresh
        simp only [OrderedSet.length_toList, List.length_append, List.length_reverse,
          List.length_cons] at hle hsize ⊢
        omega)
    ⟨fun a ha => hstarts a (List.mem_reverse.1 ha),
      fun a ha => hstarts a ((OrderedSet.mem_toList_ofList _ _).1 ha)⟩
  obtain rfl : stack = [] := List.head?_eq_none_iff.1 h.end_eq
  rw [List.length_reverse] at hlength
  exact ⟨taken, ⟨marked, h⟩, by omega⟩

/-- A bounded search is the loop if its bound allows for all turns and its goal is never met. It may
take the steps from a function that knows of no failure. -/
theorem descend_eq {ε' : Type} (next' : α → Except ε' (List α)) (goal : α → Bool)
    (hagree : ∀ {a l}, next a = .ok l → goal a = false ∧ next' a = .ok l)
    {w w' : List α × OrderedSet α} {l : List α} (h : Loop Stack.top (Stack.turn next) w l w')
    {bound : Nat} (hb : l.length ≤ bound) (taken : List α) :
    descend next' goal bound w.1 w.2 taken = .ok (taken.reverse ++ l) := by
  induction h generalizing bound taken with
  | @done w h =>
    rw [show w.1 = [] from List.head?_eq_none_iff.1 h, List.append_nil]
    cases bound <;> rfl
  | @next w w' t a l ha hs _ ih =>
    obtain ⟨stack, marked⟩ := w
    obtain ⟨rest, rfl⟩ := List.head?_eq_some_iff.1 ha
    obtain ⟨row, hrow, hs⟩ := bind_eq_ok.1 hs
    obtain rfl := pure_eq_ok.1 hs
    obtain ⟨hgoal, hrow'⟩ := hagree hrow
    cases bound with
    | zero => simp at hb
    | succ bound =>
      have hrest := ih (Nat.le_of_succ_le_succ hb) (a :: taken)
      rw [List.reverse_cons, List.append_assoc, List.singleton_append] at hrest
      unfold descend
      rw [if_neg (by simp [hgoal])]
      exact bind_eq_ok.2 ⟨row, hrow', hrest⟩

/-- All that the starts lead to is taken, and nothing twice unless it is a start twice. -/
theorem descends_ok {univ starts taken : List α} (hu : Universe next univ)
    (hstarts : ∀ a ∈ starts, a ∈ univ) (hnodup : starts.Nodup) (h : Descends next starts taken) :
    taken.Nodup ∧ (∀ a ∈ taken, a ∈ univ) ∧
      ∀ b, b ∈ taken ↔ ∃ a ∈ starts, Relation.ReflTransGen (Step next) a b := by
  obtain ⟨marked, h⟩ := h
  have hmarks : ∀ a, a ∈ (OrderedSet.ofList starts).toList ↔ a ∈ starts := fun a =>
    OrderedSet.mem_toList_ofList _ _
  have hstart : Descent next univ starts.reverse (.ofList starts) [] := by
    refine ⟨fun a ha => ?_, ?_, fun a => ?_, fun a ha => absurd ha List.not_mem_nil⟩
    · rw [List.append_nil, List.mem_reverse] at ha
      exact hstarts a ha
    · rw [List.append_nil]
      exact (List.reverse_perm starts).nodup_iff.2 hnodup
    · rw [hmarks, List.append_nil, List.mem_reverse]
  have hsame := descend_eq next (fun _ => false) (fun hl => ⟨rfl, hl⟩) h
    (Nat.le_max_left _ univ.length) []
  obtain ⟨htaken, hreach, hall⟩ := descend_ok hu hstart (Nat.le_max_right taken.length _)
    (fun a ha => (hmarks a).2 ha) (fun b hb => ⟨b, (hmarks b).1 hb, .refl⟩) hsame
  exact ⟨htaken, fun a ha => (hreach a ha).1, fun b => ⟨fun hb => (hreach b hb).2,
    hall.resolve_left (fun ⟨_, _, hgoal⟩ => Bool.noConfusion hgoal) b⟩⟩

/-- In depth the same nodes are taken as breadth first. -/
theorem perm_of_descends {univ starts taken : List α} (hu : Universe next univ)
    (hstarts : ∀ a ∈ starts, a ∈ univ) (hnodup : starts.Nodup) (h : Descends next starts taken)
    {bound : Nat} (hb : univ.length ≤ bound) {found : OrderedSet α}
    (hfound : breadthFirst next bound starts = .ok found) : taken.Perm found.toList := by
  obtain ⟨htaken, -, hmem⟩ := descends_ok hu hstarts hnodup h
  exact (List.perm_ext_iff_of_nodup htaken found.nodup_toList).2 fun b =>
    (hmem b).trans (mem_breadthFirst_iff hu hstarts hb hfound).symm

end Stack

end Search

end RuleNetwork
