import RuleNetwork.Parsing.Ties
import RuleNetwork.Proofs.Parsing.Stages
import RuleNetwork.Proofs.Validation.Visits

/-!
Ties in the chart of a sound grammar. The notes made from the useful visits speak of these visits and of
rules that are there, so nothing that is read off them fails.
-/

set_option autoImplicit false

namespace RuleNetwork

open Network

namespace Ties

/-- The notes of a sound chart: its useful visits, the callers among them, and ends of rules that are
there. -/
structure Sound (t : Ties) : Prop where
  chart : t.chart.Sound
  useful : ∀ v ∈ t.useful.toList, t.chart.contains v = true
  ends : ∀ {i k}, k ∈ t.endsOf i → t.chart.index.grammar.Numbers i.rule
  callers : ∀ {i e}, e ∈ t.callersOf i → e.1 ∈ t.useful.toList

theorem endsOf_insert (t : Ties) (i j : Invocation) (l : List Nat) :
    ({ t with ends := t.ends.insert i l } : Ties).endsOf j = if i = j then l else t.endsOf j := by
  unfold endsOf
  rw [Std.HashMap.getD_insert]
  simp only [beq_iff_eq]

theorem callersOf_insert (t : Ties) (i j : Invocation) (l : List (Visit × Int)) :
    ({ t with callers := t.callers.insert i l } : Ties).callersOf j =
      if i = j then l else t.callersOf j := by
  unfold callersOf
  rw [Std.HashMap.getD_insert]
  simp only [beq_iff_eq]

theorem Sound.noteOpen {t : Ties} (h : t.Sound) (i : Invocation) (v : Visit) : (t.noteOpen i v).Sound := by
  unfold Ties.noteOpen
  split
  · exact ⟨h.chart, h.useful, h.ends, h.callers⟩
  · exact h

theorem Sound.noteEnd {t : Ties} (h : t.Sound) {i : Invocation}
    (hi : t.chart.index.grammar.Numbers i.rule) (v : Visit) : (t.noteEnd i v).Sound := by
  refine ⟨h.chart, h.useful, fun {j k} hk => ?_, h.callers⟩
  unfold Ties.noteEnd at hk
  rw [endsOf_insert] at hk
  split at hk
  · rename_i heq
    rw [← heq]
    exact hi
  · exact h.ends hk

theorem Sound.noteCall {t : Ties} (h : t.Sound) {v : Visit} (hv : v ∈ t.useful.toList)
    (e : Transition) : (Ties.noteCall v t e).Sound := by
  unfold Ties.noteCall
  split
  · refine ⟨h.chart, h.useful, h.ends, fun {j e} he => ?_⟩
    rw [callersOf_insert] at he
    split at he
    · obtain he | he := List.mem_append.1 he
      · exact h.callers he
      · rw [List.mem_singleton.1 he]
        exact hv
    · exact h.callers he
  · exact h

theorem Sound.noteCalls {t : Ties} (h : t.Sound) {v : Visit} (hv : v ∈ t.useful.toList)
    (edges : List Transition) : (edges.foldl (Ties.noteCall v) t).Sound := by
  induction edges generalizing t with
  | nil => exact h
  | cons e edges ih =>
    have huseful : (Ties.noteCall v t e).useful = t.useful := (alike_noteCalls t v [e]).useful
    exact ih (h.noteCall hv e) (by rw [huseful]; exact hv)

theorem note_yields {t : Ties} (h : t.Sound) {v : Visit} (hv : v ∈ t.useful.toList) :
    Yields (t.note v) Sound := by
  have hg := h.chart.index.grammar
  have hhas := h.chart.has (h.useful v hv)
  obtain ⟨st, hst⟩ := hhas
  have hopen := h.noteOpen ⟨st.rule, v.origin⟩ v
  have halike := alike_noteOpen t ⟨st.rule, v.origin⟩ v
  refine exists_bind hst (Yields.ite (fun _ => .ok (hopen.noteEnd ?_ v)) fun _ => ?_)
  · rw [halike.chart]
    exact hg.numbers_owner hst
  · refine (hg.outgoing_yields ⟨st, hst⟩).bind fun out _ => .ok (hopen.noteCalls ?_ out)
    rw [halike.useful]
    exact hv

/-- The notes of all useful visits are made. -/
theorem notes_yields {l : List Visit} {t : Ties} (h : t.Sound) (hl : ∀ v ∈ l, v ∈ t.useful.toList) :
    Yields (l.foldlM note t) Sound := by
  have hall := Yields.foldlM (f := note) (l := l) (R := fun t' => t'.Sound ∧ t'.useful = t.useful)
    ⟨h, rfl⟩ fun v hv t' ht' => by
      obtain ⟨hsound, huseful⟩ := ht'
      obtain ⟨t'', hnote, hsound'⟩ := note_yields hsound (v := v) (by rw [huseful]; exact hl v hv)
      exact .of_ok hnote ⟨hsound', (alike_note hnote).useful.trans huseful⟩
  exact hall.mono fun _ h => h.1

/-- The notes on a sound chart, from none at all. -/
theorem notes_of_chart {c : Chart} (hc : c.Sound) {u : OrderedSet Visit}
    (hu : ∀ v ∈ u.toList, c.contains v = true) (m : Groups) (n : Counts) (o : Option Nat) :
    Yields (u.toList.foldlM note ⟨c, u, m, n, o, ∅, ∅, ∅⟩) fun t =>
      t.Sound ∧ t.chart = c ∧ t.useful = u := by
  have hbegin : Sound ⟨c, u, m, n, o, ∅, ∅, ∅⟩ := by
    refine ⟨hc, hu, fun {j k} hk => ?_, fun {j e} he => ?_⟩
    · simp [endsOf] at hk
    · simp [callersOf] at he
  obtain ⟨t, ht, hsound⟩ := notes_yields hbegin (l := u.toList) fun v hv => hv
  have halike := alike_notes ht
  exact .of_ok ht ⟨hsound, halike.chart, halike.useful⟩

variable {t : Ties} (h : t.Sound)
include h

theorem isInternal_yields {v : Visit} (hv : v ∈ t.useful.toList) (callee : Invocation) :
    Yields (t.isInternal v callee) fun _ => True :=
  (Chart.invocation_yields h.chart (h.useful v hv)).bind fun _ _ => .ok trivial

/-- The rule of an end is there if the invocation comes to it. -/
def Named (t : Ties) (c : Context) : Prop :=
  ∀ e ∈ c, e.stop ≠ none → t.chart.index.grammar.Numbers e.rule

theorem named_accepted (member : Invocation) (caller : Visit) (follow : Int) :
    t.Named (t.accepted member caller follow) := by
  intro e he _
  obtain ⟨k, hk, rfl⟩ := List.mem_map.1 he
  exact h.ends (List.mem_of_mem_filter ((List.mem_eraseDups).1 hk))

theorem callerContexts_yields (member : Invocation) :
    Yields (t.callerContexts member) fun l => ∀ c ∈ l, t.Named c := by
  refine (Yields.mapM_all (R := t.Named) fun e he => ?_).bind fun found hfound => .ok fun c hc =>
    hfound c (List.mem_of_mem_filter hc)
  refine (isInternal_yields h (h.callers he) member).bind fun internal _ => .ok ?_
  split
  · exact fun e he => absurd he List.not_mem_nil
  · exact named_accepted h member e.1 e.2

theorem named_goalContexts (members : List Invocation) : ∀ c ∈ t.goalContexts members, t.Named c := by
  intro c hc e he _
  unfold goalContexts at hc
  split at hc
  · split at hc
    · rw [List.mem_singleton.1 hc] at he
      rw [List.mem_singleton.1 he]
      exact h.chart.startRule
    · cases hc
  · cases hc

omit h in
theorem named_openContexts (members : List Invocation) : ∀ c ∈ t.openContexts members, t.Named c := by
  intro c hc e he hstop
  unfold openContexts at hc
  simp only at hc
  split at hc
  · cases hc
  · rw [List.mem_singleton.1 hc, List.mem_eraseDups] at he
    obtain ⟨i, -, rfl⟩ := List.mem_map.1 he
    exact absurd rfl hstop

theorem contexts_yields (i : Invocation) : Yields (t.contexts i) fun l => ∀ c ∈ l, t.Named c := by
  refine (Yields.mapM_all fun m _ => callerContexts_yields h m).bind fun called hcalled =>
    .ok fun c hc => ?_
  obtain hc | hc := List.mem_append.1 hc
  · obtain hc | hc := List.mem_append.1 hc
    · obtain ⟨l, hl, hc⟩ := List.mem_flatten.1 hc
      exact hcalled l hl c hc
    · exact named_goalContexts h _ c hc
  · exact named_openContexts _ c hc

theorem waysTo_yields (origin : Nat) {e : RuleEnd}
    (he : e.stop ≠ none → t.chart.index.grammar.Numbers e.rule) :
    Yields (t.waysTo origin e) fun _ => True := by
  unfold waysTo
  cases hs : e.stop with
  | none => exact .ok trivial
  | some m =>
    exact (ChartIndex.stopOf_yields h.chart.index (he (by rw [hs]; simp))).bind fun _ _ => .ok trivial

theorem isAmbiguous_yields (origin : Nat) {c : Context} (hc : t.Named c) :
    Yields (t.isAmbiguous origin c) fun _ => True := by
  unfold isAmbiguous
  exact .ite (fun _ => .ok trivial) fun _ =>
    (Yields.mapM fun e he => waysTo_yields h origin (hc e he)).bind fun _ _ => .ok trivial

theorem resumed_yields (i : Invocation) (position : Nat) :
    Yields (t.resumed i position) fun l => ∀ v ∈ l, v ∈ t.useful.toList := by
  refine (Yields.mapM (R := fun _ _ => True) fun e he => ?_).bind fun found _ => .ok fun v hv =>
    (OrderedSet.contains_iff _ _).1 (List.mem_filter.1 hv).2
  exact (isInternal_yields h (h.callers he) i).bind fun _ _ => .ok trivial

omit h in
theorem useful_of_mem_after {edge : Transition} {origin position : Nat} {v : Visit}
    (hv : v ∈ t.after edge origin position) : v ∈ t.useful.toList :=
  (OrderedSet.contains_iff _ _).1 (List.mem_filter.1 hv).2

theorem onward_yields (origin : Nat) {v : Visit} (hv : v ∈ t.useful.toList) :
    Yields (t.onward origin v) fun l => ∀ u ∈ l, u ∈ t.useful.toList := by
  have hhas := h.chart.has (h.useful v hv)
  refine (h.chart.index.grammar.state_yields hhas).bind fun st _ =>
    .ite (fun _ => resumed_yields h _ _) fun _ =>
      (h.chart.index.grammar.outgoing_yields hhas).bind fun out _ => .ok fun u hu => ?_
  obtain ⟨e, -, hu⟩ := List.mem_flatMap.1 hu
  exact useful_of_mem_after hu

theorem endsAt_yields {v : Visit} (hv : v ∈ t.useful.toList) : Yields (t.endsAt v) fun _ => True :=
  (h.chart.index.grammar.state_yields (h.chart.has (h.useful v hv))).bind fun _ _ => .ok trivial

/-- The visits that are met in the search for the ends that some visits lead to, each once. Taken from
the top of a stack they are the same in another order. -/
structure Searches (t : Ties) (starts : List Visit) (origin : Nat) (met : OrderedSet Visit)
    (ends : List RuleEnd) : Prop where
  loop : Search.Spreads (t.onward origin) starts met.toList met
  within : ∀ v ∈ met.toList, v ∈ t.useful.toList
  result : t.reached starts origin = .ok ends
  descends : starts.Nodup →
    ∃ taken, Search.Descends (t.onward origin) starts taken ∧ taken.Perm met.toList

/-- The search is the loop that goes on until no visit is left. -/
theorem exists_searches {starts : List Visit} (hstarts : ∀ v ∈ starts, v ∈ t.useful.toList)
    (origin : Nat) : ∃ met ends, t.Searches starts origin met ends := by
  have hnext : ∀ v ∈ t.useful.toList, ∃ l, t.onward origin v = .ok l ∧ ∀ u ∈ l, u ∈ t.useful.toList :=
    fun v hv => onward_yields h origin hv
  have hbound : t.useful.toList.length ≤ t.useful.size + starts.length + 1 := by
    rw [OrderedSet.length_toList]
    omega
  obtain ⟨met, hloop, hmet, hin⟩ := Search.exists_spreads hnext hstarts hbound
  obtain ⟨ends, hends⟩ := (Yields.mapM fun v hv => endsAt_yields h (hin v hv)).result
  refine ⟨met, ends.flatten, hloop, hin, bind_eq_ok.2 ⟨met, hmet, bind_eq_ok.2 ⟨ends, hends, rfl⟩⟩,
    fun hnodup => ?_⟩
  obtain ⟨taken, htaken, -⟩ := Search.exists_descends hnext hstarts
  refine ⟨taken, htaken, Search.perm_of_descends (fun v hv w hw => ?_) hstarts hnodup htaken hbound hmet⟩
  obtain ⟨l, hl, hmem⟩ := hnext v hv
  exact hmem w ((Search.step_iff hl).1 hw)

theorem reached_yields {starts : List Visit} (hstarts : ∀ v ∈ starts, v ∈ t.useful.toList)
    (origin : Nat) : Yields (t.reached starts origin) fun _ => True := by
  obtain ⟨met, ends, hsearches⟩ := exists_searches h hstarts origin
  exact .of_ok hsearches.result trivial

theorem tied_yields {v : Visit} (hv : v ∈ t.useful.toList) (viable : List Nat) :
    Yields (t.tied v viable) fun _ => True := by
  have hcontains := h.useful v hv
  refine (h.chart.index.grammar.outgoing_yields (h.chart.has hcontains)).bind fun edges _ =>
    (Yields.mapM (R := fun _ _ => True) fun a _ => ?_).bind fun reaches _ =>
      (Chart.invocation_yields h.chart hcontains).bind fun i _ =>
        (contexts_yields h i).bind fun contexts hcontexts =>
          (Yields.filterM fun c hc => isAmbiguous_yields h v.origin (hcontexts c hc)).bind
            fun _ _ => .ok trivial
  refine (reached_yields h (fun u hu => ?_) v.origin).bind fun _ _ => .ok trivial
  cases he : edges[a - 1]? with
  | none =>
    rw [he] at hu
    cases hu
  | some e =>
    rw [he] at hu
    exact useful_of_mem_after hu

end Ties

end RuleNetwork
