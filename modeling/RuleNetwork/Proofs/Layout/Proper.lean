import RuleNetwork.Proofs.Attempt
import RuleNetwork.Grammar.Layout
import RuleNetwork.Proofs.Run.Basic

/-!
Proper networks, in which every rule owns its states: the transitions of a state stay in its rule or
call another one, a rule is entered by calls only, and nothing leaves the state where it stops. The
steps of a layout keep a network proper.
-/

set_option autoImplicit false

namespace RuleNetwork

namespace Network

/-- The state belongs to the rule and is not the one where the rule starts. -/
def Inside (n : Network) (rule s : Int) : Prop :=
  ∃ st, n.state s = .ok st ∧ st.rule = rule ∧ st.kind ≠ .ruleStart

end Network

/-- A transition of a rule leads on in the rule, or calls a rule and resumes in its own. -/
def Transition.Fits (t : Transition) (n : Network) (rules : Nat) (rule : Int) : Prop :=
  (t.kind ≠ .ruleCall ∧ n.Inside rule t.target) ∨
  ∃ callee follow, callee < rules ∧ t.call? = some (Int.ofNat callee, follow) ∧
    t.target = startState callee ∧ n.Inside rule follow

structure State.Proper (st : State) (n : Network) (rules : Nat) (s : Int) : Prop where
  id : st.id = s
  rule : ∃ i < rules, st.rule = Int.ofNat i
  start : st.kind = .ruleStart → s = 2 * st.rule
  stop : st.kind = .ruleStop → s = 2 * st.rule + 1 ∧ st.transitions = []
  /-- Only a decision has a choice. -/
  single : st.kind ≠ .decision → st.transitions.length ≤ 1
  nodup : st.transitions.Nodup
  fits : ∀ id ∈ st.transitions, ∃ t, n.transition id = .ok t ∧ t.Fits n rules st.rule

namespace Network

structure Proper (n : Network) (rules : Nat) : Prop where
  start : ∀ i < rules, ∃ st, n.state (startState i) = .ok st ∧ st.rule = Int.ofNat i ∧
    st.kind = .ruleStart
  stop : ∀ i < rules, ∃ st, n.state (stopState i) = .ok st ∧ st.rule = Int.ofNat i ∧
    st.kind = .ruleStop
  state : ∀ {s st}, n.state s = .ok st → st.Proper n rules s
  /-- Every transition is a way out of some state. -/
  listed : ∀ {id t}, n.transition id = .ok t → ∃ s st, n.state s = .ok st ∧ id ∈ st.transitions

/-- A larger network that keeps what each state is and every transition. -/
structure Extends (n n' : Network) : Prop where
  state : ∀ {s st}, n.state s = .ok st →
    ∃ st', n'.state s = .ok st' ∧ st'.rule = st.rule ∧ st'.kind = st.kind
  transition : ∀ {id t}, n.transition id = .ok t → n'.transition id = .ok t

variable {n n' : Network} {rules : Nat}

theorem Proper.ends_stop (h : n.Proper rules) {i : Nat} (hi : i < rules) : n.Ends (stopState i) := by
  obtain ⟨st, hs, -, hk⟩ := h.stop i hi
  exact ⟨st, hs, hk⟩

theorem Extends.refl (n : Network) : n.Extends n := ⟨fun h => ⟨_, h, rfl, rfl⟩, fun h => h⟩

theorem Extends.trans {n'' : Network} (h : n.Extends n') (h' : n'.Extends n'') : n.Extends n'' where
  state hs := by
    obtain ⟨a, ha, hr, hk⟩ := h.state hs
    obtain ⟨b, hb, hr', hk'⟩ := h'.state ha
    exact ⟨b, hb, hr'.trans hr, hk'.trans hk⟩
  transition ht := h'.transition (h.transition ht)

theorem Extends.exists_state {s r : Int} {k : StateKind} (he : n.Extends n')
    (h : ∃ st, n.state s = .ok st ∧ st.rule = r ∧ st.kind = k) :
    ∃ st, n'.state s = .ok st ∧ st.rule = r ∧ st.kind = k := by
  obtain ⟨st, hs, hr, hk⟩ := h
  obtain ⟨st', hs', hr', hk'⟩ := he.state hs
  exact ⟨st', hs', hr'.trans hr, hk'.trans hk⟩

theorem Inside.mono {r s : Int} (he : n.Extends n') (h : n.Inside r s) : n'.Inside r s := by
  obtain ⟨st, hs, hr, hk⟩ := h
  obtain ⟨st', hs', hr', hk'⟩ := he.state hs
  exact ⟨st', hs', hr'.trans hr, hk' ▸ hk⟩

theorem fits_mono {t : Transition} {r : Int} (he : n.Extends n')
    (h : t.Fits n rules r) : t.Fits n' rules r := by
  obtain ⟨hk, hi⟩ | ⟨callee, follow, hc, hcall, ht, hi⟩ := h
  · exact .inl ⟨hk, hi.mono he⟩
  · exact .inr ⟨callee, follow, hc, hcall, ht, hi.mono he⟩

end Network

/-- A grammar whose rules are numbered by their places and bounded as a layout bounds them. -/
structure Grammar.Proper (g : Grammar) : Prop where
  network : g.network.Proper g.rules.size
  rule : ∀ {i : Nat} {r : Rule}, g.rules[i]? = some r →
    r.index = i ∧ r.start = startState i ∧ r.stop = stopState i

theorem Grammar.ruleAt_ok {g : Grammar} {i : Nat} (hi : i < g.rules.size) :
    g.ruleAt (Int.ofNat i) = .ok g.rules[i] := by
  have hget : Position.forward? g.rules (Int.ofNat i) = some g.rules[i] := by
    unfold Position.forward?
    rw [if_pos (show 0 ≤ Int.ofNat i from Int.natCast_nonneg i)]
    exact Array.getElem?_eq_getElem hi
  unfold ruleAt
  rw [hget]

namespace Grammar.Proper

variable {g : Grammar} (hg : g.Proper)
include hg

theorem exists_rule {r : Rule} (hr : r ∈ g.ruleList) :
    ∃ i < g.rules.size, g.rules[i]? = some r ∧ r.index = i ∧ r.start = startState i ∧
      r.stop = stopState i := by
  obtain ⟨i, hi, hget⟩ := List.getElem_of_mem hr
  have hsize : i < g.rules.size := by simpa [ruleList] using hi
  have hget' : g.rules[i]? = some r := by
    rw [Array.getElem?_eq_getElem hsize, ← hget]
    simp [ruleList]
  exact ⟨i, hsize, hget', hg.rule hget'⟩

theorem exists_mem_ruleList {i : Nat} (hi : i < g.rules.size) :
    ∃ r ∈ g.ruleList, r.index = i ∧ r.start = startState i ∧ r.stop = stopState i := by
  obtain ⟨hindex, hstart, hstop⟩ := hg.rule (Array.getElem?_eq_getElem hi)
  exact ⟨_, Array.mem_toList_iff.2 (Array.getElem_mem hi), hindex, hstart, hstop⟩

/-- A rule that a grammar has by its name, the first one of that name. -/
theorem rule_of_hasRule {name : String} (hn : g.hasRule name = true) :
    ∃ (i : Nat) (r : Rule), g.rules[i]? = some r ∧ r.name = name ∧ g.ruleIndex name = .ok (Int.ofNat i) ∧
      g.rule name = .ok r := by
  obtain ⟨r, hfind⟩ : ∃ r, g.rules.find? (fun r => r.name == name) = some r := by
    rw [← Option.isSome_iff_exists, Array.find?_isSome]
    exact Array.any_eq_true'.1 hn
  obtain ⟨hname, i, hi, rfl, -⟩ := Array.find?_eq_some_iff_getElem.1 hfind
  have hget := Array.getElem?_eq_getElem hi
  obtain ⟨hindex, -⟩ := hg.rule hget
  have hok : g.ruleIndex name = .ok (Int.ofNat i) := by
    unfold ruleIndex
    rw [hfind]
    exact congrArg Except.ok hindex
  refine ⟨i, _, hget, by simpa using hname, hok, ?_⟩
  unfold Grammar.rule
  rw [hok]
  simp only [bind, Except.bind, Position.get?, Int.ofNat_eq_natCast, Position.resolve_of_lt hi,
    Option.bind_some, hget]

/-- The entry rules asked for are found if the grammar has them. -/
theorem entries_ok (hentry : ∀ name ∈ g.entryRules, g.hasRule name = true) {asked : List String}
    (hasked : ∀ name ∈ asked, g.hasRule name = true) :
    ∃ entries, (g.entriesOr asked).mapM g.ruleIndex = .ok entries := by
  refine exists_mapM fun name hn => ?_
  suffices g.hasRule name = true by
    obtain ⟨i, -, -, -, hi, -⟩ := hg.rule_of_hasRule this
    exact ⟨_, hi⟩
  unfold entriesOr defaultEntryRules at hn
  split at hn
  · split at hn
    · obtain ⟨r, hr, rfl⟩ := List.mem_map.1 hn
      have hmem := List.mem_of_mem_filter (List.mem_of_mem_take hr)
      simp only [hasRule, Array.any_eq_true']
      exact ⟨r, Array.mem_toList_iff.1 hmem, by simp⟩
    · exact hentry name hn
  · exact hasked name hn

end Grammar.Proper

end RuleNetwork
