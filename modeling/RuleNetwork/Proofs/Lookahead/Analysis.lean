import RuleNetwork.Proofs.Chart.Choices
import RuleNetwork.Proofs.Lookahead.Follow
import RuleNetwork.Proofs.Lookahead.Set

/-!
The analysis of a proper grammar. It never fails, and its sets are what runs make of them. The lookahead
of an alternative that meets no guard holds what may come next once the alternative is taken: a token
read in the rule, or one that comes after the rule if the rule may end first.
-/

set_option autoImplicit false

namespace RuleNetwork

open Network Relation

/-- The analysis knows what can match nothing, what is read first and what comes after a rule. -/
structure Lookahead.Exact (a : Lookahead) (g : Grammar) (entries : List Int) : Prop where
  grammar : a.grammar = g
  nullable : ∀ r, a.nullable.contains r = true ↔ g.network.Null g.rules.size r
  first : g.KnowsFirst a.first
  rows : ∀ i < g.rules.size, (OrderedMap.get? a.follow (Int.ofNat i)).isSome
  follow : ∀ r x, a.follow.Holds r x ↔ g.Follows entries r x

/-- A decision is found by its number. -/
theorem Lookahead.decision_ok {a : Lookahead} {d : Decision} (hd : d ∈ a.grammar.decisions) :
    a.decision d.id = .ok d := by
  unfold decision
  cases hfind : a.grammar.decisions.find? fun d' => Int.ofNat d'.id == Int.ofNat d.id with
  | none => exact absurd (List.find?_eq_none.1 hfind d hd) (by simp)
  | some d' =>
    have hsame := List.find?_some hfind
    have hid : d'.id = d.id := Int.ofNat.inj (beq_iff_eq.1 hsame)
    rw [eq_of_decision_id (List.mem_of_find?_eq_some hfind) hd hid]

/-- The sets of a decision are normal, whatever the grammar. -/
theorem Lookahead.normal_of_lookaheads {a : Lookahead} {d : Decision} {sets : List LookaheadSet}
    (h : a.lookaheads d = .ok sets) : ∀ s ∈ sets, s.Normal := by
  unfold lookaheads at h
  split at h
  · cases h
  · obtain ⟨out, -, h⟩ := bind_eq_ok.1 h
    intro s hs
    obtain ⟨t, -, ht⟩ := (mem_of_mapM h).1 hs
    obtain ⟨x, -, hx⟩ := bind_eq_ok.1 ht
    cases hx
    unfold alternativeSet
    split
    · exact LookaheadSet.normal_makeDynamic
    · exact LookaheadSet.normal_of

/-- The analysis of a proper grammar never fails, given that its entry rules are found. -/
theorem Grammar.Proper.lookahead_ok {g : Grammar} (hg : g.Proper) {asked : List String}
    {entries : List Int} (hentries : (g.entriesOr asked).mapM g.ruleIndex = .ok entries)
    (firstOnly : Bool) :
    ∃ a, Lookahead.ofGrammar g asked firstOnly = .ok a ∧ a.Exact g entries := by
  obtain ⟨nullable, hn, hnull⟩ := hg.nullable_ok
  obtain ⟨first, hf, hfirst⟩ := hg.firstTable_ok hnull
  obtain ⟨follow, hfollow, hrows, hholds⟩ := hg.followTable_ok hnull hfirst entries
  exact ⟨⟨g, firstOnly, nullable, first, follow⟩, bind_eq_ok.2 ⟨entries, hentries, bind_eq_ok.2
    ⟨nullable, hn, bind_eq_ok.2 ⟨first, hf, bind_eq_ok.2 ⟨follow, hfollow, rfl⟩⟩⟩⟩,
    rfl, hnull, hfirst, hrows, hholds⟩

/-- The transition can be passed without reading. -/
def Transition.Quiet (t : Transition) (n : Network) (rules : Nat) : Prop :=
  t.isFree = true ∨ ∃ callee follow, t.call? = some (callee, follow) ∧ n.Null rules callee

/-- Past the transition, or on it, a guard comes in the same invocation before anything is read. -/
def Transition.Guarded (t : Transition) (n : Network) (rules : Nat) : Prop :=
  t.kind = .predicate ∨ t.Quiet n rules ∧ n.ComesToGuard t.next

/-- The token may come next when the transition is taken in a rule. -/
inductive Grammar.Ahead (g : Grammar) (entries : List Int) (i : Nat) (t : Transition) (x : String) :
    Prop where
  | token (hk : t.kind = .terminal) (hx : x ∈ t.tokens)
  | callee {callee follow : Int} (hc : t.call? = some (callee, follow))
      (hx : g.network.Begins t.target x)
  | onward (hq : t.Quiet g.network g.rules.size) (hx : g.network.Begins t.next x)
  | after (hq : t.Quiet g.network g.rules.size) (hend : g.network.Skips t.next (stopState i))
      (hx : g.Follows entries i x)

namespace Scan

theorem reachesStop_merge {a b : Scan} :
    (a.merge b).reachesStop = true ↔ a.reachesStop = true ∨ b.reachesStop = true := by
  simp [merge]

theorem hitsPredicate_merge {a b : Scan} :
    (a.merge b).hitsPredicate = true ↔ a.hitsPredicate = true ∨ b.hitsPredicate = true := by
  simp [merge]

theorem mem_scanTokens_merge {first : TokenTable} {a b : Scan} {x : String} :
    x ∈ Grammar.scanTokens first (a.merge b) ↔
      x ∈ Grammar.scanTokens first a ∨ x ∈ Grammar.scanTokens first b := by
  unfold Grammar.scanTokens merge
  simp only [List.mem_append, List.mem_flatMap]
  constructor
  · rintro ((h | h) | ⟨c, h | h, hx⟩)
    · exact .inl (.inl h)
    · exact .inr (.inl h)
    · exact .inl (.inr ⟨c, h, hx⟩)
    · exact .inr (.inr ⟨c, h, hx⟩)
  · rintro ((h | ⟨c, h, hx⟩) | (h | ⟨c, h, hx⟩))
    · exact .inl (.inl h)
    · exact .inr ⟨c, .inl h, hx⟩
    · exact .inl (.inr h)
    · exact .inr ⟨c, .inr h, hx⟩

end Scan

namespace Lookahead.Exact

variable {a : Lookahead} {g : Grammar} {entries : List Int} (h : a.Exact g entries) (hg : g.Proper)
include h hg

/-- What the first step of an alternative meets. -/
theorem mem_scanTokens_first {s id : Int} {t : Transition} (ht : g.network.Leaves s id t)
    {x : String} :
    x ∈ Grammar.scanTokens a.first (Scan.step {} t) ↔
      (t.kind = .terminal ∧ x ∈ t.tokens) ∨
        (∃ callee follow, t.call? = some (callee, follow)) ∧ g.network.Begins t.target x := by
  unfold Grammar.scanTokens
  rw [List.mem_append, List.mem_flatMap]
  simp only [Scan.mem_tokens_step, Scan.mem_callees_step, List.not_mem_nil, false_or]
  refine or_congr_right ⟨?_, ?_⟩
  · rintro ⟨c, ⟨hk, hr⟩, hx⟩
    obtain ⟨i, hi, follow, rfl, hc, htarget⟩ := hg.network.calls_of_rule ht hk hr
    refine ⟨⟨_, follow, hc.2⟩, ?_⟩
    rw [htarget]
    exact (h.first.holds_iff hi).1 hx
  · rintro ⟨⟨callee, follow, hc⟩, hx⟩
    obtain ⟨owner, ho⟩ := ht.owned
    obtain ⟨i, hi, rfl, htarget, -⟩ := hg.network.of_calls ⟨ht, hc⟩ ho
    obtain ⟨hk, hr, -⟩ := Transition.of_call? hc
    rw [htarget] at hx
    exact ⟨_, ⟨hk, hr⟩, (h.first.holds_iff hi).2 hx⟩

theorem isSilent_iff {s id : Int} {t : Transition} (ht : g.network.Leaves s id t) :
    isSilent a.nullable.contains t = true ↔ t.Quiet g.network g.rules.size := by
  have hquiet : t.isFree = true → t.Quiet g.network g.rules.size := .inl
  unfold isSilent
  cases hk : t.kind with
  | epsilon => simpa using hquiet (by simp [Transition.isFree, hk])
  | predicate => simpa using hquiet (by simp [Transition.isFree, hk])
  | terminal =>
    simp only [Bool.false_eq_true, false_iff]
    rintro (hf | ⟨callee, follow, hc, -⟩)
    · simp [Transition.isFree, hk] at hf
    · rw [Transition.kind_of_call? hc] at hk
      cases hk
  | ruleCall =>
    simp only [Option.any_eq_true]
    constructor
    · rintro ⟨c, hr, hc⟩
      obtain ⟨i, -, follow, rfl, hcall, -⟩ := hg.network.calls_of_rule ht hk hr
      exact .inr ⟨_, follow, hcall.2, (h.nullable _).1 hc⟩
    · rintro (hf | ⟨callee, follow, hc, hnull⟩)
      · simp [Transition.isFree, hk] at hf
      · exact ⟨callee, (Transition.of_call? hc).2.1, (h.nullable _).2 hnull⟩

/-- The scan of an alternative: what its first step meets and, if that reads nothing, what comes after
the step. -/
theorem alternativeScan_ok {i : Nat} (hi : i < g.rules.size) {s id : Int} {t : Transition}
    (ht : g.network.Leaves s id t) (ho : g.network.Owns i s) {d : Decision} (hd : d.rule = i) :
    ∃ x, a.alternativeScan d t = .ok x ∧
      (x.hitsPredicate = true ↔ t.Guarded g.network g.rules.size) ∧
      (x.reachesStop = true ↔
        t.Quiet g.network g.rules.size ∧ g.network.Skips t.next (stopState i)) ∧
      ∀ y, y ∈ Grammar.scanTokens a.first x ↔
        ((t.kind = .terminal ∧ y ∈ t.tokens) ∨
          (∃ callee follow, t.call? = some (callee, follow)) ∧ g.network.Begins t.target y) ∨
        t.Quiet g.network g.rules.size ∧ g.network.Begins t.next y := by
  have hpredicate : (Scan.step {} t).hitsPredicate = true ↔ t.kind = .predicate := by
    simp [Scan.hitsPredicate_step]
  have hstop : (Scan.step {} t).reachesStop = false := Scan.reachesStop_step
  unfold alternativeScan
  by_cases hq : t.Quiet g.network g.rules.size
  · have hsilent := (h.isSilent_iff hg ht).2 hq
    have hnext := hg.network.inside_next ht ho
    have hin := hnext
    obtain ⟨st, hst, hrule, -⟩ := hin
    have hlanding : landing t = some t.next := by
      unfold landing
      obtain ⟨hk, -⟩ | ⟨callee, follow', -, hc, -⟩ := hg.network.fits ht ho
      · rw [Transition.next_of_ne hk, if_neg (by simpa using hk)]
      · obtain ⟨hk, -, hf⟩ := Transition.of_call? hc
        rw [Transition.next_of_call? hc, if_pos (by simpa using hk), hf]
    obtain ⟨x, hx, hmeets⟩ := hg.scan_ok h.nullable hi hnext.owns
    refine ⟨(Scan.step {} t).merge x, ?_, ?_, ?_, fun y => ?_⟩
    · simp only [hsilent, hlanding, h.grammar, Bool.not_true, Bool.false_eq_true, if_false]
      refine bind_eq_ok.2 ⟨st, hst, ?_⟩
      rw [if_pos (hrule.trans hd.symm)]
      exact bind_eq_ok.2 ⟨x, hx, rfl⟩
    · rw [Scan.hitsPredicate_merge, hpredicate, hmeets.hitsPredicate]
      simp [Transition.Guarded, hq]
    · rw [Scan.reachesStop_merge, hstop, hmeets.reachesStop]
      simp [hq]
    · rw [Scan.mem_scanTokens_merge, h.mem_scanTokens_first hg ht,
        hg.mem_scanTokens_iff h.first hmeets]
      simp [hq]
  · have hsilent : isSilent a.nullable.contains t = false :=
      Bool.eq_false_iff.2 fun hs => hq ((h.isSilent_iff hg ht).1 hs)
    refine ⟨Scan.step {} t, ?_, ?_, ?_, fun y => ?_⟩
    · simp only [hsilent, Bool.not_false, if_true]
      rfl
    · rw [hpredicate]
      simp [Transition.Guarded, hq]
    · rw [hstop]
      simp [hq]
    · rw [h.mem_scanTokens_first hg ht]
      simp [hq]

/-- The set of an alternative is found without fail. It is dynamic if a guard comes first, and else
holds what may come next when the alternative is taken. -/
theorem alternative_ok {i : Nat} (hi : i < g.rules.size) {s id : Int} {t : Transition}
    (ht : g.network.Leaves s id t) (ho : g.network.Owns i s) {d : Decision} (hd : d.rule = i)
    {follow : OrderedSet String} (hfollow : ∀ x, x ∈ follow.toList ↔ g.Follows entries i x) :
    ∃ x, a.alternativeScan d t = .ok x ∧
      ((a.alternativeSet follow x).dynamic = true ↔ t.Guarded g.network g.rules.size) ∧
      ((a.alternativeSet follow x).dynamic = true ∨
        ∀ y, (a.alternativeSet follow x).contains y = true ↔ g.Ahead entries i t y) := by
  obtain ⟨x, hx, hpredicate, hstop, htokens⟩ := h.alternativeScan_ok hg hi ht ho hd
  refine ⟨x, hx, ?_⟩
  rw [← hpredicate]
  unfold alternativeSet
  split
  · rename_i hhits
    exact ⟨iff_of_true rfl hhits, .inl rfl⟩
  · rename_i hhits
    refine ⟨iff_of_false (by simp [LookaheadSet.ofTokens, LookaheadSet.of]) hhits, .inr fun y => ?_⟩
    rw [LookaheadSet.contains_ofTokens, List.mem_append, htokens]
    constructor
    · rintro (((⟨hk, hy⟩ | ⟨⟨callee, follow, hc⟩, hy⟩) | ⟨hq, hy⟩) | hy)
      · exact .token hk hy
      · exact .callee hc hy
      · exact .onward hq hy
      · split at hy
        · rename_i hreaches
          obtain ⟨hq, hend⟩ := hstop.1 hreaches
          exact .after hq hend ((hfollow y).1 hy)
        · cases hy
    · intro hy
      cases hy with
      | token hk hy => exact .inl (.inl (.inl ⟨hk, hy⟩))
      | callee hc hy => exact .inl (.inl (.inr ⟨⟨_, _, hc⟩, hy⟩))
      | onward hq hy => exact .inl (.inr ⟨hq, hy⟩)
      | after hq hend hy =>
        right
        rw [if_pos (hstop.2 ⟨hq, hend⟩)]
        exact (hfollow y).2 hy

/-- The lookahead of a decision is found without fail, alternative by alternative. -/
theorem lookaheads_ok {d : Decision} (hd : d ∈ g.decisions) :
    ∃ sets, a.lookaheads d = .ok sets ∧ ∃ i < g.rules.size, g.network.Owns i d.state ∧
      (∀ k < sets.length, ∃ id, g.network.Offers d.state (k + 1) id) ∧
      ∀ (k : Nat) (id : Int) (t : Transition), g.network.Offers d.state (k + 1) id →
        g.network.Leaves d.state id t → ∃ set, sets[k]? = some set ∧
          (set.dynamic = true ↔ t.Guarded g.network g.rules.size) ∧
          (set.dynamic = true ∨ ∀ y, set.contains y = true ↔ g.Ahead entries i t y) := by
  obtain ⟨st, hst, -, hrule, -⟩ := hg.network.mem_decisions hd
  obtain ⟨i, hi, hsti⟩ := (hg.network.state hst).rule
  have hdi : d.rule = Int.ofNat i := hrule.trans hsti
  have ho : g.network.Owns i d.state := ⟨st, hst, hsti⟩
  obtain ⟨follow, hfollow⟩ := Option.isSome_iff_exists.1 (h.rows i hi)
  have hmem : ∀ x, x ∈ follow.toList ↔ g.Follows entries i x := fun x => by
    have := h.follow (Int.ofNat i) x
    unfold TokenTable.Holds TokenTable.tokens at this
    rwa [hfollow] at this
  obtain ⟨out, hout, -, hoffers⟩ := hg.network.outgoing_offers hst
  have hleaves : ∀ t ∈ out, ∃ id, g.network.Leaves d.state id t := fun t ht => by
    obtain ⟨k, hk⟩ := List.getElem?_of_mem ht
    obtain ⟨id, -, ht⟩ := (hoffers k t).1 hk
    exact ⟨id, ht⟩
  obtain ⟨sets, hsets⟩ := exists_mapM (l := out) (f := fun t => do
      return a.alternativeSet follow (← a.alternativeScan d t)) fun t ht => by
    obtain ⟨id, ht⟩ := hleaves t ht
    obtain ⟨x, hx, -⟩ := h.alternative_ok hg hi ht ho hdi hmem
    exact ⟨_, bind_eq_ok.2 ⟨x, hx, rfl⟩⟩
  have hall := mapM_eq_ok.1 hsets
  refine ⟨sets, ?_, i, hi, ho, fun k hk => ?_, fun k id t hof ht => ?_⟩
  · unfold lookaheads
    rw [hdi, hfollow, h.grammar]
    exact bind_eq_ok.2 ⟨out, hout, hsets⟩
  · rw [← hall.length_eq] at hk
    obtain ⟨id, hof, -⟩ := (hoffers k _).1 (List.getElem?_eq_getElem hk)
    exact ⟨id, hof⟩
  · obtain ⟨hlt, hget⟩ := List.getElem?_eq_some_iff.1 ((hoffers k t).2 ⟨id, hof, ht⟩)
    have hlt' : k < sets.length := hall.length_eq ▸ hlt
    have hset := hall.get hlt hlt'
    simp only [List.get_eq_getElem, hget] at hset
    obtain ⟨x, hx, hspec⟩ := h.alternative_ok hg hi ht ho hdi hmem
    obtain ⟨x', hx', hset⟩ := bind_eq_ok.1 hset
    rw [hx] at hx'
    cases hx'
    refine ⟨_, List.getElem?_eq_getElem hlt', ?_⟩
    rw [← pure_eq_ok.1 hset]
    exact hspec

end Lookahead.Exact

end RuleNetwork
