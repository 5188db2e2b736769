import RuleNetwork.Proofs.Ambiguity.Profiles
import RuleNetwork.Proofs.Parsing.Stages
import RuleNetwork.Proofs.Validation.Walks

/-!
Runs as an engine makes them. A parse tells of ties only at decisions that it also counts, and a sound
grammar has a name for every decision, so the runs of an engine can always be added up.
-/

set_option autoImplicit false

namespace RuleNetwork

namespace Traces

variable {x : Traces}

theorem decision_of_tie? {d : DecisionVisit} {t : Tie} (h : x.tie? d = .ok (some t)) :
    t.decision = d.decision := by
  unfold tie? at h
  split at h
  · cases h
  · obtain ⟨tied, -, h⟩ := bind_eq_ok.1 h
    have h := pure_eq_ok.1 h
    split at h
    · cases h
    · cases h
      rfl

theorem decision_of_event {ties : List Tie} {id start : Nat} {e : AmbiguityEvent}
    (h : x.event ties id start = .ok e) : e.decision = id := by
  unfold event at h
  obtain ⟨r, -, h⟩ := bind_eq_ok.1 h
  obtain rfl := pure_eq_ok.1 h
  rfl

/-- An event is one of a decision with a tie. -/
theorem exists_tie_of_event {ties : List Tie} {l : List AmbiguityEvent} (h : x.events ties = .ok l)
    {e : AmbiguityEvent} (he : e ∈ l) : ∃ t ∈ ties, e.decision = t.decision.id := by
  unfold events at h
  obtain ⟨k, hk, he⟩ := (mem_of_mapM h).1 he
  rw [List.mem_mergeSort, OrderedSet.mem_toList_ofList] at hk
  obtain ⟨t, ht, rfl⟩ := List.mem_map.1 hk
  exact ⟨t, ht, decision_of_event he⟩

theorem decision_addLook (l : List Look) (s : DecisionStats) :
    (l.foldl addLook s).decision = s.decision := by
  induction l generalizing s with
  | nil => rfl
  | cons k l ih => exact ih (addLook s k)

theorem decision_mem_stats {looks : List Look} {l : Look} (h : l ∈ looks) :
    (l.decision : Int) ∈ (stats looks).map DecisionStats.decision := by
  unfold stats
  rw [List.map_map]
  refine List.mem_map.2 ⟨l.decision, ?_, decision_addLook _ _⟩
  rw [List.mem_mergeSort, OrderedSet.mem_toList_ofList]
  exact List.mem_map_of_mem h

theorem decision_look (x : Traces) (sets : List LookaheadSet) (d : DecisionVisit) :
    (x.look sets d).decision = d.decision.id := by
  unfold look
  split <;> rfl

/-- A parse counts every decision at which it tells of a tie. -/
theorem decision_mem_of_event {e : Execution} (h : x.execution = .ok e) {event : AmbiguityEvent}
    (hevent : event ∈ e.events) : event.decision ∈ e.decisions.map DecisionStats.decision := by
  unfold execution at h
  obtain ⟨rules, -, h⟩ := bind_eq_ok.1 h
  obtain ⟨found, -, h⟩ := bind_eq_ok.1 h
  obtain ⟨sets, -, h⟩ := bind_eq_ok.1 h
  obtain ⟨ties, hties, h⟩ := bind_eq_ok.1 h
  obtain ⟨events, hevents, h⟩ := bind_eq_ok.1 h
  obtain rfl := pure_eq_ok.1 h
  -- ties and looks are both of the visits that were found
  obtain ⟨t, ht, hid⟩ := exists_tie_of_event hevents hevent
  obtain ⟨o, ho, rfl⟩ := List.mem_filterMap.1 ht
  obtain ⟨d, hd, ho⟩ := (mem_of_mapM hties).1 ho
  rw [hid, decision_of_tie? ho, ← decision_look x (sets.getD d.decision.id []) d]
  exact decision_mem_stats (List.mem_map_of_mem (f := fun d => x.look (sets.getD d.decision.id []) d) hd)

end Traces

/-- A run as an engine makes it: an error, or the tokens of a text and what was observed of their parse
with what is prepared of the grammar, whatever compiles the patterns of its tokens and whatever the parse
was granted. -/
inductive SampleRun.Made (g : Grammar) : SampleRun → Prop
  | failed (index : Nat) (e : ErrorEntry) : Made g ⟨index, .error e⟩
  | parsed {patterns : PatternEngine} {p : Prepared} {text : String} {index : Nat} {tokens : TokenStream}
      {rule : Int} {granted left : Option Nat} {x : Execution}
      (prepared : Prepared.ofGrammar patterns g = .ok p)
      (tokenized : p.lexer.tokenize text (some (index : Int)) = .ok tokens)
      (parsed : (p.tables.parse rule tokens).run granted = .ok (x, left)) :
      Made g ⟨index, .ok ⟨tokens, x⟩⟩

theorem SampleRun.Made.covered {g : Grammar} {run : SampleRun} (h : run.Made g)
    (name : Int → String → String) : run.Covered name := by
  intro b hb
  cases h with
  | failed => cases hb
  | @parsed patterns p text index tokens rule granted left x _ _ hx =>
    unfold found stats told at *
    cases hs : parsed? ⟨index, .ok ⟨tokens, x⟩⟩ with
    | none =>
      rw [hs] at hb
      cases hb
    | some s =>
      rw [hs] at hb
      obtain ⟨e, he, rfl⟩ := List.mem_map.1 hb
      -- the sample that was parsed is that of the run
      rw [parsed?_of_ok rfl, Option.ite_none_left_eq_some] at hs
      obtain rfl := Option.some.inj hs.2
      obtain ⟨c, u, m, n, t, hparsed⟩ := ParseTables.parsed_of_run hx
      exact Traces.decision_mem_of_event hparsed.execution he

/-- What an attempt makes of a sample is a run of an engine, also where the parse does not end. -/
theorem Attempt.made_of_run {g : Grammar} {patterns : PatternEngine} {rule : Int} {index : Nat}
    {text : String} {budget : Seconds} {attempt : Attempt}
    (hattempt : attempt = .stalled ∨
      attempt = ofPrepared (Prepared.ofGrammar patterns g) rule index text)
    {run : SampleRun} (h : attempt.run index budget = .ok run) : run.Made g ∧ run.index = index := by
  unfold Attempt.run at h
  split at h
  · rename_i s hs
    cases h
    obtain ⟨b, -, hs⟩ := bind_eq_ok.1 hs
    obtain rfl | rfl := hattempt
    · cases hs
    · obtain ⟨p, hp, hs⟩ := bind_eq_ok.1 hs
      obtain ⟨tokens, htokens, hs⟩ := bind_eq_ok.1 hs
      obtain ⟨⟨x, left⟩, hx, hs⟩ := bind_eq_ok.1 hs
      obtain rfl := pure_eq_ok.1 hs
      exact ⟨.parsed hp htokens hx, rfl⟩
  · split at h
    · cases h
    · cases h
      exact ⟨.failed _ _, rfl⟩

namespace Grammar.Sound

variable {g : Grammar} (hg : g.Sound)
include hg

theorem reachable_ok : ∃ reachable, g.reachable (g.ruleList.map Rule.index) = .ok reachable := by
  obtain ⟨l, hl⟩ := exists_mapM (l := g.ruleList.map Rule.index)
    (f := fun i => do return (i, ← g.walk i)) fun i hi => by
      obtain ⟨states, hstates, -⟩ := hg.walk_yields (List.mem_map.1 hi)
      exact ⟨_, bind_eq_ok.2 ⟨states, hstates, rfl⟩⟩
  exact ⟨_, bind_eq_ok.2 ⟨l, hl, rfl⟩⟩

/-- Every decision of a sound grammar can be told to be of some rule. -/
theorem exists_names : ∃ a name, Attribution.ofGrammar g = .ok a ∧ a.Names name := by
  obtain ⟨reachable, hreachable⟩ := hg.reachable_ok
  have hname : ∀ d told, ∃ n, Attribution.ruleName ⟨g, reachable⟩ d told = .ok n := fun d told => by
    unfold Attribution.ruleName
    cases howner : Attribution.owner? ⟨g, reachable⟩ d with
    | none => exact ⟨_, rfl⟩
    | some i =>
      obtain ⟨k, hk⟩ : ∃ k : Nat, i = k ∧ k < g.rules.size := by
        unfold Attribution.owner? at howner
        split at howner
        · obtain ⟨r, hr, rfl⟩ := Option.map_eq_some_iff.1 howner
          obtain ⟨k, hk⟩ := Array.mem_iff_getElem?.1
            (Array.mem_toList_iff.1 (List.mem_of_find?_eq_some hr))
          exact ⟨k, hg.index hk, (Array.getElem?_eq_some_iff.1 hk).1⟩
        · cases howner
      obtain ⟨rfl, hk⟩ := hk
      have hnames : k < g.ruleNames.size := by rwa [ruleNames, Array.size_map]
      refine ⟨g.ruleNames[k], ?_⟩
      simp only [Position.get?, Position.resolve_of_lt hnames, Option.bind_some,
        Array.getElem?_eq_getElem hnames]
  choose name hname using hname
  exact ⟨⟨g, reachable⟩, name, bind_eq_ok.2 ⟨reachable, hreachable, rfl⟩, hname⟩

end Grammar.Sound

end RuleNetwork
