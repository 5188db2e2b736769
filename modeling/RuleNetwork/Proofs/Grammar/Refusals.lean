import RuleNetwork.Proofs.Grammar.Builds

/-!
What a refused call leaves behind. The declarations look before they change anything, but a lexer rule
is two of them; a build declares literals on its way and keeps those it came to.
-/

set_option autoImplicit false

namespace RuleNetwork

namespace Builder

open Building

/-- The literals that some texts add are new, of different names, and literals of these texts. -/
theorem exists_added (texts : List String) (literals : List TokenType) :
    ∃ added, texts.foldl enlist literals = literals ++ added ∧ (added.map TokenType.name).Nodup ∧
      ∀ t ∈ added, t.name ∉ literals.map TokenType.name ∧
        ∃ text ∈ texts, t = { name := quoteLiteral text, pattern := text, isLiteral := true } := by
  induction texts generalizing literals with
  | nil => exact ⟨[], (List.append_nil _).symm, List.nodup_nil, fun _ ht => absurd ht List.not_mem_nil⟩
  | cons text r ih =>
    rw [List.foldl_cons]
    by_cases hknown : literals.any fun t => t.name == quoteLiteral text
    · obtain ⟨added, heq, hnodup, hall⟩ := ih literals
      rw [show enlist literals text = literals from if_pos hknown]
      refine ⟨added, heq, hnodup, fun t ht => ⟨(hall t ht).1, ?_⟩⟩
      obtain ⟨text', hmem, ht⟩ := (hall t ht).2
      exact ⟨text', List.mem_cons_of_mem _ hmem, ht⟩
    · let new : TokenType := { name := quoteLiteral text, pattern := text, isLiteral := true }
      obtain ⟨added, heq, hnodup, hall⟩ := ih (literals ++ [new])
      rw [show enlist literals text = literals ++ [new] from if_neg hknown]
      have hfresh : new.name ∉ literals.map TokenType.name := fun hmem => by
        obtain ⟨t, ht, hname⟩ := List.mem_map.1 hmem
        exact hknown (List.any_eq_true.2 ⟨t, ht, by simpa using hname⟩)
      have hother : ∀ t ∈ added, t.name ∉ literals.map TokenType.name ∧ t.name ≠ new.name :=
        fun t ht => by simpa using (hall t ht).1
      refine ⟨new :: added, ?_, ?_, fun t ht => ?_⟩
      · rw [heq, List.append_assoc]
        rfl
      · rw [List.map_cons, List.nodup_cons]
        refine ⟨fun hmem => ?_, hnodup⟩
        obtain ⟨t, ht, hname⟩ := List.mem_map.1 hmem
        exact (hother t ht).2 hname
      · obtain rfl | ht := List.mem_cons.1 ht
        · exact ⟨hfresh, text, List.mem_cons_self .., rfl⟩
        · obtain ⟨text', hmem, ht'⟩ := (hall t ht).2
          exact ⟨(hother t ht).1, text', List.mem_cons_of_mem _ hmem, ht'⟩

variable {b b' : Builder}

/-- A literal that a build declares is named in the body of a parser rule. -/
theorem exists_rule_of_quotes {text : String} (h : text ∈ b.quotes) :
    ∃ d ∈ b.rules, d.kind = .parser ∧ ∃ names ∈ (bodyOf d).tokenSets, quoteLiteral text ∈ names := by
  obtain ⟨d, hd, htext⟩ := List.mem_flatMap.1 h
  refine ⟨d, hd, ?_⟩
  unfold quotesOf at htext
  unfold bodyOf
  cases hbody : d.body with
  | none =>
    rw [hbody] at htext
    exact absurd htext List.not_mem_nil
  | some body =>
    rw [hbody] at htext
    change text ∈ quotesIn d body.tokenSets at htext
    unfold quotesIn at htext
    split at htext
    · rename_i hk
      obtain ⟨name, hname, hquoted⟩ := List.mem_filterMap.1 htext
      obtain ⟨names, hnames, hname⟩ := List.mem_flatten.1 hname
      exact ⟨hk, names, hnames, quoteLiteral_of_unquoted? hquoted ▸ hname⟩
    · exact absurd htext List.not_mem_nil

theorem declare_refused {d : Declaration} {f : Fault} (h : declare d b = (.error f, b')) : b' = b := by
  rw [declare_eq] at h
  split at h <;> cases h
  rfl

theorem token_refused {name pattern : String} {skip : Bool} {f : Fault}
    (h : token name pattern skip b = (.error f, b')) :
    b' = b ∧ f = .grammar (.duplicateToken name) := by
  rw [token_eq] at h
  split at h <;> cases h
  exact ⟨rfl, rfl⟩

/-- A lexer rule is refused before it changes anything, or else for its token. -/
theorem lexerRule_refused {name pattern : String} {skip isFragment : Bool}
    {body : Option (Element String)} {f : Fault}
    (h : lexerRule name pattern skip isFragment body b = (.error f, b')) :
    b' = b ∨ f = .grammar (.duplicateToken name) := by
  rw [lexerRule_eq, bind_eq] at h
  generalize Declaration.mk name _ body (some pattern) none = d at h
  cases hd : declare d b with
  | mk r c =>
    rw [hd] at h
    cases r with
    | error e =>
      cases h
      exact .inl (declare_refused hd)
    | ok u =>
      cases isFragment with
      | true => cases h
      | false => exact .inr (token_refused h).2

/-- What a refused call leaves. A rule or a token that is refused changes nothing, and neither does a
lexer rule, unless it is refused for its token. A build that stops keeps the rules and the named tokens,
and adds to the literals such as a parser rule names, each once; no later call can tell that it was made,
whatever rules and tokens are declared in between. -/
theorem kept_of_refused (b b' : Builder) (f : Fault) :
    (∀ name (body : Except Fault (Element String)) line,
      (do rule name (← body) line : Building Unit).run.run b = (.error f, b') → b' = b) ∧
    (∀ name pattern skip, (token name pattern skip).run.run b = (.error f, b') → b' = b) ∧
    (∀ name pattern skip isFragment (body : Except Fault (Option (Element String))),
      (do lexerRule name pattern skip isFragment (← body) : Building Unit).run.run b = (.error f, b') →
        f ≠ .grammar (.duplicateToken name) → b' = b) ∧
    (build.run.run b = (.error f, b') →
      (∃ added, b' = { b with literals := b.literals ++ added } ∧ (added.map TokenType.name).Nodup ∧
        ∀ t ∈ added, t.name ∉ b.literals.map TokenType.name ∧
          ∃ d ∈ b.rules, d.kind = .parser ∧ ∃ names ∈ (bodyOf d).tokenSets, t.name ∈ names) ∧
      ∀ calls, (∀ text, .declare (.literal text) ∉ calls) →
        (build.run.run (b'.afterCalls calls)).1 = (build.run.run (b.afterCalls calls)).1 ∧
          ∀ s : Step, (s.act.run.run (b'.afterCalls calls)).1 = (s.act.run.run (b.afterCalls calls)).1) := by
  refine ⟨fun name body line h => ?_, fun name pattern skip h => (token_refused h).1,
    fun name pattern skip isFragment body h hf => ?_, fun h => ?_⟩
  · cases body with
    | error e =>
      cases h
      rfl
    | ok body => exact declare_refused h
  · cases body with
    | error e =>
      cases h
      rfl
    | ok body => exact (lexerRule_refused h).resolve_right hf
  · have hb : b' = (build b).2 := (congrArg Prod.snd h).symm
    refine ⟨?_, fun calls hno => ?_⟩
    · obtain ⟨p, hp, hafter⟩ := exists_after_build b
      obtain ⟨added, heq, hnodup, hall⟩ := exists_added p b.literals
      refine ⟨added, ?_, hnodup, fun t ht => ⟨(hall t ht).1, ?_⟩⟩
      · rw [hb, hafter, ← heq]
        rfl
      · obtain ⟨text, hmem, rfl⟩ := (hall t ht).2
        exact exists_rule_of_quotes (hp.subset hmem)
    · have hahead := (Ahead.refl b).afterCalls hno
      have hahead' := (Ahead.refl b).build.afterCalls hno
      rw [← hb] at hahead'
      exact ⟨hahead'.build_eq.trans hahead.build_eq.symm,
        fun s => (hahead'.act_eq s).trans (hahead.act_eq s).symm⟩

/-- A token, and a rule over a literal and a rule that is not declared. -/
def halted : Builder := afterAll { name := "halted", entryRules := [] }
  [.token "A" "a" false, .rule "s" (.sequence [.token ["'x'"], .call "m"]) none]

theorem halted_kept :
    (∃ f b', (do rule "s" (← (.ok .empty : Except Fault (Element String))) none :
      Building Unit).run.run halted = (.error f, b') ∧ b' = halted) ∧
    (∃ f b', (token "A" "b" false).run.run halted = (.error f, b') ∧ b' = halted) ∧
    (∃ f b', (do lexerRule "s" "b" false false (← (.ok none : Except Fault (Option (Element String)))) :
      Building Unit).run.run halted = (.error f, b') ∧ f ≠ .grammar (.duplicateToken "s") ∧
        b' = halted) ∧
    ∃ f b', build.run.run halted = (.error f, b') ∧ b'.rules = halted.rules ∧
      b'.named = halted.named ∧ (∃ t, b'.literals = [t] ∧ t.name = "'x'") ∧
      (build.run.run (b'.afterCalls [.declare (.rule "m" .empty none)])).1 =
        (build.run.run (halted.afterCalls [.declare (.rule "m" .empty none)])).1 := by
  have hbuild : build.run.run halted = (.error _, _) := rfl
  have hlexer : (do lexerRule "s" "b" false false (← (.ok none : Except Fault (Option (Element String)))) :
      Building Unit).run.run halted = (.error (.grammar (.duplicateRule "s")), _) := rfl
  have hne : Fault.grammar (.duplicateRule "s") ≠ .grammar (.duplicateToken "s") := by simp
  obtain ⟨hrule, -, -, -⟩ := kept_of_refused halted _ (.grammar (.duplicateRule "s"))
  obtain ⟨-, htoken, -, -⟩ := kept_of_refused halted _ (.grammar (.duplicateToken "A"))
  obtain ⟨-, -, hkept, -⟩ := kept_of_refused halted _ (.grammar (.duplicateRule "s"))
  obtain ⟨-, -, -, hstopped⟩ := kept_of_refused halted _ (.grammar (.undefinedRule "s" "m"))
  obtain ⟨-, hlater⟩ := hstopped hbuild
  refine ⟨⟨_, _, rfl, hrule "s" (.ok .empty) none rfl⟩, ⟨_, _, rfl, htoken "A" "b" false rfl⟩,
    ⟨_, _, hlexer, hne, hkept "s" "b" false false (.ok none) hlexer hne⟩,
    _, _, hbuild, rfl, rfl, ⟨_, rfl, rfl⟩, ?_⟩
  exact (hlater _ (by simp)).1

/-- A refused lexer rule may leave its rule, and a build that stops the literals it came to. -/
theorem halted_changes :
    (∃ f b', (lexerRule "A" "b" false false none).run.run halted = (.error f, b') ∧
      b'.rules ≠ halted.rules) ∧
    ∃ f b', build.run.run halted = (.error f, b') ∧ b'.literals ≠ halted.literals :=
  ⟨⟨_, _, rfl, fun h => absurd (congrArg List.length h) (by decide)⟩,
    _, _, rfl, fun h => absurd (congrArg List.length h) (by decide)⟩

end Builder

end RuleNetwork
