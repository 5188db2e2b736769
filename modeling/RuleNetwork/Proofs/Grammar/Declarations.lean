import RuleNetwork.Proofs.Layout.Resolution
import RuleNetwork.Proofs.Layout.Terminals
import RuleNetwork.Validation.Check

/-!
What a builder holds after some declarations: no two rules of one name, and a body for every parser
rule. A build that succeeds knows every token that a parser rule names.
-/

set_option autoImplicit false

namespace RuleNetwork

theorem Building.bind_eq {α β : Type} (x : Building α) (f : α → Building β) (b : Builder) :
    (x >>= f) b = match x b with
      | (.ok a, c) => f a c
      | (.error e, c) => (.error e, c) := by
  change ExceptT.bindCont f (x b).1 (x b).2 = _
  cases hx : x b with
  | mk r c => cases r <;> rfl

theorem Building.get_bind {α : Type} (f : Builder → Building α) (b : Builder) :
    (get >>= f) b = f b b := rfl

namespace Builder

open Building

section Steps

/-- What a builder can be told. -/
inductive Step where
  | rule (name : String) (body : Element String) (line : Option Int)
  | lexerRule (name pattern : String) (skip isFragment : Bool) (body : Option (Element String))
  | token (name pattern : String) (skip : Bool)
  | literal (text : String)

def Step.act : Step → Building Unit
  | .rule name body line => Builder.rule name body line
  | .lexerRule name pattern skip isFragment body => Builder.lexerRule name pattern skip isFragment body
  | .token name pattern skip => Builder.token name pattern skip
  | .literal text => do
    let _ ← Builder.literal text

/-- The builder after a step. What the step changed before a fault stays changed. -/
def after (b : Builder) (s : Step) : Builder := (s.act.run.run b).2

/-- The builder after some steps, refused or not. -/
def afterAll (b : Builder) (steps : List Step) : Builder := steps.foldl after b

theorem declare_eq (d : Declaration) (b : Builder) : declare d b =
    if b.declares d.name = true then (.error (.grammar (.duplicateRule d.name)), b)
    else (.ok (), { b with rules := b.rules ++ [d] }) := by
  unfold declare
  change (ite (b.declares d.name = true) _ _ : Building Unit) b = _
  split <;> rfl

theorem token_eq (name pattern : String) (skip : Bool) (b : Builder) : token name pattern skip b =
    if (b.named.any fun t => t.name == name) = true then (.error (.grammar (.duplicateToken name)), b)
    else (.ok (), { b with named := b.named ++ [{ name, pattern, skip }] }) := by
  unfold token
  change (ite ((b.named.any fun t => t.name == name) = true) _ _ : Building Unit) b = _
  split <;> rfl

/-- A rule declared, and then a token of its name unless the rule is a fragment. -/
theorem lexerRule_eq (name pattern : String) (skip isFragment : Bool)
    (body : Option (Element String)) : lexerRule name pattern skip isFragment body =
      (declare ⟨name, if isFragment then .fragment else .lexer, body, some pattern, none⟩ >>= fun _ =>
        if isFragment then pure () else token name pattern skip) := by
  cases isFragment <;> rfl

/-- The rules have names of their own, and each parser rule has a body. -/
structure Ordered (b : Builder) : Prop where
  names : (b.rules.map Declaration.name).Nodup
  body : ∀ d ∈ b.rules, d.kind = .parser → d.body.isSome

variable {b : Builder}

theorem Ordered.of_rules {b' : Builder} (h : b.Ordered) (hr : b'.rules = b.rules) : b'.Ordered :=
  ⟨hr ▸ h.names, hr ▸ h.body⟩

theorem ordered_declare (h : b.Ordered) {d : Declaration} (hd : d.kind = .parser → d.body.isSome) :
    (declare d b).2.Ordered := by
  rw [declare_eq]
  split
  · exact h
  · rename_i hnew
    refine ⟨?_, fun d' hd' => ?_⟩
    · rw [List.map_append, List.nodup_append]
      refine ⟨h.names, List.nodup_singleton _, fun name hname name' hname' heq => hnew ?_⟩
      obtain ⟨d', hd', rfl⟩ := List.mem_map.1 hname
      exact List.any_eq_true.2 ⟨d', hd', by simpa [heq] using hname'⟩
    · obtain hd' | hd' := List.mem_append.1 hd'
      · exact h.body d' hd'
      · rw [List.mem_singleton.1 hd']
        exact hd

theorem rules_token (name pattern : String) (skip : Bool) (b : Builder) :
    (token name pattern skip b).2.rules = b.rules := by
  rw [token_eq]
  split <;> rfl

theorem ordered_lexerRule (h : b.Ordered) (name pattern : String) (skip isFragment : Bool)
    (body : Option (Element String)) :
    (lexerRule name pattern skip isFragment body b).2.Ordered := by
  rw [lexerRule_eq, Building.bind_eq]
  generalize hd : Declaration.mk name _ body (some pattern) none = d
  have hdeclared : (declare d b).2.Ordered := by
    refine ordered_declare h fun hk => ?_
    subst hd
    cases isFragment <;> cases hk
  cases hb : declare d b with
  | mk r c =>
    rw [hb] at hdeclared
    cases r with
    | error f => exact hdeclared
    | ok u =>
      cases isFragment with
      | true => exact hdeclared
      | false => exact hdeclared.of_rules (rules_token name pattern skip c)

theorem ordered_after (h : b.Ordered) (s : Step) : (b.after s).Ordered := by
  cases s with
  | rule name body line => exact ordered_declare h fun _ => rfl
  | lexerRule name pattern skip isFragment body => exact ordered_lexerRule h name pattern skip isFragment body
  | token name pattern skip => exact h.of_rules (rules_token name pattern skip b)
  | literal text => exact h.of_rules (sameRules_addLiteral text b).1

/-- Declarations keep a builder in order, those that are refused too. -/
theorem ordered_afterAll (h : b.Ordered) (steps : List Step) : (b.afterAll steps).Ordered := by
  induction steps generalizing b with
  | nil => exact h
  | cons s steps ih => exact ih (ordered_after h s)

theorem ordered_new (name : String) (entryRules : List String) :
    ({ name, entryRules } : Builder).Ordered :=
  ⟨List.nodup_nil, fun _ hd => absurd hd List.not_mem_nil⟩

end Steps

section Tokens

/-- A token that the grammar built would have: the end of input, a literal or a named token. -/
def Knows (b : Builder) (name : String) : Prop :=
  name ∈ endOfInput :: (b.literals ++ b.named).map TokenType.name

/-- All tokens known stay known. -/
structure Grows (b b' : Builder) : Prop where
  literals : ∀ t ∈ b.literals, t ∈ b'.literals
  named : b'.named = b.named

variable {b b' c : Builder} {name : String}

theorem Grows.refl (b : Builder) : b.Grows b := ⟨fun _ h => h, rfl⟩

theorem Grows.trans (h : b.Grows b') (h' : b'.Grows c) : b.Grows c :=
  ⟨fun t ht => h'.literals t (h.literals t ht), h'.named.trans h.named⟩

theorem Knows.mono (h : b.Knows name) (hg : b.Grows b') : b'.Knows name := by
  obtain rfl | hmem := List.mem_cons.1 h
  · exact List.mem_cons_self ..
  · obtain ⟨t, ht, rfl⟩ := List.mem_map.1 hmem
    refine List.mem_cons_of_mem _ (List.mem_map_of_mem ?_)
    obtain ht | ht := List.mem_append.1 ht
    · exact List.mem_append_left _ (hg.literals t ht)
    · exact List.mem_append_right _ (hg.named ▸ ht)

theorem grows_addLiteral (text : String) (b : Builder) : b.Grows (b.addLiteral text) := by
  unfold addLiteral
  split
  · exact .refl b
  · exact ⟨fun t ht => List.mem_append_left _ ht, rfl⟩

theorem knows_addLiteral (text : String) (b : Builder) :
    (b.addLiteral text).Knows (quoteLiteral text) := by
  refine List.mem_cons_of_mem _ (List.mem_map.2 ?_)
  unfold addLiteral
  split
  · rename_i h
    obtain ⟨t, ht, hname⟩ := List.any_eq_true.1 h
    exact ⟨t, List.mem_append_left _ ht, by simpa using hname⟩
  · exact ⟨_, List.mem_append_left _ (List.mem_append_right _ (List.mem_singleton_self _)), rfl⟩

/-- The text between the quotes, quoted again, is the name. -/
theorem quoteLiteral_of_unquoted? {text : String} (h : unquoted? name = some text) :
    quoteLiteral text = name := by
  unfold unquoted? at h
  split at h
  · rename_i r hname
    split at h
    · rename_i hr
      cases h
      obtain ⟨init, rfl⟩ := List.getLast?_eq_some_iff.1 hr.2
      rw [List.dropLast_concat]
      refine String.toList_inj.1 ?_
      rw [hname]
      simp [quoteLiteral, String.toList_append, toString]
    · cases h
  · cases h

theorem grows_resolveToken {d : Declaration} (h : resolveToken d name b = (.ok (), b')) :
    b.Grows b' ∧ (d.kind = .parser → b'.Knows name) := by
  unfold resolveToken at h
  split at h
  · rename_i hk
    cases h
    exact ⟨.refl b, fun hp => absurd hp hk⟩
  · cases hq : unquoted? name with
    | some text =>
      rw [hq] at h
      cases h
      refine ⟨grows_addLiteral text b, fun _ => ?_⟩
      have := knows_addLiteral text b
      rwa [quoteLiteral_of_unquoted? hq] at this
    | none =>
      rw [hq] at h
      obtain ⟨c, c', hc, h⟩ := bind_ok h
      cases hc
      split at h
      · rename_i hknown
        cases h
        refine ⟨.refl b, fun _ => ?_⟩
        obtain heq | hnamed := Bool.or_eq_true_iff.1 hknown
        · exact List.mem_cons.2 (.inl (by simpa using heq))
        · obtain ⟨t, ht, hname⟩ := List.any_eq_true.1 hnamed
          exact List.mem_cons_of_mem _ (List.mem_map.2
            ⟨t, List.mem_append_right _ ht, by simpa using hname⟩)
      · exact absurd h throw_ne_ok

/-- A build step that declares no fewer tokens, and all those of some token sets. -/
def Supplies (d : Declaration) (sets : List (List String)) (b b' : Builder) : Prop :=
  b.Grows b' ∧ (d.kind = .parser → ∀ names ∈ sets, ∀ name ∈ names, b'.Knows name)

variable {d : Declaration} {sets sets' : List (List String)}

theorem Supplies.nil (d : Declaration) (b : Builder) : Supplies d [] b b :=
  ⟨.refl b, fun _ _ hn => absurd hn List.not_mem_nil⟩

theorem Supplies.append (h : Supplies d sets b b') (h' : Supplies d sets' b' c) :
    Supplies d (sets ++ sets') b c := by
  refine ⟨h.1.trans h'.1, fun hk names hn name hname => ?_⟩
  obtain hn | hn := List.mem_append.1 hn
  · exact (h.2 hk names hn name hname).mono h'.1
  · exact h'.2 hk names hn name hname

theorem supplies_resolveTokens {names : List String}
    (h : names.forM (resolveToken d) b = (.ok (), b')) : Supplies d [names] b b' := by
  suffices b.Grows b' ∧ (d.kind = .parser → ∀ name ∈ names, b'.Knows name) by
    refine ⟨this.1, fun hk names' hn => ?_⟩
    rw [List.mem_singleton.1 hn]
    exact this.2 hk
  induction names generalizing b with
  | nil =>
    cases h
    exact ⟨.refl _, fun _ _ hn => absurd hn List.not_mem_nil⟩
  | cons x r ih =>
    obtain ⟨_, c, hx, h⟩ := bind_ok (x := resolveToken d x) h
    obtain ⟨hgrows, hknows⟩ := grows_resolveToken hx
    obtain ⟨hrest, hall⟩ := ih h
    refine ⟨hgrows.trans hrest, fun hk name hname => ?_⟩
    obtain rfl | hname := List.mem_cons.1 hname
    · exact (hknows hk).mono hrest
    · exact hall hk name hname

theorem supplies_resolveAll {l : List (Element String)}
    (hl : ∀ e ∈ l, ∀ b b' e', resolve d e b = (.ok e', b') → Supplies d e.tokenSets b b')
    {l' : List (Element Nat)} (h : resolveAll d l b = (.ok l', b')) :
    Supplies d (allTokenSets l) b b' := by
  induction l generalizing b l' with
  | nil =>
    cases h
    exact .nil d _
  | cons e r ih =>
    obtain ⟨e', c, he, h⟩ := bind_ok h
    obtain ⟨r', c', hr, h⟩ := bind_ok h
    obtain ⟨-, rfl⟩ := pure_ok h
    exact (hl e (List.mem_cons_self ..) _ _ _ he).append
      (ih (fun e he => hl e (List.mem_cons_of_mem _ he)) hr)

/-- A body resolved leaves every token that it names known, if its rule is a parser rule. -/
theorem supplies_resolve (e : Element String) {e' : Element Nat}
    (h : resolve d e b = (.ok e', b')) : Supplies d e.tokenSets b b' := by
  induction e using Element.induction generalizing b b' e' with
  | token names =>
    obtain ⟨_, c, hn, h⟩ := bind_ok h
    obtain ⟨-, rfl⟩ := pure_ok h
    exact supplies_resolveTokens hn
  | call callee =>
    obtain ⟨c, c', hc, h⟩ := bind_ok h
    cases hc
    generalize b.index? callee = found at h
    cases found with
    | some i =>
      obtain ⟨-, rfl⟩ := pure_ok h
      exact .nil d _
    | none => exact absurd h throw_ne_ok
  | guard text =>
    obtain ⟨-, rfl⟩ := pure_ok h
    exact .nil d _
  | empty =>
    obtain ⟨-, rfl⟩ := pure_ok h
    exact .nil d _
  | unknown => exact absurd h throw_ne_ok
  | sequence items ih =>
    obtain ⟨l, c, hl, h⟩ := bind_ok h
    obtain ⟨-, rfl⟩ := pure_ok h
    exact supplies_resolveAll (fun e he b b' e' h => ih e he h) hl
  | choice options ih =>
    obtain ⟨l, c, hl, h⟩ := bind_ok h
    obtain ⟨-, rfl⟩ := pure_ok h
    exact supplies_resolveAll (fun e he b b' e' h => ih e he h) hl
  | star body ih =>
    obtain ⟨e₁, c, he, h⟩ := bind_ok h
    obtain ⟨-, rfl⟩ := pure_ok h
    exact ih he
  | plus body ih =>
    obtain ⟨e₁, c, he, h⟩ := bind_ok h
    obtain ⟨-, rfl⟩ := pure_ok h
    exact ih he
  | option body ih =>
    obtain ⟨e₁, c, he, h⟩ := bind_ok h
    obtain ⟨-, rfl⟩ := pure_ok h
    exact ih he

theorem supplies_resolveBody {e' : Element Nat} (hbody : d.kind = .parser → d.body.isSome)
    (h : resolveBody d b = (.ok e', b')) : Supplies d (bodyOf d).tokenSets b b' := by
  unfold resolveBody at h
  unfold bodyOf
  cases hd : d.body with
  | some body =>
    rw [hd] at h
    exact supplies_resolve body h
  | none =>
    rw [hd] at h
    obtain ⟨-, rfl⟩ := pure_ok h
    refine ⟨.refl _, fun hk => ?_⟩
    have := hbody hk
    rw [hd] at this
    cases this

theorem supplies_resolveRules {l : List Declaration}
    (hbody : ∀ d ∈ l, d.kind = .parser → d.body.isSome) {bodies : List (Element Nat)}
    (h : resolveRules l b = (.ok bodies, b')) :
    b.Grows b' ∧ ∀ d ∈ l, Supplies d (bodyOf d).tokenSets b b' := by
  induction l generalizing b bodies with
  | nil =>
    cases h
    exact ⟨.refl _, fun d hd => absurd hd List.not_mem_nil⟩
  | cons d r ih =>
    obtain ⟨e', c, he, h⟩ := bind_ok h
    obtain ⟨r', c', hr, h⟩ := bind_ok h
    obtain ⟨-, rfl⟩ := pure_ok h
    have hfirst := supplies_resolveBody (hbody d (List.mem_cons_self ..)) he
    obtain ⟨hgrows, hrest⟩ := ih (fun d hd => hbody d (List.mem_cons_of_mem _ hd)) hr
    refine ⟨hfirst.1.trans hgrows, fun d' hd' => ?_⟩
    obtain rfl | hd' := List.mem_cons.1 hd'
    · exact ⟨hfirst.1.trans hgrows, fun hk names hn name hname =>
        (hfirst.2 hk names hn name hname).mono hgrows⟩
    · exact ⟨hfirst.1.trans hgrows, (hrest d' hd').2⟩

/-- The vocabulary of a built grammar has every token that its parser rules name. -/
theorem mem_vocabulary_of_build {g : Grammar}
    (hbody : ∀ d ∈ b.rules, d.kind = .parser → d.body.isSome)
    (h : build.run.run b = (.ok g, b')) :
    ∀ d ∈ b.rules, d.kind = .parser → ∀ names ∈ (bodyOf d).tokenSets, ∀ name ∈ names,
      name ∈ g.vocabulary := by
  obtain ⟨c, c', hc, h⟩ := bind_ok (x := get) h
  cases hc
  obtain ⟨bodies, c, hb, h⟩ := bind_ok h
  obtain ⟨c₁, c₂, hc, h⟩ := bind_ok h
  cases hc
  obtain ⟨-, hall⟩ := supplies_resolveRules hbody hb
  generalize c.entryRules.find? (fun name => !c.declares name) = missing at h
  cases missing with
  | some name => exact absurd h throw_ne_ok
  | none =>
    obtain ⟨rfl, rfl⟩ := pure_ok h
    exact fun d hd => (hall d hd).2

end Tokens

/-- A grammar built from a builder in order has a name of its own for every rule. -/
theorem Ordered.nodup_of_build {b b' : Builder} {g : Grammar} (hb : b.Ordered)
    (h : build.run.run b = (.ok g, b')) : (g.ruleList.map Rule.name).Nodup := by
  obtain ⟨hrules, -⟩ := build_ok h
  have heq : g.ruleList.map Rule.name = b.rules.map Declaration.name := by
    refine List.ext_getElem (by simp [Grammar.ruleList, hrules]) fun k hk hk' => ?_
    simp [Grammar.ruleList, hrules, ruleOf]
  rw [heq]
  exact hb.names

end Builder

end RuleNetwork
