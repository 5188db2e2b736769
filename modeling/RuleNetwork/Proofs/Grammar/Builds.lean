import RuleNetwork.Proofs.Grammar.Declarations

/-!
Builds that are repeated. A build, failed or not, changes nothing but the literals, and it adds only
those that every later build would add first: the literals that the parser rules name, in the order of
the declarations, up to the place where it stops.
-/

set_option autoImplicit false

namespace RuleNetwork

namespace Builder

open Building

section Literals

/-- The literals with one more, unless it is there. -/
def enlist (literals : List TokenType) (text : String) : List TokenType :=
  if literals.any fun t => t.name == quoteLiteral text then literals
  else literals ++ [{ name := quoteLiteral text, pattern := text, isLiteral := true }]

/-- The builder after the literals of some texts are declared, one after the other. -/
def addAll (texts : List String) (b : Builder) : Builder :=
  { b with literals := texts.foldl enlist b.literals }

theorem addLiteral_eq (text : String) (b : Builder) : b.addLiteral text = b.addAll [text] := by
  unfold addLiteral addAll
  simp only [List.foldl_cons, List.foldl_nil, enlist]
  split <;> rfl

theorem addAll_append (texts texts' : List String) (b : Builder) :
    b.addAll (texts ++ texts') = (b.addAll texts).addAll texts' := by
  simp [addAll]

theorem mem_enlist (literals : List TokenType) (text : String) :
    ∃ t ∈ enlist literals text, t.name = quoteLiteral text := by
  unfold enlist
  split
  · rename_i h
    obtain ⟨t, ht, hname⟩ := List.any_eq_true.1 h
    exact ⟨t, ht, by simpa using hname⟩
  · exact ⟨_, List.mem_append_right _ (List.mem_singleton_self _), rfl⟩

theorem prefix_enlist (literals : List TokenType) (text : String) :
    literals <+: enlist literals text := by
  unfold enlist
  split
  · exact List.prefix_rfl
  · exact List.prefix_append _ _

theorem prefix_foldl_enlist (texts : List String) (literals : List TokenType) :
    literals <+: texts.foldl enlist literals := by
  induction texts generalizing literals with
  | nil => exact List.prefix_rfl
  | cons text r ih => exact (prefix_enlist literals text).trans (ih _)

theorem mem_foldl_enlist {texts : List String} {text : String} (h : text ∈ texts)
    (literals : List TokenType) :
    ∃ t ∈ texts.foldl enlist literals, t.name = quoteLiteral text := by
  induction texts generalizing literals with
  | nil => exact absurd h List.not_mem_nil
  | cons x r ih =>
    obtain rfl | h := List.mem_cons.1 h
    · obtain ⟨t, ht, hname⟩ := mem_enlist literals text
      exact ⟨t, (prefix_foldl_enlist r _).subset ht, hname⟩
    · exact ih h _

/-- Literals that are there are not declared again. -/
theorem foldl_enlist_of_mem {texts : List String} {literals : List TokenType}
    (h : ∀ text ∈ texts, ∃ t ∈ literals, t.name = quoteLiteral text) :
    texts.foldl enlist literals = literals := by
  induction texts with
  | nil => rfl
  | cons text r ih =>
    obtain ⟨t, ht, hname⟩ := h text (List.mem_cons_self ..)
    have hknown : enlist literals text = literals :=
      if_pos (List.any_eq_true.2 ⟨t, ht, by simpa using hname⟩)
    rw [List.foldl_cons, hknown]
    exact ih fun text ht => h text (List.mem_cons_of_mem _ ht)

variable {texts texts' : List String}

theorem addAll_of_subset (h : texts' ⊆ texts) (b : Builder) :
    (b.addAll texts).addAll texts' = b.addAll texts := by
  have hsame := foldl_enlist_of_mem fun text ht => mem_foldl_enlist (h ht) b.literals
  unfold addAll
  rw [hsame]

/-- Declaring the first of some literals before all of them changes nothing. -/
theorem addAll_of_prefix (h : texts' <+: texts) (b : Builder) :
    (b.addAll texts').addAll texts = b.addAll texts := by
  obtain ⟨rest, rfl⟩ := h
  rw [addAll_append, addAll_append, addAll_of_subset (List.Subset.refl _)]

end Literals

section Resolving

/-- The texts of the literals that a rule declares for some token sets, from left to right. -/
def quotesIn (d : Declaration) (sets : List (List String)) : List String :=
  if d.kind = .parser then sets.flatten.filterMap unquoted? else []

theorem quotesIn_append (d : Declaration) (sets sets' : List (List String)) :
    quotesIn d (sets ++ sets') = quotesIn d sets ++ quotesIn d sets' := by
  unfold quotesIn
  split
  · rw [List.flatten_append, List.filterMap_append]
  · rfl

/-- A build step that declares the literals of the texts, in order and all of them unless it fails.
The literals there are do not change how it ends. -/
structure Enlists {α : Type} (texts : List String) (f : Building α) : Prop where
  after : ∀ b, ∃ p, p <+: texts ∧ (f b).2 = b.addAll p
  all : ∀ {b a c}, f b = (.ok a, c) → c = b.addAll texts
  blind : ∀ b literals, (f { b with literals }).1 = (f b).1

variable {α β : Type} {texts texts' : List String} {d : Declaration}

theorem enlists_pure (x : α) : Enlists [] (pure x) where
  after _ := ⟨[], List.nil_prefix, rfl⟩
  all h := (pure_ok h).2.symm
  blind _ _ := rfl

theorem enlists_throw (f : Fault) : Enlists texts (throw f : Building α) where
  after _ := ⟨[], List.nil_prefix, rfl⟩
  all h := absurd h throw_ne_ok
  blind _ _ := rfl

theorem enlists_bind {f : Building α} {g : α → Building β} (hf : Enlists texts f)
    (hg : ∀ x, Enlists texts' (g x)) : Enlists (texts ++ texts') (f >>= g) where
  after b := by
    rw [bind_eq]
    cases hx : f b with
    | mk r c =>
      cases r with
      | ok x =>
        obtain ⟨p, hp, hc⟩ := (hg x).after c
        refine ⟨texts ++ p, (List.prefix_append_right_inj texts).2 hp, ?_⟩
        rw [addAll_append, ← hf.all hx]
        exact hc
      | error e =>
        obtain ⟨p, hp, hc⟩ := hf.after b
        rw [hx] at hc
        exact ⟨p, hp.trans (List.prefix_append _ _), hc⟩
  all {b} _ _ h := by
    obtain ⟨x, c, hx, h⟩ := bind_ok h
    rw [(hg x).all h, hf.all hx, addAll_append]
  blind b literals := by
    have hsame := hf.blind b literals
    rw [bind_eq, bind_eq]
    cases hx : f b with
    | mk r c =>
      cases hy : f { b with literals } with
      | mk r' c' =>
        rw [hx, hy] at hsame
        obtain rfl : r' = r := hsame
        cases r' with
        | ok x =>
          rw [hf.all hx, hf.all hy]
          exact ((hg x).blind b _).trans ((hg x).blind b _).symm
        | error e => rfl

/-- A value made of what a step gives. -/
theorem enlists_map {f : Building α} (hf : Enlists texts f) (g : α → β) :
    Enlists texts (do let x ← f; return g x) := by
  have h := enlists_bind hf fun x => enlists_pure (g x)
  rwa [List.append_nil] at h

/-- A step that looks at the builder, but not at its literals. -/
theorem enlists_get {g : Builder → Building α} (hg : ∀ b, Enlists texts (g b))
    (hsame : ∀ b literals, g { b with literals } = g b) : Enlists texts (do g (← get)) where
  after b := (hg b).after b
  all {b} _ _ h := (hg b).all h
  blind b literals := by
    change (g { b with literals } { b with literals }).1 = (g b b).1
    rw [hsame]
    exact (hg b).blind b literals

theorem enlists_addLiteral (text : String) :
    Enlists [text] (modify (addLiteral text) : Building Unit) where
  after b := ⟨[text], List.prefix_rfl, addLiteral_eq text b⟩
  all {b _ _} h := by
    cases h
    exact addLiteral_eq text b
  blind _ _ := rfl

theorem enlists_resolveToken (d : Declaration) (name : String) :
    Enlists (quotesIn d [[name]]) (resolveToken d name) := by
  unfold resolveToken quotesIn
  by_cases hk : d.kind = .parser
  · rw [if_pos hk, if_neg (not_not_intro hk)]
    cases hq : unquoted? name with
    | some text =>
      simp only [List.flatten_cons, List.flatten_nil, List.append_nil, List.filterMap_cons, hq,
        List.filterMap_nil]
      exact enlists_addLiteral text
    | none =>
      simp only [List.flatten_cons, List.flatten_nil, List.append_nil, List.filterMap_cons, hq,
        List.filterMap_nil]
      refine enlists_get (fun b => ?_) fun b literals => rfl
      split
      · exact enlists_pure ()
      · exact enlists_throw _
  · rw [if_neg hk, if_pos hk]
    exact enlists_pure ()

theorem enlists_resolveTokens (d : Declaration) (names : List String) :
    Enlists (quotesIn d [names]) (names.forM (resolveToken d)) := by
  induction names with
  | nil =>
    have hnone : quotesIn d [[]] = [] := by simp [quotesIn]
    rw [hnone]
    exact enlists_pure _
  | cons name r ih =>
    have hsplit : quotesIn d [name :: r] = quotesIn d [[name]] ++ quotesIn d [r] := by
      rw [← quotesIn_append]
      simp [quotesIn]
    rw [hsplit]
    exact enlists_bind (enlists_resolveToken d name) fun _ => ih

theorem enlists_resolveAll {l : List (Element String)}
    (h : ∀ e ∈ l, Enlists (quotesIn d e.tokenSets) (resolve d e)) :
    Enlists (quotesIn d (allTokenSets l)) (resolveAll d l) := by
  induction l with
  | nil =>
    have hnone : quotesIn d (allTokenSets ([] : List (Element String))) = [] := by
      simp [quotesIn, allTokenSets]
    rw [hnone]
    exact enlists_pure []
  | cons e r ih =>
    unfold allTokenSets
    rw [quotesIn_append]
    exact enlists_bind (h e (List.mem_cons_self ..)) fun first =>
      enlists_map (ih fun e he => h e (List.mem_cons_of_mem _ he)) fun rest => first :: rest

theorem enlists_resolve (d : Declaration) (e : Element String) :
    Enlists (quotesIn d e.tokenSets) (resolve d e) := by
  have hnone : quotesIn d [] = [] := by simp [quotesIn]
  induction e using Element.induction with
  | token names => exact enlists_map (enlists_resolveTokens d names) fun _ => Element.token names
  | call callee =>
    rw [Element.tokenSets, hnone]
    refine enlists_get (fun b => ?_) fun b literals => rfl
    split
    · exact enlists_pure _
    · exact enlists_throw _
  | guard text =>
    rw [Element.tokenSets, hnone]
    exact enlists_pure _
  | empty =>
    rw [Element.tokenSets, hnone]
    exact enlists_pure _
  | unknown => exact enlists_throw _
  | sequence items ih => exact enlists_map (enlists_resolveAll ih) _
  | choice options ih => exact enlists_map (enlists_resolveAll ih) _
  | star body ih => exact enlists_map ih _
  | plus body ih => exact enlists_map ih _
  | option body ih => exact enlists_map ih _

/-- The texts of the literals that a declared rule names. -/
def quotesOf (d : Declaration) : List String := d.body.elim [] fun e => quotesIn d e.tokenSets

theorem enlists_resolveBody (d : Declaration) : Enlists (quotesOf d) (resolveBody d) := by
  unfold resolveBody quotesOf
  cases d.body with
  | some body => exact enlists_resolve d body
  | none => exact enlists_pure _

theorem enlists_resolveRules (l : List Declaration) :
    Enlists (l.flatMap quotesOf) (resolveRules l) := by
  induction l with
  | nil => exact enlists_pure []
  | cons d r ih =>
    exact enlists_bind (enlists_resolveBody d) fun body => enlists_map ih fun rest => body :: rest

/-- The texts of the literals that a build declares, in the order of the declarations. -/
def quotes (b : Builder) : List String := b.rules.flatMap quotesOf

end Resolving

section Builds

/-- What a build gives once the bodies are resolved. -/
def assembled (bodies : List (Element Nat)) (b : Builder) : Except Fault Grammar :=
  match b.entryRules.find? fun name => !b.declares name with
  | some name => .error (.grammar (.undeclaredEntry name))
  | none =>
    .ok {
      name := b.name
      rules := (b.rules.mapIdx ruleOf).toArray
      network := networkOf bodies
      tokens := b.literals ++ b.named
      entryRules := b.entryRules }

variable {b : Builder} {p : List String}

theorem build_eq (b : Builder) : build b = match resolveRules b.rules b with
    | (.ok bodies, c) => (assembled bodies c, c)
    | (.error e, c) => (.error e, c) := by
  unfold build
  rw [get_bind, bind_eq]
  cases hx : resolveRules b.rules b with
  | mk r c =>
    cases r with
    | error e => rfl
    | ok bodies =>
      obtain rfl := (enlists_resolveRules b.rules).all hx
      simp only [get_bind, assembled]
      generalize List.find? _ _ = missing
      cases missing <;> rfl

/-- A build leaves the first of the literals that the rules name, all of them if it succeeds. -/
theorem exists_after_build (b : Builder) : ∃ p, p <+: b.quotes ∧ (build b).2 = b.addAll p := by
  obtain ⟨p, hp, hc⟩ := (enlists_resolveRules b.rules).after b
  refine ⟨p, hp, ?_⟩
  rw [← hc, build_eq]
  cases resolveRules b.rules b with
  | mk r c => cases r <;> rfl

theorem build_addAll (hp : p <+: b.quotes) : (build (b.addAll p)).1 = (build b).1 := by
  have hrules := enlists_resolveRules b.rules
  have hbodies : (resolveRules b.rules (b.addAll p)).1 = (resolveRules b.rules b).1 :=
    hrules.blind b (b.addAll p).literals
  rw [build_eq, build_eq, show (b.addAll p).rules = b.rules from rfl]
  cases hx : resolveRules b.rules b with
  | mk r c =>
    cases hy : resolveRules b.rules (b.addAll p) with
    | mk r' c' =>
      rw [hx, hy] at hbodies
      obtain rfl : r' = r := hbodies
      cases r' with
      | error e => rfl
      | ok bodies =>
        have hc : c' = c := by
          rw [hrules.all hx, hrules.all hy]
          exact addAll_of_prefix hp b
        rw [hc]

/-- A builder that differs from another by the first of the literals that the rules name. -/
def Ahead (b b' : Builder) : Prop := ∃ p, p <+: b.quotes ∧ b' = b.addAll p

variable {b' : Builder}

theorem Ahead.refl (b : Builder) : b.Ahead b := ⟨[], List.nil_prefix, rfl⟩

theorem Ahead.build (h : b.Ahead b') : b.Ahead (Builder.build b').2 := by
  obtain ⟨p, hp, rfl⟩ := h
  obtain ⟨p', hp', hafter⟩ := exists_after_build (b.addAll p)
  have hp' : p' <+: b.quotes := hp'
  rw [hafter]
  obtain hle | hle := List.prefix_or_prefix_of_prefix hp hp'
  · exact ⟨p', hp', addAll_of_prefix hle b⟩
  · exact ⟨p, hp, addAll_of_subset hle.subset b⟩

/-- A build does not see whether an earlier one has stopped on its way. -/
theorem Ahead.build_eq (h : b.Ahead b') : (Builder.build b').1 = (Builder.build b).1 := by
  obtain ⟨p, hp, rfl⟩ := h
  exact build_addAll hp

end Builds

section Histories

/-- A step that neither looks at the literals nor changes them, and puts rules behind those declared. -/
structure Apart {α : Type} (f : Building α) : Prop where
  act : ∀ b texts, f (b.addAll texts) = ((f b).1, (f b).2.addAll texts)
  rules : ∀ b, b.rules <+: (f b).2.rules

theorem apart_declare (d : Declaration) : Apart (declare d) where
  act b texts := by
    rw [declare_eq, declare_eq, show (b.addAll texts).declares = b.declares from rfl]
    split <;> rfl
  rules b := by
    rw [declare_eq]
    split
    · exact List.prefix_rfl
    · exact List.prefix_append _ _

theorem apart_token (name pattern : String) (skip : Bool) : Apart (token name pattern skip) where
  act b texts := by
    rw [token_eq, token_eq, show (b.addAll texts).named = b.named from rfl]
    split <;> rfl
  rules b := by rw [rules_token]

theorem apart_bind {α β : Type} {f : Building α} {g : α → Building β} (hf : Apart f)
    (hg : ∀ x, Apart (g x)) : Apart (f >>= g) where
  act b texts := by
    rw [bind_eq, bind_eq, hf.act]
    cases f b with
    | mk r c =>
      cases r with
      | ok x => exact (hg x).act c texts
      | error e => rfl
  rules b := by
    have hfirst := hf.rules b
    rw [bind_eq]
    cases hb : f b with
    | mk r c =>
      rw [hb] at hfirst
      cases r with
      | ok x => exact hfirst.trans ((hg x).rules c)
      | error e => exact hfirst

theorem apart_lexerRule (name pattern : String) (skip isFragment : Bool)
    (body : Option (Element String)) : Apart (lexerRule name pattern skip isFragment body) := by
  rw [lexerRule_eq]
  refine apart_bind (apart_declare _) fun _ => ?_
  cases isFragment with
  | true => exact ⟨fun _ _ => rfl, fun _ => List.prefix_rfl⟩
  | false => exact apart_token name pattern skip

variable {b b' : Builder} {s : Step}

theorem apart_act (hs : ∀ text, s ≠ .literal text) : Apart s.act := by
  cases s with
  | rule name body line => exact apart_declare _
  | lexerRule name pattern skip isFragment body =>
    exact apart_lexerRule name pattern skip isFragment body
  | token name pattern skip => exact apart_token name pattern skip
  | literal text => exact absurd rfl (hs text)

/-- A declaration is taken, or refused, ahead as behind. -/
theorem Ahead.act_eq (h : b.Ahead b') (s : Step) : (s.act.run.run b').1 = (s.act.run.run b).1 := by
  obtain ⟨p, -, rfl⟩ := h
  by_cases hs : ∃ text, s = .literal text
  · obtain ⟨text, rfl⟩ := hs
    rfl
  · have hact := congrArg Prod.fst ((apart_act fun text heq => hs ⟨text, heq⟩).act b p)
    exact hact

theorem Ahead.after (h : b.Ahead b') (hs : ∀ text, s ≠ .literal text) :
    (b.after s).Ahead (b'.after s) := by
  obtain ⟨p, hp, rfl⟩ := h
  have hact := apart_act hs
  have hquotes : b.quotes <+: (b.after s).quotes := by
    obtain ⟨rest, hrest⟩ := hact.rules b
    refine ⟨rest.flatMap quotesOf, ?_⟩
    unfold quotes
    rw [← List.flatMap_append, hrest]
    rfl
  exact ⟨p, hp.trans hquotes, congrArg Prod.snd (hact.act b p)⟩

/-- What a builder is asked for: a declaration, or the grammar. -/
inductive Call where
  | declare (s : Step)
  | build

/-- The builder after a call. -/
def afterCall (b : Builder) : Call → Builder
  | .declare s => b.after s
  | .build => (build.run.run b).2

def afterCalls (b : Builder) (calls : List Call) : Builder := calls.foldl afterCall b

/-- The declarations among some calls. -/
def declarations (calls : List Call) : List Step :=
  calls.filterMap fun
    | .declare s => some s
    | .build => none

/-- No literal is declared behind a build. -/
def LiteralsFirst (calls : List Call) : Prop :=
  calls.Pairwise fun c c' => c = .build → ∀ text, c' ≠ .declare (.literal text)

theorem LiteralsFirst.of_append {calls calls' : List Call} (h : LiteralsFirst (calls ++ calls')) :
    LiteralsFirst calls := (List.pairwise_append.1 h).1

/-- The builder ahead stays ahead while builds go between the declarations. -/
theorem Ahead.afterCalls {calls : List Call} (h : b.Ahead b')
    (hno : ∀ text, .declare (.literal text) ∉ calls) :
    (b.afterAll (declarations calls)).Ahead (b'.afterCalls calls) := by
  induction calls generalizing b b' with
  | nil => exact h
  | cons c r ih =>
    have hrest : ∀ text, .declare (.literal text) ∉ r := fun text hmem =>
      hno text (List.mem_cons_of_mem _ hmem)
    cases c with
    | declare s =>
      have hs : ∀ text, s ≠ .literal text := fun text heq =>
        hno text (heq ▸ List.mem_cons_self ..)
      exact ih (h.after hs) hrest
    | build => exact ih h.build hrest

/-- Builds among the declarations leave a builder no further than the first of the literals ahead. -/
theorem ahead_afterCalls {calls : List Call} (h : LiteralsFirst calls) (b : Builder) :
    (b.afterAll (declarations calls)).Ahead (b.afterCalls calls) := by
  induction calls generalizing b with
  | nil => exact .refl b
  | cons c r ih =>
    obtain ⟨hlater, hrest⟩ := List.pairwise_cons.1 h
    cases c with
    | declare s => exact ih hrest (b.after s)
    | build => exact (Ahead.refl b).build.afterCalls fun text hmem => hlater _ hmem rfl text rfl

/-- Builds, failed or not, do not change what the builder gives later: as long as no literal is declared
behind a build, a build gives what it gives a new builder with the same declarations, and each of these
is taken, or refused, as if there had been no build before it. -/
theorem build_afterCalls (name : String) (entryRules : List String) {calls : List Call}
    (h : LiteralsFirst calls) :
    (build.run.run (afterCalls { name, entryRules } calls)).1 =
        (build.run.run (afterAll { name, entryRules } (declarations calls))).1 ∧
      ∀ earlier s later, calls = earlier ++ .declare s :: later →
        (s.act.run.run (afterCalls { name, entryRules } earlier)).1 =
          (s.act.run.run (afterAll { name, entryRules } (declarations earlier))).1 := by
  refine ⟨?_, fun earlier s later hcalls => ?_⟩
  · exact (ahead_afterCalls h _).build_eq
  · subst hcalls
    exact (ahead_afterCalls h.of_append _).act_eq s

/-- A grammar asked for three times while it is declared. -/
def retried : List Call :=
  [.declare (.rule "s" (.choice [.sequence [.token ["'x'"], .call "m"], .token ["'y'"]]) none),
    .build,
    .declare (.rule "m" (.sequence [.token ["'z'"], .token ["T"]]) none),
    .build,
    .declare (.token "T" "t" false),
    .build]

theorem retried_build : LiteralsFirst retried ∧
    (build.run.run (afterCalls { name := "retried" } (retried.take 1))).1 =
      .error (.grammar (.undefinedRule "s" "m")) ∧
    (build.run.run (afterCalls { name := "retried" } (retried.take 3))).1 =
      .error (.grammar (.undefinedToken "m" "T")) ∧
    ∃ g, (build.run.run (afterCalls { name := "retried" } retried)).1 = .ok g ∧
      (build.run.run (afterAll { name := "retried" } (declarations retried))).1 = .ok g ∧
      g.tokens.map TokenType.name = ["'x'", "'y'", "'z'", "T"] := by
  have hfirst : LiteralsFirst retried := by simp [LiteralsFirst, retried]
  obtain ⟨hbuild, -⟩ := build_afterCalls "retried" [] hfirst
  have hg : (build.run.run (afterAll { name := "retried" } (declarations retried))).1 = .ok _ := rfl
  exact ⟨hfirst, rfl, rfl, _, hbuild.trans hg, hg, rfl⟩

end Histories

end Builder

end RuleNetwork
