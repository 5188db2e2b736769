import RuleNetwork.Grammar.Document
import RuleNetwork.Proofs.Attempt
import RuleNetwork.Proofs.Container
import RuleNetwork.Proofs.Json.Written

/-!
What a document says of a grammar: which fields it has, what each may hold and what stands for one that is
left out. The keys of an object are all different, in any order, and others than those that are known may
stand among them.

The document that is written of a grammar describes it and nests no deeper than five containers, and what
describes a grammar is read as that grammar.
-/

set_option autoImplicit false

namespace RuleNetwork.Json

/-- Which values describe a thing. -/
abbrev Sense (α : Type) : Type := Json → α → Prop

section Senses

variable {α : Type}

namespace Sense

def int : Sense Int := fun v i => v = .int i

def string : Sense String := fun v s => v = .str s

def bool : Sense Bool := fun v b => v = .bool b

def name (f : α → String) : Sense α := fun v a => v = .str (f a)

def list (s : Sense α) : Sense (List α) := fun v l => ∃ items, v = .arr items ∧ List.Forall₂ s items l

def option (s : Sense α) : Sense (Option α) := fun v o => v = .null ∧ o = none ∨ ∃ a, s v a ∧ o = some a

/-- An object with different keys, by what its fields say. -/
def record (stated : List (String × Json) → α → Prop) : Sense α :=
  fun v a => ∃ fields, v = .obj fields ∧ (fields.map Prod.fst).Nodup ∧ stated fields a

end Sense

variable (fields : List (String × Json)) (key : String) (s : Sense α)

/-- One of the fields says what a thing is. -/
def Field (a : α) : Prop := ∃ v, (key, v) ∈ fields ∧ s v a

/-- A field says what a thing is, or there is none and it is the usual one. -/
def FieldOr (usual a : α) : Prop := Field fields key s a ∨ key ∉ fields.map Prod.fst ∧ a = usual

end Senses

section Writing

variable {α : Type} {s : Sense α} {f : α → Json}

theorem sense_ofList {l : List α} (h : ∀ a ∈ l, s (f a) a) : Sense.list s (ofList f l) l :=
  ⟨_, rfl, List.forall₂_map_left_iff.2 (List.forall₂_same.2 h)⟩

theorem sense_ofStrings (l : List String) : Sense.list .string (ofStrings l) l :=
  sense_ofList fun _ _ => rfl

theorem sense_ofOption (f : α → Json) (h : ∀ a, s (f a) a) (o : Option α) :
    Sense.option s (ofOption f o) o := by
  cases o with
  | none => exact .inl ⟨rfl, rfl⟩
  | some a => exact .inr ⟨a, h a, rfl⟩

theorem sense_ofOptionInt (o : Option Int) : Sense.option .int (ofOption .int o) o :=
  sense_ofOption .int (fun _ => rfl) o

theorem sense_ofOptionString (o : Option String) : Sense.option .string (ofOption .str o) o :=
  sense_ofOption .str (fun _ => rfl) o

/-- A field that is written says what its value says. -/
theorem field_of_mem {fields : List (String × Json)} {key : String} {v : Json} {a : α} (h : s v a)
    (hmem : (key, v) ∈ fields) : Field fields key s a := ⟨v, hmem, h⟩

end Writing

section Reading

variable {α : Type} {s : Sense α} {read : Json → Fit α}

/-- Whatever describes a thing is read as that thing. -/
def Sense.ReadBy (s : Sense α) (read : Json → Fit α) : Prop := ∀ v a, s v a → read v = .ok a

theorem readBy_int : Sense.int.ReadBy asInt := fun _ _ h => h ▸ rfl

theorem readBy_string : Sense.string.ReadBy asString := fun _ _ h => h ▸ rfl

theorem readBy_bool : Sense.bool.ReadBy asBool := fun _ _ h => h ▸ rfl

theorem readBy_name {f : α → String} {all : List α} (h : ∀ a, asOneOf f all (.str (f a)) = .ok a) :
    (Sense.name f).ReadBy (asOneOf f all) := fun _ a hv => hv ▸ h a

theorem readBy_list (h : s.ReadBy read) : (Sense.list s).ReadBy (asList read) := by
  rintro _ l ⟨items, rfl, hitems⟩
  have hfrom (i : Nat) : itemsFrom read i items = .ok l := by
    induction hitems generalizing i with
    | nil => rfl
    | cons ha _ ih =>
      rw [itemsFrom, h _ _ ha, ih]
      rfl
  exact hfrom 0

/-- What describes a thing is not taken for the absence of one. -/
theorem readBy_option (h : s.ReadBy read) (hnull : ∀ a, ¬ s .null a) :
    (Sense.option s).ReadBy (nullable read) := by
  rintro v _ (⟨rfl, rfl⟩ | ⟨a, ha, rfl⟩)
  · rfl
  · have hread : nullable read v = (read v).map some := by
      unfold nullable
      split
      · exact absurd ha (hnull a)
      · rfl
    rw [hread, h v a ha]
    rfl

variable {fields : List (String × Json)} (hkeys : (fields.map Prod.fst).Nodup) {key : String} {a : α}
include hkeys

/-- A field is found by its key. -/
theorem lookup_of_mem {v : Json} (h : (key, v) ∈ fields) : lookup fields key = some v := by
  have hreverse : (fields.reverse.map Prod.fst).Nodup := by
    rwa [List.map_reverse, List.nodup_reverse]
  have hfind := (find?_eq_some_iff_of_nodup hreverse fun _ => beq_iff_eq).2
    ⟨List.mem_reverse.2 h, rfl⟩
  rw [lookup, field?, hfind]
  rfl

theorem Field.required (h : Field fields key s a) (hread : s.ReadBy read) :
    Json.required fields key read = .ok a := by
  obtain ⟨v, hv, ha⟩ := h
  unfold Json.required
  rw [lookup_of_mem hkeys hv]
  show under key (read v) = _
  rw [hread v a ha]
  rfl

theorem FieldOr.absentOr {usual : α} (h : FieldOr fields key s usual a) (hread : s.ReadBy read) :
    Json.absentOr fields key usual read = .ok a := by
  unfold Json.absentOr
  obtain ⟨v, hv, ha⟩ | ⟨hkey, rfl⟩ := h
  · rw [lookup_of_mem hkeys hv]
    show under key (read v) = _
    rw [hread v a ha]
    rfl
  · have hnone : lookup fields key = none := by
      refine Option.map_eq_none_iff.2 (List.find?_eq_none.2 fun e he heq => hkey ?_)
      exact List.mem_map.2 ⟨e, List.mem_reverse.1 he, by simpa using heq⟩
    rw [hnone]

end Reading

theorem readBy_optionInt : (Sense.option .int).ReadBy (nullable asInt) :=
  readBy_option readBy_int fun _ => nofun

theorem readBy_optionString : (Sense.option .string).ReadBy (nullable asString) :=
  readBy_option readBy_string fun _ => nofun

end RuleNetwork.Json

namespace RuleNetwork

open Json (Sense Field FieldOr readBy_int readBy_string readBy_bool readBy_name readBy_list
  readBy_optionInt readBy_optionString field_of_mem sense_ofList sense_ofStrings sense_ofOptionInt
  sense_ofOptionString)

/-- What the fields of an object say of a transition. -/
structure Transition.Stated (o : List (String × Json)) (t : Transition) : Prop where
  kind : Field o "kind" (.name TransitionKind.name) t.kind
  target : Field o "target" .int t.target
  tokens : FieldOr o "tokens" (.list .string) [] t.tokens
  rule : FieldOr o "rule" (.option .int) none t.rule
  follow : FieldOr o "follow" (.option .int) none t.follow
  predicate : FieldOr o "predicate" (.option .string) none t.predicate

def Transition.described : Sense Transition := .record Transition.Stated

structure State.Stated (o : List (String × Json)) (s : State) : Prop where
  id : Field o "id" .int s.id
  rule : Field o "rule" .int s.rule
  kind : FieldOr o "kind" (.name StateKind.name) .basic s.kind
  transitions : FieldOr o "transitions" (.list .int) [] s.transitions

def State.described : Sense State := .record State.Stated

structure Network.Stated (o : List (String × Json)) (n : Network) : Prop where
  states : FieldOr o "states" (.list State.described) [] n.states.toList
  transitions : FieldOr o "transitions" (.list Transition.described) [] n.transitions.toList

def Network.described : Sense Network := .record Network.Stated

structure Rule.Stated (o : List (String × Json)) (r : Rule) : Prop where
  index : Field o "index" .int r.index
  name : Field o "name" .string r.name
  kind : FieldOr o "kind" (.name RuleKind.name) .parser r.kind
  alternatives : FieldOr o "alternative_count" .int 1 r.alternatives
  start : Field o "start_state" .int r.start
  stop : Field o "stop_state" .int r.stop
  line : FieldOr o "line" (.option .int) none r.line

def Rule.described : Sense Rule := .record Rule.Stated

structure TokenType.Stated (o : List (String × Json)) (t : TokenType) : Prop where
  name : Field o "name" .string t.name
  pattern : Field o "pattern" .string t.pattern
  isLiteral : FieldOr o "is_literal" .bool false t.isLiteral
  skip : FieldOr o "skip" .bool false t.skip

def TokenType.described : Sense TokenType := .record TokenType.Stated

structure Grammar.Stated (o : List (String × Json)) (g : Grammar) : Prop where
  name : Field o "name" .string g.name
  rules : FieldOr o "rules" (.list Rule.described) [] g.rules.toList
  network : FieldOr o "automaton" Network.described {} g.network
  tokens : FieldOr o "tokens" (.list TokenType.described) [] g.tokens
  entryRules : FieldOr o "entry_rules" (.list .string) [] g.entryRules

/-- What a value says of a grammar. -/
def Grammar.described : Sense Grammar := .record Grammar.Stated

section Writing

theorem Transition.described_toJson (t : Transition) : Transition.described t.toJson t := by
  refine ⟨_, rfl, by simp, ?_⟩
  constructor
  · exact field_of_mem rfl (by simp)
  · exact field_of_mem rfl (by simp)
  · exact .inl (field_of_mem (sense_ofStrings t.tokens) (by simp))
  · exact .inl (field_of_mem (sense_ofOptionInt t.rule) (by simp))
  · exact .inl (field_of_mem (sense_ofOptionInt t.follow) (by simp))
  · exact .inl (field_of_mem (sense_ofOptionString t.predicate) (by simp))

theorem State.described_toJson (s : State) : State.described s.toJson s := by
  refine ⟨_, rfl, by simp, ?_⟩
  constructor
  · exact field_of_mem rfl (by simp)
  · exact field_of_mem rfl (by simp)
  · exact .inl (field_of_mem rfl (by simp))
  · exact .inl (field_of_mem (sense_ofList fun _ _ => rfl) (by simp))

theorem Network.described_toJson (n : Network) : Network.described n.toJson n := by
  refine ⟨_, rfl, by simp, ?_⟩
  constructor
  · exact .inl (field_of_mem (sense_ofList fun s _ => s.described_toJson) (by simp))
  · exact .inl (field_of_mem (sense_ofList fun t _ => t.described_toJson) (by simp))

theorem Rule.described_toJson (r : Rule) : Rule.described r.toJson r := by
  refine ⟨_, rfl, by simp, ?_⟩
  constructor
  · exact field_of_mem rfl (by simp)
  · exact field_of_mem rfl (by simp)
  · exact .inl (field_of_mem rfl (by simp))
  · exact .inl (field_of_mem rfl (by simp))
  · exact field_of_mem rfl (by simp)
  · exact field_of_mem rfl (by simp)
  · exact .inl (field_of_mem (sense_ofOptionInt r.line) (by simp))

theorem TokenType.described_toJson (t : TokenType) : TokenType.described t.toJson t := by
  refine ⟨_, rfl, by simp, ?_⟩
  constructor
  · exact field_of_mem rfl (by simp)
  · exact field_of_mem rfl (by simp)
  · exact .inl (field_of_mem rfl (by simp))
  · exact .inl (field_of_mem rfl (by simp))

/-- The document of a grammar describes it. -/
theorem Grammar.described_toJson (g : Grammar) : Grammar.described g.toJson g := by
  refine ⟨_, rfl, by simp, ?_⟩
  constructor
  · exact field_of_mem rfl (by simp)
  · exact .inl (field_of_mem (sense_ofList fun r _ => r.described_toJson) (by simp))
  · exact .inl (field_of_mem g.network.described_toJson (by simp))
  · exact .inl (field_of_mem (sense_ofList fun t _ => t.described_toJson) (by simp))
  · exact .inl (field_of_mem (sense_ofStrings g.entryRules) (by simp))

end Writing

section Reading

theorem Transition.readBy : Transition.described.ReadBy Transition.ofJson := by
  rintro _ t ⟨o, rfl, hkeys, h⟩
  have hkind : (Sense.name TransitionKind.name).ReadBy
      (Json.asOneOf TransitionKind.name TransitionKind.all) := readBy_name fun k => by cases k <;> rfl
  refine bind_eq_ok.2 ⟨_, rfl, ?_⟩
  refine bind_eq_ok.2 ⟨t.kind, h.kind.required hkeys hkind, ?_⟩
  refine bind_eq_ok.2 ⟨t.target, h.target.required hkeys readBy_int, ?_⟩
  refine bind_eq_ok.2 ⟨t.tokens, h.tokens.absentOr hkeys (readBy_list readBy_string), ?_⟩
  refine bind_eq_ok.2 ⟨t.rule, h.rule.absentOr hkeys readBy_optionInt, ?_⟩
  refine bind_eq_ok.2 ⟨t.follow, h.follow.absentOr hkeys readBy_optionInt, ?_⟩
  exact bind_eq_ok.2 ⟨t.predicate, h.predicate.absentOr hkeys readBy_optionString, rfl⟩

theorem State.readBy : State.described.ReadBy State.ofJson := by
  rintro _ s ⟨o, rfl, hkeys, h⟩
  have hkind : (Sense.name StateKind.name).ReadBy (Json.asOneOf StateKind.name StateKind.all) :=
    readBy_name fun k => by cases k <;> rfl
  refine bind_eq_ok.2 ⟨_, rfl, ?_⟩
  refine bind_eq_ok.2 ⟨s.id, h.id.required hkeys readBy_int, ?_⟩
  refine bind_eq_ok.2 ⟨s.rule, h.rule.required hkeys readBy_int, ?_⟩
  refine bind_eq_ok.2 ⟨s.kind, h.kind.absentOr hkeys hkind, ?_⟩
  exact bind_eq_ok.2 ⟨s.transitions, h.transitions.absentOr hkeys (readBy_list readBy_int), rfl⟩

theorem Network.readBy : Network.described.ReadBy Network.ofJson := by
  rintro _ n ⟨o, rfl, hkeys, h⟩
  refine bind_eq_ok.2 ⟨_, rfl, ?_⟩
  refine bind_eq_ok.2 ⟨n.states.toList, h.states.absentOr hkeys (readBy_list State.readBy), ?_⟩
  exact bind_eq_ok.2
    ⟨n.transitions.toList, h.transitions.absentOr hkeys (readBy_list Transition.readBy), rfl⟩

theorem Rule.readBy : Rule.described.ReadBy Rule.ofJson := by
  rintro _ r ⟨o, rfl, hkeys, h⟩
  have hkind : (Sense.name RuleKind.name).ReadBy (Json.asOneOf RuleKind.name RuleKind.all) :=
    readBy_name fun k => by cases k <;> rfl
  refine bind_eq_ok.2 ⟨_, rfl, ?_⟩
  refine bind_eq_ok.2 ⟨r.index, h.index.required hkeys readBy_int, ?_⟩
  refine bind_eq_ok.2 ⟨r.name, h.name.required hkeys readBy_string, ?_⟩
  refine bind_eq_ok.2 ⟨r.kind, h.kind.absentOr hkeys hkind, ?_⟩
  refine bind_eq_ok.2 ⟨r.alternatives, h.alternatives.absentOr hkeys readBy_int, ?_⟩
  refine bind_eq_ok.2 ⟨r.start, h.start.required hkeys readBy_int, ?_⟩
  refine bind_eq_ok.2 ⟨r.stop, h.stop.required hkeys readBy_int, ?_⟩
  exact bind_eq_ok.2 ⟨r.line, h.line.absentOr hkeys readBy_optionInt, rfl⟩

theorem TokenType.readBy : TokenType.described.ReadBy TokenType.ofJson := by
  rintro _ t ⟨o, rfl, hkeys, h⟩
  refine bind_eq_ok.2 ⟨_, rfl, ?_⟩
  refine bind_eq_ok.2 ⟨t.name, h.name.required hkeys readBy_string, ?_⟩
  refine bind_eq_ok.2 ⟨t.pattern, h.pattern.required hkeys readBy_string, ?_⟩
  refine bind_eq_ok.2 ⟨t.isLiteral, h.isLiteral.absentOr hkeys readBy_bool, ?_⟩
  exact bind_eq_ok.2 ⟨t.skip, h.skip.absentOr hkeys readBy_bool, rfl⟩

/-- A value that describes a grammar is read as that grammar. -/
theorem Grammar.readBy : Grammar.described.ReadBy Grammar.ofJson := by
  rintro _ g ⟨o, rfl, hkeys, h⟩
  refine bind_eq_ok.2 ⟨_, rfl, ?_⟩
  refine bind_eq_ok.2 ⟨g.name, h.name.required hkeys readBy_string, ?_⟩
  refine bind_eq_ok.2 ⟨g.rules.toList, h.rules.absentOr hkeys (readBy_list Rule.readBy), ?_⟩
  refine bind_eq_ok.2 ⟨g.network, h.network.absentOr hkeys Network.readBy, ?_⟩
  refine bind_eq_ok.2 ⟨g.tokens, h.tokens.absentOr hkeys (readBy_list TokenType.readBy), ?_⟩
  exact bind_eq_ok.2 ⟨g.entryRules, h.entryRules.absentOr hkeys (readBy_list readBy_string), rfl⟩

end Reading

section Depth

open Json (nests_ofList nests_ofOption)

theorem Transition.nests (t : Transition) : t.toJson.Nests 2 := by
  refine .obj ?_
  simp only [List.forall_mem_cons]
  exact ⟨.str _, .int _, nests_ofList fun _ _ => .str _, nests_ofOption .int _, nests_ofOption .int _,
    nests_ofOption .str _, nofun⟩

theorem State.nests (s : State) : s.toJson.Nests 2 := by
  refine .obj ?_
  simp only [List.forall_mem_cons]
  exact ⟨.int _, .int _, .str _, nests_ofList fun _ _ => .int _, nofun⟩

theorem Network.nests (n : Network) : n.toJson.Nests 4 := by
  refine .obj ?_
  simp only [List.forall_mem_cons]
  exact ⟨nests_ofList fun s _ => s.nests, nests_ofList fun t _ => t.nests, nofun⟩

theorem Rule.nests (r : Rule) : r.toJson.Nests 1 := by
  refine .obj ?_
  simp only [List.forall_mem_cons]
  exact ⟨.int _, .str _, .str _, .int _, .int _, .int _, nests_ofOption .int _, nofun⟩

theorem TokenType.nests (t : TokenType) : t.toJson.Nests 1 := by
  refine .obj ?_
  simp only [List.forall_mem_cons]
  exact ⟨.str _, .str _, .bool _, .bool _, nofun⟩

theorem Grammar.nests (g : Grammar) : g.toJson.Nests 5 := by
  refine .obj ?_
  simp only [List.forall_mem_cons]
  exact ⟨.str _, nests_ofList fun r _ => r.nests.mono (by decide), g.network.nests,
    nests_ofList fun t _ => t.nests.mono (by decide), nests_ofList fun _ _ => .str _, nofun⟩

end Depth

end RuleNetwork
