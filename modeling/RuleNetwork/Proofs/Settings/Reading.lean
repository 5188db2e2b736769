import RuleNetwork.Proofs.Number.Whole
import RuleNetwork.Settings.Basic

/-!
Settings read from any tables. Where every value that is given fits its key, the settings are what the
tables say, and the defaults where they say nothing; else one that does not fit is told by its place.
Two refusals name no place: that of a number of seconds beyond the range of floats, and that of a value
that cannot be shown, for a whole number in it that is too long or because it is nested too deep.
-/

set_option autoImplicit false

namespace RuleNetwork

namespace Settings

open Number

section Showing

mutual

/-- The whole numbers in a value. -/
def Value.ints : Value → List Int
  | .int i => [i]
  | .list items => itemInts items
  | .table rows => rowInts rows
  | .null | .bool _ | .real _ | .text _ | .moment _ => []

def itemInts : List Value → List Int
  | [] => []
  | v :: r => v.ints ++ itemInts r

def rowInts : List (String × Value) → List Int
  | [] => []
  | (_, v) :: r => v.ints ++ rowInts r

end

/-- Some whole number has more digits than are shown. -/
def HasLong (numbers : List Int) : Prop := ∃ i ∈ numbers, Number.isWritable i = false

theorem hasLong_append {l l' : List Int} : HasLong (l ++ l') ↔ HasLong l ∨ HasLong l' := by
  simp only [HasLong, List.mem_append, or_and_right, exists_or]

mutual

/-- How many levels a value takes, one within the other. -/
def Value.depth : Value → Nat
  | .null | .bool _ | .int _ | .real _ | .text _ => 1
  | .moment m => m.levels
  | .list items => 1 + itemDepth items
  | .table rows => 1 + rowDepth rows

def itemDepth : List Value → Nat
  | [] => 0
  | v :: r => max v.depth (itemDepth r)

def rowDepth : List (String × Value) → Nat
  | [] => 0
  | (_, v) :: r => max v.depth (rowDepth r)

end

/-- What keeps something of such a depth, with these whole numbers in it, from being shown. -/
structure Shows {α : Type} (x : Except Unshown α) (room depth : Nat) (numbers : List Int) : Prop where
  ok : ∀ a, x = .ok a → depth ≤ room ∧ ¬ HasLong numbers
  tooLong : x = .error .tooLong → HasLong numbers
  tooDeep : x = .error .tooDeep → room < depth

namespace Shows

variable {α β γ : Type} {room depth depth' : Nat} {numbers numbers' : List Int}

theorem ofOk {a : α} (hdepth : depth ≤ room) (hshort : ¬ HasLong numbers) :
    Shows (.ok a) room depth numbers :=
  ⟨fun _ _ => ⟨hdepth, hshort⟩, nofun, nofun⟩

theorem ofTooLong (h : HasLong numbers) :
    Shows (.error .tooLong : Except Unshown α) room depth numbers :=
  ⟨nofun, fun _ => h, nofun⟩

theorem ofTooDeep (h : room < depth) :
    Shows (.error .tooDeep : Except Unshown α) room depth numbers :=
  ⟨nofun, nofun, fun _ => h⟩

theorem not_hasLong_nil : ¬ HasLong [] := fun ⟨_, hi, _⟩ => List.not_mem_nil hi

theorem nothing (a : α) : Shows (.ok a) room 0 [] := ofOk (Nat.zero_le _) not_hasLong_nil

theorem within (levels : Nat) (text : String) : Shows (Value.within room levels text) room levels [] := by
  unfold Value.within
  split
  · exact ofTooDeep ‹_›
  · exact ofOk (Nat.not_lt.1 ‹_›) not_hasLong_nil

/-- A whole number on its own. -/
theorem whole (i : Int) : Shows ((Value.int i).shown room) room 1 [i] := by
  unfold Value.shown Value.within
  split
  · exact ofTooDeep ‹_›
  · rename_i hroom
    simp only [bind, Except.bind]
    cases hi : Number.isWritable i with
    | true => exact ofOk (Nat.not_lt.1 hroom) (by simp [HasLong, hi])
    | false => exact ofTooLong ⟨i, List.mem_singleton_self i, hi⟩

/-- Something within one level more. -/
theorem inner {x : Except Unshown α} (h : Shows x (room - 1) depth numbers) (text : String) (f : α → β) :
    Shows (do let _ ← Value.within room 1 text; return f (← x)) room (1 + depth) numbers := by
  unfold Value.within
  split
  · exact ofTooDeep (by omega)
  cases x with
  | ok a =>
    obtain ⟨hdepth, hshort⟩ := h.ok a rfl
    exact ofOk (by omega) hshort
  | error why =>
    cases why with
    | tooLong => exact ofTooLong (h.tooLong rfl)
    | tooDeep =>
      have hdeep := h.tooDeep rfl
      exact ofTooDeep (by omega)

/-- Things beside each other are shown in their order. -/
theorem pair {x : Except Unshown α} {y : Except Unshown β} (hx : Shows x room depth numbers)
    (hy : Shows y room depth' numbers') (f : α → β → γ) :
    Shows (do return f (← x) (← y)) room (max depth depth') (numbers ++ numbers') := by
  cases x with
  | ok a =>
    obtain ⟨hdepth, hshort⟩ := hx.ok a rfl
    cases y with
    | ok b =>
      obtain ⟨hdepth', hshort'⟩ := hy.ok b rfl
      exact ofOk (Nat.max_le.2 ⟨hdepth, hdepth'⟩) fun hlong =>
        (hasLong_append.1 hlong).elim hshort hshort'
    | error why =>
      cases why with
      | tooLong => exact ofTooLong (hasLong_append.2 (.inr (hy.tooLong rfl)))
      | tooDeep => exact ofTooDeep (Nat.lt_of_lt_of_le (hy.tooDeep rfl) (Nat.le_max_right ..))
  | error why =>
    cases why with
    | tooLong => exact ofTooLong (hasLong_append.2 (.inl (hx.tooLong rfl)))
    | tooDeep => exact ofTooDeep (Nat.lt_of_lt_of_le (hx.tooDeep rfl) (Nat.le_max_left ..))

end Shows

mutual

/-- A value is shown unless it is nested too deep or there is a whole number in it that is too long. -/
theorem Value.shows (room : Nat) : ∀ v : Value, Shows (v.shown room) room v.depth v.ints
  | .null | .bool true | .bool false | .real _ | .text _ => .within 1 _
  | .moment m => .within m.levels _
  | .int i => .whole i
  | .list items => (shows_items (room - 1) items).inner _ _
  | .table rows => (shows_rows (room - 1) rows).inner _ _

theorem shows_items (room : Nat) :
    ∀ l : List Value, Shows (Value.shownItems room l) room (itemDepth l) (itemInts l)
  | [] => .nothing _
  | v :: r => (v.shows room).pair (shows_items room r) _

theorem shows_rows (room : Nat) :
    ∀ l : List (String × Value), Shows (Value.shownRows room l) room (rowDepth l) (rowInts l)
  | [] => .nothing _
  | (k, v) :: r => (v.shows room).pair (shows_rows room r) fun given shown =>
    (Text.quoted k ++ ": " ++ given) :: shown

end

end Showing

section Keys

inductive Key where
  | entryRules
  | firstDecisionOnly
  | verifyLeftmost
  | sampleTimeout
  | maxWorkers
  | maxEntries
  | level

def Key.group : Key → String
  | .entryRules | .firstDecisionOnly | .verifyLeftmost => "analysis"
  | .sampleTimeout | .maxWorkers => "profiler"
  | .maxEntries => "cache"
  | .level => "logging"

def Key.name : Key → String
  | .entryRules => "entry_rules"
  | .firstDecisionOnly => "first_decision_only"
  | .verifyLeftmost => "verify_leftmost"
  | .sampleTimeout => "sample_timeout_seconds"
  | .maxWorkers => "max_workers"
  | .maxEntries => "max_entries"
  | .level => "level"

/-- The value given for a key, if there is one. -/
def Key.given (k : Key) (rows : Rows) : Option Value :=
  match lookup rows k.group with
  | some (.table inner) => lookup inner k.name
  | _ => none

def Value.IsNames (v : Value) (names : List String) : Prop := v = .list (names.map .text)

def Value.IsFlag (v : Value) (flag : Bool) : Prop := v = .bool flag

/-- A number of seconds, as a float, that is not zero or less. -/
def Value.IsSeconds (v : Value) (x : Binary64) : Prop :=
  (v = .real x ∨ ∃ i, v = .int i ∧ Binary64.ofInt? i = some x) ∧ x.nonpositive = false

def Value.IsCount (v : Value) (n : Int) : Prop := v = .int n ∧ 1 ≤ n

def Value.IsLevel (v : Value) (l : LogLevel) : Prop := ∃ given, v = .text given ∧ Text.upper given = l.name

/-- The values that a key may have. -/
def Key.Fits (v : Value) : Key → Prop
  | .entryRules => ∃ names, v.IsNames names
  | .firstDecisionOnly | .verifyLeftmost => ∃ flag, v.IsFlag flag
  | .sampleTimeout => ∃ x, v.IsSeconds x
  | .maxWorkers | .maxEntries => ∃ n, v.IsCount n
  | .level => ∃ l, v.IsLevel l

/-- What is given is taken as it says, and in its absence the default. -/
def Carried {α : Type} (given : Option Value) (takes : Value → α → Prop) (absent a : α) : Prop :=
  match given with
  | some v => takes v a
  | none => a = absent

/-- The settings are what the tables say. -/
structure Carries (rows : Rows) (s : Settings) : Prop where
  entryRules : Carried (Key.entryRules.given rows) Value.IsNames ({} : Settings).entryRules s.entryRules
  firstDecisionOnly : Carried (Key.firstDecisionOnly.given rows) Value.IsFlag
    ({} : Settings).firstDecisionOnly s.firstDecisionOnly
  verifyLeftmost : Carried (Key.verifyLeftmost.given rows) Value.IsFlag ({} : Settings).verifyLeftmost
    s.verifyLeftmost
  sampleTimeout : Carried (Key.sampleTimeout.given rows) Value.IsSeconds ({} : Settings).sampleTimeout
    s.sampleTimeout
  maxWorkers : Carried (Key.maxWorkers.given rows) Value.IsCount ({} : Settings).maxWorkers s.maxWorkers
  maxEntries : Carried (Key.maxEntries.given rows) Value.IsCount ({} : Settings).maxEntries s.maxEntries
  level : Carried (Key.level.given rows) Value.IsLevel ({} : Settings).level s.level

end Keys

section Misfits

/-- The place of something that is given and does not fit. -/
inductive Offends (rows : Rows) : String → Prop where
  | group {k : Key} {v : Value} (h : lookup rows k.group = some v) (hv : ∀ inner, v ≠ .table inner) :
      Offends rows k.group
  | key {k : Key} {v : Value} (h : k.given rows = some v) (hv : ¬ k.Fits v) :
      Offends rows (k.group ++ "." ++ k.name)

/-- The place that a message begins with. -/
def Misfit.place? : Misfit → Option String
  | .notTable group => some group
  | .wrongKind group key _ _ | .belowOne group key _ => some (group ++ "." ++ key)
  | .notRuleNames _ => some "analysis.entry_rules"
  | .notPositive _ => some "profiler.sample_timeout_seconds"
  | .unknownLevel _ => some "logging.level"
  | .tooLarge | .unshown _ => none

theorem begins_of_place? {m : Misfit} {place : String} (h : m.place? = some place) :
    ∃ rest, m.message = place ++ ": " ++ rest := by
  have hsplit : (": expected " : String) = ": " ++ "expected " := by decide
  cases m with
  | notTable group =>
    cases h
    refine ⟨"expected a table", ?_⟩
    rw [String.append_assoc]
    rfl
  | wrongKind group key kind given =>
    cases h
    refine ⟨"expected " ++ kind.name ++ ", got " ++ given, ?_⟩
    change group ++ "." ++ key ++ ": expected " ++ kind.name ++ ", got " ++ given = _
    rw [hsplit]
    simp only [String.append_assoc]
  | belowOne group key given =>
    cases h
    refine ⟨"must be at least 1, got " ++ given, ?_⟩
    change group ++ "." ++ key ++ (": " ++ "must be at least 1, got ") ++ given = _
    simp only [String.append_assoc]
  | notRuleNames given =>
    cases h
    refine ⟨"expected a list of rule names, got " ++ given, ?_⟩
    rw [← String.append_assoc]
    rfl
  | notPositive given =>
    cases h
    refine ⟨"must be positive, got " ++ given, ?_⟩
    rw [← String.append_assoc]
    rfl
  | unknownLevel given =>
    cases h
    refine ⟨"expected one of " ++ ", ".intercalate (LogLevel.all.map LogLevel.name) ++ ", got " ++ given, ?_⟩
    rw [← String.append_assoc, ← String.append_assoc, ← String.append_assoc]
    rfl
  | tooLarge => cases h
  | unshown => cases h

/-- Why tables are refused: something that does not fit is told by its place, or it is a number of
seconds beyond the range of floats, or it cannot be shown. -/
inductive Told (room : Nat) (rows : Rows) (m : Misfit) : Prop where
  | place {place : String} (h : Offends rows place) (hm : m.place? = some place)
  | tooLarge {i : Int} (hi : 0 < i) (h : Key.sampleTimeout.given rows = some (.int i))
      (hx : Binary64.ofInt? i = none) (hm : m = .tooLarge)
  | tooLong {k : Key} {v : Value} (h : k.given rows = some v) (hv : ¬ k.Fits v) (hlong : HasLong v.ints)
      (hm : m = .unshown .tooLong)
  | tooDeep {k : Key} {v : Value} (h : k.given rows = some v) (hv : ¬ k.Fits v) (hdeep : room < v.depth)
      (hm : m = .unshown .tooDeep)

/-- A value that does not fit is refused. It may be shown in another form, as deep and with the same whole
numbers in it. -/
theorem told_refusal {room : Nat} {rows : Rows} {k : Key} {v shown : Value} (h : k.given rows = some v)
    (hv : ¬ k.Fits v) (hdepth : shown.depth = v.depth) (hints : shown.ints = v.ints)
    {misfit : String → Misfit} (hplace : ∀ given, (misfit given).place? = some (k.group ++ "." ++ k.name)) :
    Told room rows (refusal room shown misfit) := by
  have hshows := shown.shows room
  rw [hdepth, hints] at hshows
  unfold refusal
  cases hshown : shown.shown room with
  | ok given => exact .place (.key h hv) (hplace given)
  | error why =>
    rw [hshown] at hshows
    cases why with
    | tooLong => exact .tooLong h hv (hshows.tooLong rfl) rfl
    | tooDeep => exact .tooDeep h hv (hshows.tooDeep rfl) rfl

/-- A step that gives something of which this is known, or refuses the tables. -/
def Gives {α : Type} (room : Nat) (rows : Rows) (x : Except Misfit α) (P : α → Prop) : Prop :=
  (∃ a, x = .ok a ∧ P a) ∨ ∃ m, x = .error m ∧ Told room rows m

namespace Gives

variable {α β : Type} {room : Nat} {rows : Rows} {x : Except Misfit α} {P : α → Prop} {R : β → Prop}

theorem ok {a : α} (h : P a) : Gives room rows (.ok a) P := .inl ⟨a, rfl, h⟩

theorem error {m : Misfit} (h : Told room rows m) : Gives room rows (.error m) P := .inr ⟨m, rfl, h⟩

theorem mono {P' : α → Prop} (h : Gives room rows x P) (hP : ∀ a, P a → P' a) : Gives room rows x P' := by
  obtain ⟨a, hx, ha⟩ | hm := h
  · exact .inl ⟨a, hx, hP a ha⟩
  · exact .inr hm

theorem bind {f : α → Except Misfit β} (h : Gives room rows x P) (hf : ∀ a, P a → Gives room rows (f a) R) :
    Gives room rows (x >>= f) R := by
  obtain ⟨a, rfl, ha⟩ | ⟨m, rfl, hm⟩ := h
  · exact hf a ha
  · exact .error hm

end Gives

end Misfits

section Steps

variable {room : Nat} {rows inner : Rows} {k : Key}

/-- A section that is given has to be a table. -/
theorem gives_group (k : Key) : Gives room rows (group rows k.group) fun inner =>
    ∀ k' : Key, k'.group = k.group → k'.given rows = lookup inner k'.name := by
  unfold group
  cases hgroup : lookup rows k.group with
  | none =>
    refine .ok fun k' hk => ?_
    unfold Key.given
    rw [hk, hgroup]
    rfl
  | some v =>
    cases v with
    | table inner =>
      refine .ok fun k' hk => ?_
      unfold Key.given
      rw [hk, hgroup]
    | null | bool | int | real | text | moment | list =>
      exact .error (.place (.group hgroup fun inner h => by cases h) rfl)

/-- A value that is given has to be of the kind of its key. -/
theorem gives_read (hk : k.given rows = lookup inner k.name) {α : Type} {take : Value → Option α}
    (kind : Kind) (hbad : ∀ v, take v = none → ¬ k.Fits v) :
    Gives room rows (read room inner k.group k.name kind take) fun o => k.given rows = none ∧ o = none ∨
      ∃ v a, k.given rows = some v ∧ take v = some a ∧ o = some a := by
  unfold read
  rw [← hk]
  cases hgiven : k.given rows with
  | none => exact .ok (.inl ⟨rfl, rfl⟩)
  | some v =>
    simp only
    cases htake : take v with
    | none => exact .error (told_refusal hgiven (hbad v htake) rfl rfl fun _ => rfl)
    | some a => exact .ok (.inr ⟨v, a, rfl, htake, rfl⟩)

theorem mapM_text?_eq_some {items : List Value} {names : List String} :
    items.mapM text? = some names ↔ items = names.map .text := by
  have hone : ∀ v name, text? v = some name ↔ v = .text name := fun v name => by
    cases v <;> simp [text?]
  induction items generalizing names with
  | nil => cases names <;> simp
  | cons v r ih =>
    rw [List.mapM_cons]
    simp only [Option.bind_eq_bind, Option.bind_eq_some_iff, hone, ih, Option.pure_def,
      Option.some.injEq]
    constructor
    · rintro ⟨name, rfl, rest, rfl, rfl⟩
      rfl
    · intro h
      cases names with
      | nil => cases h
      | cons name rest =>
        cases h
        exact ⟨name, rfl, rest, rfl, rfl⟩

theorem gives_entryRules (hk : Key.entryRules.given rows = lookup inner Key.entryRules.name) :
    Gives room rows (readEntryRules room inner)
      (Carried (Key.entryRules.given rows) Value.IsNames ({} : Settings).entryRules) := by
  refine (gives_read hk .list fun v hv => ?_).bind fun o ho => ?_
  · rintro ⟨names, rfl⟩
    cases hv
  obtain ⟨hgiven, rfl⟩ | ⟨v, items, hgiven, htake, rfl⟩ := ho
  · rw [hgiven]
    exact .ok rfl
  have hv : v = .list items := by
    cases v <;> cases htake
    rfl
  subst hv
  simp only [Option.getD_some]
  cases hnames : items.mapM text? with
  | some names =>
    refine .ok ?_
    rw [hgiven]
    exact congrArg Value.list (mapM_text?_eq_some.1 hnames)
  | none =>
    refine .error (told_refusal hgiven ?_ rfl rfl fun _ => rfl)
    rintro ⟨names, hlist⟩
    rw [mapM_text?_eq_some.2 (Value.list.inj hlist)] at hnames
    cases hnames

theorem gives_flag (hk : k.given rows = lookup inner k.name)
    (hfits : ∀ v, k.Fits v → ∃ flag, v.IsFlag flag) (absent : Bool) :
    Gives room rows (read room inner k.group k.name .bool bool?) fun o =>
      Carried (k.given rows) Value.IsFlag absent (o.getD absent) := by
  refine (gives_read hk .bool fun v hv hfit => ?_).mono fun o ho => ?_
  · obtain ⟨flag, rfl⟩ := hfits v hfit
    cases hv
  obtain ⟨hgiven, rfl⟩ | ⟨v, flag, hgiven, htake, rfl⟩ := ho
  · rw [hgiven]
    rfl
  · rw [hgiven]
    cases v <;> cases htake
    rfl

/-- Seconds are read as they are given. -/
theorem gives_timeout (hk : Key.sampleTimeout.given rows = lookup inner Key.sampleTimeout.name) :
    Gives room rows (readTimeout room inner) fun s => s.nonpositive = false ∧
      Carried (Key.sampleTimeout.given rows) (fun v s => v = ofSeconds s)
        (.real ({} : Settings).sampleTimeout) s := by
  refine (gives_read hk .number fun v hv => ?_).bind fun o ho => ?_
  · rintro ⟨x, rfl | ⟨i, rfl, -⟩, -⟩ <;> cases hv
  obtain ⟨hgiven, rfl⟩ | ⟨v, s, hgiven, htake, rfl⟩ := ho
  · rw [hgiven]
    exact .ok ⟨by decide, rfl⟩
  have hv : v = ofSeconds s := by
    cases v <;> cases htake <;> rfl
  subst hv
  simp only [Option.getD_some]
  rw [hgiven]
  cases hs : s.nonpositive with
  | false => exact .ok ⟨hs, rfl⟩
  | true =>
    refine .error (told_refusal hgiven ?_ rfl rfl fun _ => rfl)
    rintro ⟨x, hx, hpositive⟩
    cases s with
    | real y =>
      obtain hx | ⟨i, hi, -⟩ := hx
      · cases hx
        rw [show x.nonpositive = true from hs] at hpositive
        cases hpositive
      · cases hi
    | whole i =>
      obtain hx | ⟨i', hi, hx⟩ := hx
      · cases hx
      · cases hi
        rw [(Binary64.ofInt?_spec hx).2 (of_decide_eq_true hs)] at hpositive
        cases hpositive

theorem gives_seconds {s : Seconds} (hs : s.nonpositive = false)
    (hgiven : Carried (Key.sampleTimeout.given rows) (fun v s => v = ofSeconds s)
      (.real ({} : Settings).sampleTimeout) s) :
    Gives room rows (realSeconds s)
      (Carried (Key.sampleTimeout.given rows) Value.IsSeconds ({} : Settings).sampleTimeout) := by
  unfold realSeconds
  cases hv : Key.sampleTimeout.given rows with
  | none =>
    rw [hv] at hgiven
    obtain rfl : s = .real ({} : Settings).sampleTimeout := hgiven
    exact .ok rfl
  | some v =>
    rw [hv] at hgiven
    obtain rfl : v = ofSeconds s := hgiven
    cases s with
    | real x => exact .ok ⟨.inl rfl, hs⟩
    | whole i =>
      have hi : 0 < i := Int.not_le.1 (of_decide_eq_false hs)
      cases hx : Binary64.ofInt? i with
      | some x =>
        simp only [Seconds.toReal?, hx]
        exact .ok ⟨.inr ⟨i, rfl, hx⟩, ((Binary64.ofInt?_spec hx).1 hi).nonpositive⟩
      | none =>
        simp only [Seconds.toReal?, hx]
        exact .error (.tooLarge hi hv hx rfl)

theorem gives_count (hk : k.given rows = lookup inner k.name)
    (hfits : ∀ v, k.Fits v ↔ ∃ n, v.IsCount n) {absent : Int} (habsent : 1 ≤ absent) :
    Gives room rows (readAtLeastOne room inner k.group k.name absent)
      (Carried (k.given rows) Value.IsCount absent) := by
  refine (gives_read hk .int fun v hv hfit => ?_).bind fun o ho => ?_
  · obtain ⟨n, rfl, -⟩ := (hfits v).1 hfit
    cases hv
  obtain ⟨hgiven, rfl⟩ | ⟨v, n, hgiven, htake, rfl⟩ := ho
  · rw [hgiven, Option.getD_none, if_neg (by omega)]
    exact .ok rfl
  have hv : v = .int n := by
    cases v <;> cases htake
    rfl
  subst hv
  simp only [Option.getD_some]
  by_cases hn : n < 1
  · rw [if_pos hn]
    refine .error (told_refusal hgiven (fun hfit => ?_) rfl rfl fun _ => rfl)
    obtain ⟨n', hint, hn'⟩ := (hfits _).1 hfit
    cases hint
    omega
  · rw [if_neg hn, hgiven]
    exact .ok ⟨rfl, by omega⟩

theorem gives_level (hk : Key.level.given rows = lookup inner Key.level.name) :
    Gives room rows (readLevel room inner)
      (Carried (Key.level.given rows) Value.IsLevel ({} : Settings).level) := by
  refine (gives_read hk .text fun v hv => ?_).bind fun o ho => ?_
  · rintro ⟨l, given, rfl, -⟩
    cases hv
  obtain ⟨hgiven, rfl⟩ | ⟨v, text, hgiven, htake, rfl⟩ := ho
  · have hinfo : (LogLevel.all.find? fun l => l.name == Text.upper LogLevel.info.name) = some .info := by
      decide +kernel
    simp only [Option.getD_none, hinfo, hgiven]
    exact .ok rfl
  have hv : v = .text text := by
    cases v <;> cases htake
    rfl
  subst hv
  simp only [Option.getD_some]
  cases hfind : LogLevel.all.find? fun l => l.name == Text.upper text with
  | some l =>
    refine .ok ?_
    rw [hgiven]
    have hname : l.name = Text.upper text := by simpa using List.find?_some hfind
    exact ⟨text, rfl, hname.symm⟩
  | none =>
    -- the level is shown in capital letters
    have hdepth : (Value.text (Text.upper text)).depth = (Value.text text).depth := by
      rw [Value.depth, Value.depth]
    have hints : (Value.text (Text.upper text)).ints = (Value.text text).ints := by
      rw [Value.ints, Value.ints]
    refine .error (told_refusal hgiven ?_ hdepth hints fun _ => rfl)
    rintro ⟨l, given, htext, hname⟩
    cases htext
    have hall : l ∈ LogLevel.all := by cases l <;> decide
    exact absurd (by simpa using hname.symm) (List.find?_eq_none.1 hfind l hall)

end Steps

theorem Value.IsSeconds.positive_or_nan {v : Value} {x : Binary64} (h : v.IsSeconds x) :
    x.Positive ∨ x = .nan ∧ v = .real .nan := by
  obtain ⟨rfl | ⟨i, rfl, hx⟩, hpositive⟩ := h
  · obtain hx | rfl := Binary64.positive_or_nan hpositive
    · exact .inl hx
    · exact .inr ⟨rfl, rfl⟩
  · refine .inl ((Binary64.ofInt?_spec hx).1 (Int.not_le.1 fun hi => ?_))
    rw [(Binary64.ofInt?_spec hx).2 hi] at hpositive
    cases hpositive

theorem Carried.count {given : Option Value} {absent n : Int} (h : Carried given Value.IsCount absent n)
    (habsent : 1 ≤ absent) : 1 ≤ n := by
  cases given with
  | none =>
    obtain rfl : n = absent := h
    exact habsent
  | some v => exact h.2

theorem Carried.seconds {given : Option Value} {x : Binary64}
    (h : Carried given Value.IsSeconds ({} : Settings).sampleTimeout x) :
    x.Positive ∨ x = .nan ∧ given = some (.real .nan) := by
  cases given with
  | none =>
    obtain rfl : x = ({} : Settings).sampleTimeout := h
    exact (Binary64.positive_or_nan (by decide)).imp id fun hnan => absurd hnan (by decide)
  | some v => exact (Value.IsSeconds.positive_or_nan h).imp id fun hnan => ⟨hnan.1, congrArg some hnan.2⟩

/-- Tables are read into settings that are what the tables say, in their ranges, unless something that is
given does not fit: then a message that begins with its place refuses them. Seconds that are not a number
are let pass; a number of seconds beyond the range of floats, and a value that cannot be shown, are refused
without a place. -/
theorem ofRows_spec (room : Nat) (rows : Rows) :
    (∃ s, ofRows room rows = .ok s ∧ Carries rows s ∧
      (s.sampleTimeout.Positive ∨
        s.sampleTimeout = .nan ∧ Key.sampleTimeout.given rows = some (.real .nan)) ∧
      1 ≤ s.maxWorkers ∧ 1 ≤ s.maxEntries) ∨
    ∃ m, ofRows room rows = .error m ∧
      ((∃ place rest, Offends rows place ∧ m.message = place ++ ": " ++ rest) ∨
        (m = .tooLarge ∧ ∃ i, 0 < i ∧ Key.sampleTimeout.given rows = some (.int i) ∧
          Binary64.ofInt? i = none) ∨
        ∃ (k : Key) (v : Value), k.given rows = some v ∧ ¬ k.Fits v ∧
          ((m = .unshown .tooLong ∧ HasLong v.ints) ∨ (m = .unshown .tooDeep ∧ room < v.depth))) := by
  have hread : Gives room rows (ofRows room rows) (Carries rows) := by
    refine (gives_group .entryRules).bind fun analysis hanalysis => ?_
    refine (gives_group .maxWorkers).bind fun profiler hprofiler => ?_
    refine (gives_group .maxEntries).bind fun cache hcache => ?_
    refine (gives_group .level).bind fun logging hlogging => ?_
    refine (gives_entryRules (hanalysis _ rfl)).bind fun entryRules hentryRules => ?_
    refine (gives_flag (hanalysis .firstDecisionOnly rfl) (fun _ h => h) false).bind fun first hfirst => ?_
    refine (gives_flag (hanalysis .verifyLeftmost rfl) (fun _ h => h) true).bind fun verify hverify => ?_
    refine (gives_timeout (hprofiler _ rfl)).bind fun timeout htimeout => ?_
    refine (gives_count (hprofiler .maxWorkers rfl) (fun _ => .rfl) (by omega)).bind
      fun workers hworkers => ?_
    refine (gives_seconds htimeout.1 htimeout.2).bind fun seconds hseconds => ?_
    refine (gives_count (hcache .maxEntries rfl) (fun _ => .rfl) (by omega)).bind
      fun entries hentries => ?_
    refine (gives_level (hlogging _ rfl)).bind fun level hlevel => ?_
    exact .ok ⟨hentryRules, hfirst, hverify, hseconds, hworkers, hentries, hlevel⟩
  obtain ⟨s, hs, hcarries⟩ | ⟨m, hm, htold⟩ := hread
  · exact .inl ⟨s, hs, hcarries, hcarries.sampleTimeout.seconds, hcarries.maxWorkers.count (by decide),
      hcarries.maxEntries.count (by decide)⟩
  · refine .inr ⟨m, hm, ?_⟩
    cases htold with
    | @place place h hplace =>
      obtain ⟨rest, hrest⟩ := begins_of_place? hplace
      exact .inl ⟨place, rest, h, hrest⟩
    | @tooLarge i hi h hx hm => exact .inr (.inl ⟨hm, i, hi, h, hx⟩)
    | @tooLong k v h hv hlong hm => exact .inr (.inr ⟨k, v, h, hv, .inl ⟨hm, hlong⟩⟩)
    | @tooDeep k v h hv hdeep hm => exact .inr (.inr ⟨k, v, h, hv, .inr ⟨hm, hdeep⟩⟩)

-- Both of these pass the test of the range, which asks whether the seconds are zero or less.
example : (ofRows 9 [("profiler", .table [("sample_timeout_seconds", .real .nan)])]).toOption.map
    Settings.sampleTimeout = some .nan := by decide +kernel

example : (match ofRows 9 [("profiler", .table [("sample_timeout_seconds", .int (10 ^ 400))])] with
    | .ok _ => none | .error m => some m) = some .tooLarge := by decide +kernel

end Settings

end RuleNetwork
