import Mathlib.Data.List.Dedup
import RuleNetwork.Grammar.Cache
import RuleNetwork.Proofs.Attempt

/-!
What can be asked of a cache, and all that a request can give and do: a load finds its content kept or
makes a new reading of it, a change of the limit drops what is beyond it, and a request that fails leaves
the cache as it was.
-/

set_option autoImplicit false

namespace RuleNetwork

namespace GrammarCache

/-- What can be asked of a cache. A load comes with what is in the file at that time. -/
inductive Request where
  | load (path : String) (content : Except ReadFault Text.Bytes)
  | resize (limit : Int)
  | clear

def Request.act (codec : GrammarCodec) : Request → Caching (Option Reading)
  | .load path content => some <$> GrammarCache.load codec path content
  | .resize limit => (fun _ => none) <$> GrammarCache.resize limit
  | .clear => (fun _ => none) <$> GrammarCache.clear

section Requests

variable (codec : GrammarCodec) (c : GrammarCache)

def keys : List String := c.entries.map Prod.fst

/-- What a request gives. -/
def outcome (q : Request) : Except Fault (Option Reading) := ((q.act codec).run.run c).1

def after (q : Request) : GrammarCache := ((q.act codec).run.run c).2

/-- The content and the reading of a load that succeeds. -/
def Request.loaded? (q : Request) (given : Except Fault (Option Reading)) : Option (Text.Bytes × Reading) :=
  match q, given with
  | .load _ (.ok bytes), .ok (some r) => some (bytes, r)
  | _, _ => none

/-- The limit that a request asks for, if it can be met, and else the one there is. -/
def limitBy (q : Request) : Nat :=
  match q with
  | .resize limit => if limit < 1 then c.limit else limit.toNat
  | _ => c.limit

/-- The number of entries that a request clears away. -/
def clearedBy (q : Request) : Nat :=
  match q with
  | .clear => c.size
  | _ => 0

end Requests

section Moves

/-- What a request can give and do. -/
inductive Move (codec : GrammarCodec) (c : GrammarCache) :
    Request → Except Fault (Option Reading) → GrammarCache → Prop
  | unreadable (path : String) (f : ReadFault) :
    Move codec c (.load path (.error f)) (.error (.grammar (.unreadable path f))) c
  | hit {path : String} {bytes : Text.Bytes} {r : Reading} (h : (contentKey bytes, r) ∈ c.entries) :
    Move codec c (.load path (.ok bytes)) (.ok (some r))
      { c.touch (contentKey bytes) r with hits := c.hits + 1 }
  | malformed {path : String} {bytes : Text.Bytes} {f : Fault} (h : contentKey bytes ∉ c.keys)
    (hf : Grammar.ofBytes codec bytes = .error f) : Move codec c (.load path (.ok bytes)) (.error f) c
  | miss {path : String} {bytes : Text.Bytes} {g : Grammar} (h : contentKey bytes ∉ c.keys)
    (hg : Grammar.ofBytes codec bytes = .ok g) :
    Move codec c (.load path (.ok bytes)) (.ok (some ⟨c.misses, g⟩))
      ({ c.touch (contentKey bytes) ⟨c.misses, g⟩ with misses := c.misses + 1 }).evict
  | tooSmall {limit : Int} (h : limit < 1) :
    Move codec c (.resize limit) (.error (.tooSmall "max_entries" limit)) c
  | resized {limit : Int} (h : 1 ≤ limit) :
    Move codec c (.resize limit) (.ok none) ({ c with limit := limit.toNat }).evict
  | cleared : Move codec c .clear (.ok none) { c with entries := [] }

theorem load_eq (codec : GrammarCodec) (path : String) (bytes : Text.Bytes) (c : GrammarCache) :
    load codec path (.ok bytes) c = match c.get? (contentKey bytes) with
      | some r => (.ok r, { c.touch (contentKey bytes) r with hits := c.hits + 1 })
      | none => match Grammar.ofBytes codec bytes with
        | .error f => (.error f, c)
        | .ok g => (.ok ⟨c.misses, g⟩,
            ({ c.touch (contentKey bytes) ⟨c.misses, g⟩ with misses := c.misses + 1 }).evict) := by
  have hload : load codec path (.ok bytes) c = (match c.get? (contentKey bytes) with
      | some r => do
        modify fun c => { c.touch (contentKey bytes) r with hits := c.hits + 1 }
        return r
      | none => do
        let g ← Grammar.ofBytes codec bytes
        let r : Reading := ⟨(← get).misses, g⟩
        modify fun c => ({ c.touch (contentKey bytes) r with misses := c.misses + 1 }).evict
        return r : Caching Reading) c := rfl
  rw [hload]
  cases c.get? (contentKey bytes) with
  | some r => rfl
  | none => cases Grammar.ofBytes codec bytes <;> rfl

variable (c : GrammarCache)

theorem mem_of_get? {key : String} {r : Reading} (h : c.get? key = some r) : (key, r) ∈ c.entries := by
  obtain ⟨e, he, rfl⟩ := Option.map_eq_some_iff.1 h
  have hkey : e.1 = key := by simpa using List.find?_some he
  exact hkey ▸ List.mem_of_find?_eq_some he

theorem not_mem_of_get? {key : String} (h : c.get? key = none) : key ∉ c.keys := by
  intro hkey
  obtain ⟨e, he, rfl⟩ := List.mem_map.1 hkey
  simpa using List.find?_eq_none.1 (Option.map_eq_none_iff.1 h) e he

theorem map_eq {α β : Type} (f : α → β) (x : Caching α) :
    (f <$> x) c = ((x c).1.map f, (x c).2) := by
  have hmap : (f <$> x).run.run c = ((x.run.run c).1.map f, (x.run.run c).2) := by
    rw [ExceptT.run_map, StateT.run_map]
    rfl
  exact hmap

theorem resize_eq (limit : Int) : resize limit c =
    if limit < 1 then (.error (.tooSmall "max_entries" limit), c)
    else (.ok (), { c with limit := limit.toNat }.evict) := by
  have hresize : resize limit = (checkLimit limit >>= fun limit : Nat =>
    modify fun c => { c with limit }.evict : Caching Unit) := rfl
  rw [hresize, checkLimit]
  split <;> rfl

/-- A request gives and does one of these. -/
theorem move (codec : GrammarCodec) (q : Request) :
    c.Move codec q (c.outcome codec q) (c.after codec q) := by
  have hboth : q.act codec c = (c.outcome codec q, c.after codec q) := rfl
  generalize c.outcome codec q = given, c.after codec q = c' at *
  cases q with
  | load path content =>
    rw [Request.act, map_eq] at hboth
    cases content with
    | error f =>
      cases hboth
      exact .unreadable path f
    | ok bytes =>
      rw [load_eq] at hboth
      cases hget : c.get? (contentKey bytes) with
      | some r =>
        rw [hget] at hboth
        cases hboth
        exact .hit (c.mem_of_get? hget)
      | none =>
        rw [hget] at hboth
        cases hg : Grammar.ofBytes codec bytes with
        | error f =>
          rw [hg] at hboth
          cases hboth
          exact .malformed (c.not_mem_of_get? hget) hg
        | ok g =>
          rw [hg] at hboth
          cases hboth
          exact .miss (c.not_mem_of_get? hget) hg
  | resize limit =>
    rw [Request.act, map_eq, resize_eq] at hboth
    split at hboth
    · rename_i hlimit
      cases hboth
      exact .tooSmall hlimit
    · rename_i hlimit
      cases hboth
      exact .resized (by omega)
  | clear =>
    cases hboth
    exact .cleared

end Moves

theorem length_filter_ne {α : Type} [DecidableEq α] {l : List α} (h : l.Nodup) {a : α} (ha : a ∈ l) :
    (l.filter (· != a)).length + 1 = l.length := by
  rw [← h.erase_eq_filter, List.length_erase_of_mem ha]
  exact Nat.sub_add_cancel (List.length_pos_of_mem ha)

section Entries

variable (c : GrammarCache) (key : String) (r : Reading)

theorem keys_touch : (c.touch key r).keys = c.keys.filter (· != key) ++ [key] := by
  simp [keys, touch, List.filter_map, Function.comp_def]

theorem size_eq : c.size = c.keys.length := (List.length_map _).symm

theorem size_touch_of_mem (hnodup : c.keys.Nodup) (h : key ∈ c.keys) : (c.touch key r).size = c.size := by
  rw [size_eq, size_eq, keys_touch, List.length_append, List.length_singleton, length_filter_ne hnodup h]

theorem size_touch_of_not_mem (h : key ∉ c.keys) : (c.touch key r).size = c.size + 1 := by
  rw [size_eq, size_eq, keys_touch, List.length_append, List.length_singleton,
    List.filter_eq_self.2 fun k hk => bne_iff_ne.2 (ne_of_mem_of_not_mem hk h)]

theorem mem_touch {e : String × Reading} (h : e ∈ (c.touch key r).entries) :
    e ∈ c.entries ∨ e = (key, r) := by
  obtain h | h := List.mem_append.1 h
  · exact .inl (List.mem_of_mem_filter h)
  · exact .inr (List.mem_singleton.1 h)

theorem keys_evict : c.evict.keys = c.keys.drop (c.size - c.limit) := List.map_drop

theorem size_evict : c.evict.size = min c.limit c.size := by
  rw [size_eq, keys_evict, List.length_drop, ← size_eq]
  omega

theorem evictions_evict : c.evict.evictions + c.evict.size = c.evictions + c.size := by
  rw [size_evict]
  change c.evictions + (c.size - c.limit) + _ = _
  omega

end Entries

namespace Move

variable {codec : GrammarCodec} {c c' : GrammarCache} {q : Request}
  {given : Except Fault (Option Reading)} (hmove : c.Move codec q given c')
include hmove

theorem misses_le : c.misses ≤ c'.misses := by
  cases hmove with
  | miss => exact Nat.le_succ _
  | _ => exact Nat.le_refl _

theorem limit_eq : c'.limit = c.limitBy q := by
  cases hmove with
  | tooSmall h => exact (if_pos h).symm
  | resized h => exact (if_neg (by omega)).symm
  | _ => rfl

/-- An entry that was not held before is a reading made now. -/
theorem entry_cases {e : String × Reading} (he : e ∈ c'.entries) :
    e ∈ c.entries ∨ e.1 ∉ c.keys ∧ e.2.number = c.misses := by
  cases hmove with
  | unreadable | malformed | tooSmall => exact .inl he
  | hit hr => exact .inl ((c.mem_touch _ _ he).elim id fun heq => heq ▸ hr)
  | miss hkey =>
    obtain he | rfl := c.mem_touch _ _ (List.mem_of_mem_drop he)
    · exact .inl he
    · exact .inr ⟨hkey, rfl⟩
  | resized => exact .inl (List.mem_of_mem_drop he)
  | cleared => exact absurd he List.not_mem_nil

/-- An entry whose key stays is kept. -/
theorem kept (hnodup : c.keys.Nodup) {key : String} {r : Reading} (hr : (key, r) ∈ c.entries)
    (hkey : key ∈ c'.keys) : (key, r) ∈ c'.entries := by
  obtain ⟨e, he, rfl⟩ := List.mem_map.1 hkey
  obtain hold | ⟨hnew, -⟩ := hmove.entry_cases he
  · rw [List.inj_on_of_nodup_map hnodup hr hold rfl]
    exact he
  · exact absurd (List.mem_map_of_mem hr) hnew

/-- What a load gives is held afterwards. -/
theorem held {path : String} {bytes : Text.Bytes} {r : Reading} (hq : q = .load path (.ok bytes))
    (hgiven : given = .ok (some r)) (hlimit : 0 < c.limit) :
    (contentKey bytes, r) ∈ c'.entries ∧
      ((contentKey bytes, r) ∈ c.entries ∨ contentKey bytes ∉ c.keys ∧ r.number = c.misses) := by
  subst hq hgiven
  cases hmove with
  | hit hr => exact ⟨List.mem_append_right _ (List.mem_singleton_self _), .inl hr⟩
  | @miss _ _ g hkey hg =>
    refine ⟨?_, .inr ⟨hkey, rfl⟩⟩
    have hlast : (c.touch (contentKey bytes) ⟨c.misses, g⟩).entries.length - c.limit ≤
        (c.entries.filter fun e => e.1 != contentKey bytes).length := by
      simp only [touch, List.length_append, List.length_singleton]
      omega
    change _ ∈ (c.touch (contentKey bytes) ⟨c.misses, g⟩).entries.drop
      ((c.touch (contentKey bytes) ⟨c.misses, g⟩).entries.length - c.limit)
    generalize (c.touch (contentKey bytes) ⟨c.misses, g⟩).entries.length - c.limit = n at *
    rw [touch, List.drop_append_of_le_length hlast]
    exact List.mem_append_right _ (List.mem_singleton_self _)

end Move

theorem evicted {c : GrammarCache} {key : String} (h : key ∈ c.keys) (hgone : key ∉ c.evict.keys) :
    c.evictions < c.evict.evictions := by
  rw [keys_evict] at hgone
  by_cases hexcess : c.size - c.limit = 0
  · rw [hexcess] at hgone
    exact absurd h hgone
  · change c.evictions < c.evictions + (c.size - c.limit)
    omega

/-- An entry goes by being cleared away or evicted only. -/
theorem Move.gone {codec : GrammarCodec} {c c' : GrammarCache} {q : Request}
    {given : Except Fault (Option Reading)} (hmove : c.Move codec q given c') {key : String}
    (h : key ∈ c.keys) (hgone : key ∉ c'.keys) :
    q = .clear ∨ c.evictions < c'.evictions := by
  have htouch : ∀ key' r, key ∈ (c.touch key' r).keys := fun key' r => by
    rw [keys_touch]
    by_cases heq : key = key'
    · exact List.mem_append_right _ (List.mem_singleton.2 heq)
    · exact List.mem_append_left _ (List.mem_filter.2 ⟨h, bne_iff_ne.2 heq⟩)
  cases hmove with
  | unreadable | malformed | tooSmall => exact absurd h hgone
  | hit => exact absurd (htouch _ _) hgone
  | @miss _ bytes g => exact .inr (evicted (htouch (contentKey bytes) ⟨c.misses, g⟩) hgone)
  | @resized limit => exact .inr (evicted (c := { c with limit := limit.toNat }) h hgone)
  | cleared => exact .inl rfl

end GrammarCache

end RuleNetwork
