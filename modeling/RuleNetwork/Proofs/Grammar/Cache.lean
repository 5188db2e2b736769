import Mathlib.Data.List.DropRight
import RuleNetwork.Proofs.Grammar.Requests

/-!
A cache after a run of requests. It holds the contents loaded most recently, the one loaded last at the
end; its counters account for every load and every entry; two loads of one content give one object just if
the entry has been held in between. A request that fails leaves the cache as it was.

Contents are told apart by their digests, so no two contents of the run may share one.
-/

set_option autoImplicit false

namespace RuleNetwork

namespace GrammarCache

section Recency

variable {α β : Type} [DecidableEq α] [DecidableEq β]

/-- What comes last in a list is its most recent member. -/
theorem dedup_concat (l : List α) (a : α) : (l ++ [a]).dedup = l.dedup.filter (· != a) ++ [a] := by
  induction l with
  | nil => rfl
  | cons b l ih =>
    by_cases hb : b ∈ l
    · rw [List.cons_append, List.dedup_cons_of_mem (List.mem_append_left _ hb), ih,
        List.dedup_cons_of_mem hb]
    · rw [List.cons_append, List.dedup_cons_of_notMem hb]
      by_cases hba : b = a
      · rw [List.dedup_cons_of_mem (by simp [hba]), ih, List.filter_cons_of_neg (by simp [hba])]
      · rw [List.dedup_cons_of_notMem (by simp [hb, hba]), ih, List.filter_cons_of_pos (by simp [hba])]
        rfl

/-- Names of different members are different names. -/
theorem dedup_map {f : α → β} {l : List α} (h : ∀ a ∈ l, ∀ b ∈ l, f a = f b → a = b) :
    (l.map f).dedup = l.dedup.map f := by
  induction l with
  | nil => rfl
  | cons a l ih =>
    have hl := ih fun b hb c hc => h b (List.mem_cons_of_mem _ hb) c (List.mem_cons_of_mem _ hc)
    have hmem : f a ∈ l.map f ↔ a ∈ l := by
      refine ⟨fun hfa => ?_, List.mem_map_of_mem⟩
      obtain ⟨b, hb, heq⟩ := List.mem_map.1 hfa
      exact h b (List.mem_cons_of_mem _ hb) a (List.mem_cons_self ..) heq ▸ hb
    by_cases ha : a ∈ l
    · rw [List.map_cons, List.dedup_cons_of_mem (hmem.2 ha), List.dedup_cons_of_mem ha, hl]
    · rw [List.map_cons, List.dedup_cons_of_notMem (mt hmem.1 ha), List.dedup_cons_of_notMem ha, hl,
        List.map_cons]

end Recency

section Definitions

variable (codec : GrammarCodec)

def afterAll (c : GrammarCache) (requests : List Request) : GrammarCache :=
  requests.foldl (after codec) c

/-- The loads of a run that succeed, with what they give. -/
def loads : GrammarCache → List Request → List (Text.Bytes × Reading)
  | _, [] => []
  | c, q :: requests => (q.loaded? (c.outcome codec q)).toList ++ loads (c.after codec q) requests

/-- The number of entries that a run clears away. -/
def cleared : GrammarCache → List Request → Nat
  | _, [] => 0
  | c, q :: requests => c.clearedBy q + cleared (c.after codec q) requests

end Definitions

/-- The contents that a run comes by. -/
def contents (requests : List Request) : List Text.Bytes :=
  requests.filterMap fun q =>
    match q with
    | .load _ (.ok bytes) => some bytes
    | _ => none

/-- No two of the contents have one key. -/
def Apart (contents : List Text.Bytes) : Prop :=
  ∀ b ∈ contents, ∀ b' ∈ contents, contentKey b = contentKey b' → b = b'

section Runs

variable (codec : GrammarCodec) (c : GrammarCache) (requests : List Request) (q : Request)

theorem afterAll_append (more : List Request) :
    c.afterAll codec (requests ++ more) = (c.afterAll codec requests).afterAll codec more :=
  List.foldl_append

theorem loads_concat : c.loads codec (requests ++ [q]) =
    c.loads codec requests ++ (q.loaded? ((c.afterAll codec requests).outcome codec q)).toList := by
  induction requests generalizing c with
  | nil => simp [loads, afterAll]
  | cons q' requests ih => simp [loads, ih, afterAll]

theorem cleared_concat : c.cleared codec (requests ++ [q]) =
    c.cleared codec requests + (c.afterAll codec requests).clearedBy q := by
  induction requests generalizing c with
  | nil => simp [cleared, afterAll]
  | cons q' requests ih => simp [cleared, ih, afterAll, Nat.add_assoc]

end Runs

/-- The keys of the contents loaded, each in the place where it was loaded last. -/
def recency (past : List (Text.Bytes × Reading)) : List String := (past.map fun l => contentKey l.1).dedup

theorem recency_concat (past : List (Text.Bytes × Reading)) (l : Text.Bytes × Reading) :
    recency (past ++ [l]) = (recency past).filter (· != contentKey l.1) ++ [contentKey l.1] := by
  rw [recency, List.map_append, List.map_singleton, dedup_concat, ← recency]

theorem nodup_recency (past : List (Text.Bytes × Reading)) : (recency past).Nodup := List.nodup_dedup _

/-- A key that is used moves to the end with its content. -/
theorem suffix_touch {past : List (Text.Bytes × Reading)} {c : GrammarCache}
    (h : c.keys <:+ recency past) (bytes : Text.Bytes) (r : Reading) :
    (c.touch (contentKey bytes) r).keys <:+ recency (past ++ [(bytes, r)]) := by
  obtain ⟨s, hs⟩ := h
  rw [keys_touch, recency_concat, ← hs, List.filter_append, List.append_assoc]
  exact List.suffix_append _ _

/-- What a cache holds and counts after some loads, when some entries have been cleared away. -/
structure Accounts (codec : GrammarCodec) (past : List (Text.Bytes × Reading)) (dropped : Nat)
    (c : GrammarCache) : Prop where
  limit : 0 < c.limit
  recent : c.keys <:+ recency past
  entries : ∀ e ∈ c.entries, ∃ l ∈ past, e = (contentKey l.1, l.2)
  parsed : ∀ l ∈ past, Grammar.ofBytes codec l.1 = .ok l.2.grammar
  loads : c.hits + c.misses = past.length
  misses : c.misses = c.evictions + dropped + c.size
  numbers : ∀ l ∈ past, l.2.number < c.misses

namespace Accounts

variable {codec : GrammarCodec} {c : GrammarCache} {past : List (Text.Bytes × Reading)} {dropped : Nat}
  (h : c.Accounts codec past dropped)
include h

theorem nodup : c.keys.Nodup := (List.nodup_dedup _).sublist h.recent.sublist

theorem evict : c.evict.Accounts codec past dropped where
  limit := h.limit
  recent := by
    rw [keys_evict]
    exact (List.drop_suffix _ _).trans h.recent
  entries e he := h.entries e (List.mem_of_mem_drop he)
  parsed := h.parsed
  loads := h.loads
  misses := by
    have := c.evictions_evict
    have := h.misses
    change c.misses = _
    omega
  numbers := h.numbers

/-- Content that is held is known by its key. -/
theorem hit {bytes : Text.Bytes} {r : Reading} (hr : (contentKey bytes, r) ∈ c.entries)
    (hapart : ∀ l ∈ past, contentKey l.1 = contentKey bytes → l.1 = bytes) :
    ({ c.touch (contentKey bytes) r with hits := c.hits + 1 } : GrammarCache).Accounts codec
      (past ++ [(bytes, r)]) dropped := by
  obtain ⟨l, hl, heq⟩ := h.entries _ hr
  obtain ⟨hkey, rfl⟩ := Prod.mk.inj heq
  obtain rfl := hapart l hl hkey.symm
  have hpast : ∀ {P : Text.Bytes × Reading → Prop}, (∀ l ∈ past, P l) → ∀ l' ∈ past ++ [l], P l' :=
    fun hall l' hl' => (List.mem_append.1 hl').elim (hall l') fun hl' => List.mem_singleton.1 hl' ▸ hall l hl
  refine ⟨h.limit, ?_, fun e he => ?_, hpast h.parsed, ?_, ?_, hpast h.numbers⟩
  · exact suffix_touch h.recent l.1 l.2
  · obtain he | rfl := c.mem_touch _ _ he
    · exact (h.entries e he).imp fun _ ⟨hl', he⟩ => ⟨List.mem_append_left _ hl', he⟩
    · exact ⟨l, List.mem_append_left _ hl, rfl⟩
  · have := h.loads
    rw [List.length_append, List.length_singleton]
    change c.hits + 1 + c.misses = _
    omega
  · have hsize := c.size_touch_of_mem (contentKey l.1) l.2 h.nodup (List.mem_map_of_mem hr)
    exact h.misses.trans (congrArg (c.evictions + dropped + ·) hsize.symm)

theorem miss {bytes : Text.Bytes} {g : Grammar} (hkey : contentKey bytes ∉ c.keys)
    (hg : Grammar.ofBytes codec bytes = .ok g) :
    ({ c.touch (contentKey bytes) ⟨c.misses, g⟩ with misses := c.misses + 1 } : GrammarCache).Accounts codec
      (past ++ [(bytes, ⟨c.misses, g⟩)]) dropped := by
  refine ⟨h.limit, ?_, fun e he => ?_, ?_, ?_, ?_, ?_⟩
  · exact suffix_touch h.recent bytes ⟨c.misses, g⟩
  · obtain he | rfl := c.mem_touch _ _ he
    · exact (h.entries e he).imp fun _ ⟨hl', he⟩ => ⟨List.mem_append_left _ hl', he⟩
    · exact ⟨_, List.mem_append_right _ (List.mem_singleton_self _), rfl⟩
  · exact List.forall_mem_append.2 ⟨h.parsed, List.forall_mem_singleton.2 hg⟩
  · have := h.loads
    rw [List.length_append, List.length_singleton]
    change c.hits + (c.misses + 1) = _
    omega
  · have hsize := c.size_touch_of_not_mem (contentKey bytes) ⟨c.misses, g⟩ hkey
    have := h.misses
    change c.misses + 1 = c.evictions + dropped + (c.touch (contentKey bytes) ⟨c.misses, g⟩).size
    omega
  · exact List.forall_mem_append.2 ⟨fun l hl => Nat.lt_succ_of_lt (h.numbers l hl),
      List.forall_mem_singleton.2 (Nat.lt_succ_self _)⟩

/-- A request keeps the accounts. -/
theorem move {q : Request} {given : Except Fault (Option Reading)} {c' : GrammarCache}
    (hmove : c.Move codec q given c') (hsize : c.size ≤ c.limit)
    (hapart : ∀ path bytes, q = .load path (.ok bytes) →
      ∀ l ∈ past, contentKey l.1 = contentKey bytes → l.1 = bytes) :
    c'.Accounts codec (past ++ (q.loaded? given).toList) (dropped + c.clearedBy q) ∧
      c'.size ≤ c'.limit := by
  cases hmove with
  | unreadable | malformed | tooSmall => simpa [Request.loaded?, clearedBy] using ⟨h, hsize⟩
  | @hit path bytes r hr =>
    have hnew := c.size_touch_of_mem (contentKey bytes) r h.nodup (List.mem_map_of_mem hr)
    exact ⟨h.hit hr (hapart path bytes rfl), hnew.le.trans hsize⟩
  | miss hkey hg =>
    refine ⟨(h.miss hkey hg).evict, ?_⟩
    rw [size_evict]
    exact Nat.min_le_left ..
  | @resized limit hlimit =>
    have hresized : ({ c with limit := limit.toNat } : GrammarCache).Accounts codec past dropped :=
      ⟨by change 0 < limit.toNat; omega, h.recent, h.entries, h.parsed, h.loads, h.misses, h.numbers⟩
    refine ⟨by simpa [Request.loaded?, clearedBy] using hresized.evict, ?_⟩
    rw [size_evict]
    exact Nat.min_le_left ..
  | cleared =>
    refine ⟨⟨h.limit, List.nil_suffix, fun e he => absurd he List.not_mem_nil, ?_, ?_, ?_, ?_⟩,
      Nat.zero_le _⟩
    · simpa [Request.loaded?] using h.parsed
    · simpa [Request.loaded?] using h.loads
    · have := h.misses
      change c.misses = c.evictions + (dropped + c.size) + 0
      omega
    · simpa [Request.loaded?] using h.numbers

/-- As long as requests are loads, entries are dropped for want of room only. -/
theorem fills {path : String} {content : Except ReadFault Text.Bytes}
    {given : Except Fault (Option Reading)} {c' : GrammarCache}
    (hmove : c.Move codec (.load path content) given c')
    (hfull : c.size = min c.limit (recency past).length) :
    c'.size = min c'.limit
      (recency (past ++ (Request.loaded? (.load path content) given).toList)).length := by
  have hrecent := h.recent
  have hnodup := nodup_recency past
  cases hmove with
  | unreadable | malformed => simpa [Request.loaded?] using hfull
  | @hit _ bytes r hr =>
    have hkey : contentKey bytes ∈ c.keys := List.mem_map_of_mem hr
    have hsize := c.size_touch_of_mem (contentKey bytes) r h.nodup hkey
    simp only [Request.loaded?, Option.toList_some]
    rw [recency_concat, List.length_append, List.length_singleton,
      length_filter_ne hnodup (hrecent.subset hkey)]
    exact hsize.trans hfull
  | @miss _ bytes g hkey hg =>
    have hsize := c.size_touch_of_not_mem (contentKey bytes) ⟨c.misses, g⟩ hkey
    simp only [Request.loaded?, Option.toList_some]
    rw [recency_concat, List.length_append, List.length_singleton, size_evict]
    change min c.limit (c.touch (contentKey bytes) ⟨c.misses, g⟩).size = min c.limit _
    rw [hsize]
    by_cases hold : contentKey bytes ∈ recency past
    · -- the content has been dropped before, so there is no room for more
      rw [length_filter_ne hnodup hold]
      have hlt : c.size ≠ (recency past).length := fun heq =>
        hkey (hrecent.eq_of_length (c.size_eq.symm.trans heq) ▸ hold)
      omega
    · rw [List.filter_eq_self.2 fun k hk => bne_iff_ne.2 (ne_of_mem_of_not_mem hk hold)]
      omega

theorem keys_eq (hfull : c.size = min c.limit (recency past).length) :
    c.keys = (recency past).rtake c.limit := by
  rw [List.suffix_iff_eq_drop.1 h.recent, ← size_eq, hfull, List.rtake]
  congr 1
  omega

end Accounts

section Runs

variable {codec : GrammarCodec} {c : GrammarCache} {requests : List Request}

theorem mem_contents_of_loads {l : Text.Bytes × Reading} (h : l ∈ c.loads codec requests) :
    l.1 ∈ contents requests := by
  induction requests generalizing c with
  | nil => cases h
  | cons q requests ih =>
    rw [contents, List.filterMap_cons]
    obtain h | h := List.mem_append.1 h
    · have hloaded := Option.mem_toList.1 h
      unfold Request.loaded? at hloaded
      split at hloaded
      · cases hloaded
        exact List.mem_cons_self ..
      · cases hloaded
    · have := ih h
      split
      · exact this
      · exact List.mem_cons_of_mem _ this

theorem Apart.of_append {l l' : List Text.Bytes} (h : Apart (l ++ l')) : Apart l :=
  fun b hb b' hb' => h b (List.mem_append_left _ hb) b' (List.mem_append_left _ hb')

theorem contents_append (requests more : List Request) :
    contents (requests ++ more) = contents requests ++ contents more := List.filterMap_append

theorem accounts_withLimit (codec : GrammarCodec) {limit : Int} {c : GrammarCache}
    (h : withLimit limit = .ok c) :
    c.Accounts codec [] 0 ∧ c.size ≤ c.limit := by
  obtain ⟨n, hn, h⟩ := bind_eq_ok.1 h
  cases h
  unfold checkLimit at hn
  split at hn
  · cases hn
  · cases hn
    exact ⟨⟨by change 0 < limit.toNat; omega, List.nil_suffix, by simp, by simp, rfl, rfl, by simp⟩,
      Nat.zero_le _⟩

/-- The accounts after a run. -/
theorem accounts_afterAll {limit : Int} {c : GrammarCache} (h : withLimit limit = .ok c)
    {requests : List Request} (hapart : Apart (contents requests)) :
    (c.afterAll codec requests).Accounts codec (c.loads codec requests) (c.cleared codec requests) ∧
      (c.afterAll codec requests).size ≤ (c.afterAll codec requests).limit := by
  induction requests using List.reverseRecOn with
  | nil => exact accounts_withLimit codec h
  | append_singleton requests q ih =>
    rw [contents_append] at hapart
    obtain ⟨haccounts, hsize⟩ := ih hapart.of_append
    rw [afterAll_append, loads_concat, cleared_concat]
    have hmove := (c.afterAll codec requests).move codec q
    refine haccounts.move hmove hsize fun path bytes hq l hl hkey => ?_
    refine hapart l.1 (List.mem_append_left _ (mem_contents_of_loads hl)) bytes ?_ hkey
    exact List.mem_append_right _ (by simp [contents, hq])

theorem fills_afterAll {limit : Int} {c : GrammarCache} (h : withLimit limit = .ok c)
    {requests : List Request} (hapart : Apart (contents requests))
    (hloads : ∀ q ∈ requests, ∃ path content, q = .load path content) :
    (c.afterAll codec requests).size =
      min (c.afterAll codec requests).limit (recency (c.loads codec requests)).length := by
  induction requests using List.reverseRecOn with
  | nil =>
    have hempty := (accounts_withLimit codec h).1.recent.length_le
    change c.size = min c.limit 0
    rw [size_eq, Nat.min_zero]
    exact Nat.le_zero.1 hempty
  | append_singleton requests q ih =>
    rw [contents_append] at hapart
    have hfull := ih hapart.of_append fun q hq => hloads q (List.mem_append_left _ hq)
    obtain ⟨path, content, rfl⟩ := hloads q (List.mem_append_right _ (List.mem_singleton_self _))
    rw [afterAll_append, loads_concat]
    exact (accounts_afterAll h hapart.of_append).1.fills ((c.afterAll codec requests).move codec _) hfull

/-- An entry that is held all the time stays the same. -/
theorem mem_afterAll_of_kept {key : String} {r : Reading} (hr : (key, r) ∈ c.entries)
    (hnodup : ∀ begun, begun <+: requests → (c.afterAll codec begun).keys.Nodup)
    (hkept : ∀ begun, begun <+: requests → key ∈ (c.afterAll codec begun).keys) :
    (key, r) ∈ (c.afterAll codec requests).entries := by
  induction requests using List.reverseRecOn with
  | nil => exact hr
  | append_singleton requests q ih =>
    have hpre : ∀ begun, begun <+: requests → begun <+: requests ++ [q] :=
      fun begun hb => hb.trans (List.prefix_append _ _)
    have hold := ih (fun begun hb => hnodup begun (hpre begun hb)) fun begun hb => hkept begun (hpre begun hb)
    have hnow := hkept _ List.prefix_rfl
    rw [afterAll_append] at hnow ⊢
    have hmove := (c.afterAll codec requests).move codec q
    exact hmove.kept (hnodup requests (List.prefix_append _ _)) hold hnow

theorem misses_le_afterAll (codec : GrammarCodec) (c : GrammarCache) (requests : List Request) :
    c.misses ≤ (c.afterAll codec requests).misses := by
  induction requests generalizing c with
  | nil => exact Nat.le_refl _
  | cons q requests ih => exact (c.move codec q).misses_le.trans (ih _)

/-- Once no entry of a key is an old reading, none will be. -/
theorem newer_afterAll {key : String} {n : Nat} (hnew : ∀ r, (key, r) ∈ c.entries → n ≤ r.number)
    (hn : n ≤ c.misses) (requests : List Request) :
    ∀ r, (key, r) ∈ (c.afterAll codec requests).entries → n ≤ r.number := by
  induction requests generalizing c with
  | nil => exact hnew
  | cons q requests ih =>
    have hmove := c.move codec q
    refine ih (fun r hr => ?_) (hn.trans hmove.misses_le)
    obtain hold | ⟨-, hnumber⟩ := hmove.entry_cases hr
    · exact hnew r hold
    · exact hn.trans hnumber.ge

/-- A load after some requests gives the reading that is held now just if it is held all the time. -/
theorem same_number_iff {path : String} {bytes : Text.Bytes} {r r' : Reading}
    (hrun : ∀ begun, begun <+: requests →
      ∃ past dropped, (c.afterAll codec begun).Accounts codec past dropped)
    (hr : (contentKey bytes, r) ∈ c.entries)
    (hnext : (c.afterAll codec requests).outcome codec (.load path (.ok bytes)) = .ok (some r')) :
    r'.number = r.number ↔
      ∀ begun, begun <+: requests → contentKey bytes ∈ (c.afterAll codec begun).keys := by
  obtain ⟨_, _, hlast⟩ := hrun requests List.prefix_rfl
  obtain ⟨-, hgiven⟩ := ((c.afterAll codec requests).move codec _).held rfl hnext hlast.limit
  constructor
  · rintro hsame begun ⟨rest, rfl⟩
    by_contra hgone
    -- the reading given was made after the entry had gone
    obtain ⟨past, dropped, hfirst⟩ := hrun [] List.nil_prefix
    obtain ⟨l, hl, heq⟩ := hfirst.entries _ hr
    have hnumber : r.number < c.misses := (Prod.mk.inj heq).2 ▸ hfirst.numbers l hl
    have hbegun := misses_le_afterAll codec c begun
    rw [afterAll_append] at hgiven
    obtain hold | ⟨-, hnew⟩ := hgiven
    · have := newer_afterAll (fun r hr => absurd (List.mem_map_of_mem hr) hgone) (Nat.le_refl _) rest r' hold
      omega
    · have := misses_le_afterAll codec (c.afterAll codec begun) rest
      omega
  · intro hkept
    have hheld := mem_afterAll_of_kept hr (fun begun hb => (hrun begun hb).elim fun _ ⟨_, h⟩ => h.nodup) hkept
    obtain hold | ⟨hgone, -⟩ := hgiven
    · rw [(Prod.mk.inj (List.inj_on_of_nodup_map hlast.nodup hold hheld rfl)).2]
    · exact absurd (hkept requests List.prefix_rfl) hgone

/-- A later load of the same content gives the same reading just if its entry has been held all the
time. -/
theorem same_reading_iff {limit : Int} {c : GrammarCache} (h : withLimit limit = .ok c)
    {earlier between : List Request} {path path' : String} {bytes : Text.Bytes} {r r' : Reading}
    (hapart : Apart (contents (earlier ++ .load path (.ok bytes) :: between)))
    (hfirst : (c.afterAll codec earlier).outcome codec (.load path (.ok bytes)) = .ok (some r))
    (hnext : (c.afterAll codec (earlier ++ .load path (.ok bytes) :: between)).outcome codec
      (.load path' (.ok bytes)) = .ok (some r')) :
    r'.number = r.number ↔ ∀ begun, begun <+: between →
      contentKey bytes ∈ (c.afterAll codec (earlier ++ .load path (.ok bytes) :: begun)).keys := by
  have hsplit : ∀ requests, c.afterAll codec (earlier ++ .load path (.ok bytes) :: requests) =
      ((c.afterAll codec earlier).after codec (.load path (.ok bytes))).afterAll codec requests :=
    fun requests => afterAll_append codec c earlier _
  have hrun : ∀ begun, begun <+: between → ∃ past dropped,
      (((c.afterAll codec earlier).after codec (.load path (.ok bytes))).afterAll codec begun).Accounts
        codec past dropped := by
    rintro begun ⟨rest, rfl⟩
    rw [← List.cons_append, ← List.append_assoc, contents_append] at hapart
    rw [← hsplit]
    exact ⟨_, _, (accounts_afterAll h hapart.of_append).1⟩
  have hlimit : 0 < (c.afterAll codec earlier).limit := by
    rw [contents_append] at hapart
    exact (accounts_afterAll h hapart.of_append).1.limit
  have hheld := ((c.afterAll codec earlier).move codec (.load path (.ok bytes))).held rfl hfirst hlimit
  rw [hsplit] at hnext
  simp only [hsplit]
  exact same_number_iff hrun hheld.1 hnext

theorem recency_eq {past : List (Text.Bytes × Reading)} (h : Apart (past.map Prod.fst)) :
    recency past = (past.map Prod.fst).dedup.map contentKey := by
  rw [← dedup_map h, List.map_map]
  rfl

/-- A load of content apart from the others succeeds just if the content is a grammar. -/
theorem Accounts.load_iff {past : List (Text.Bytes × Reading)} {dropped : Nat}
    (h : c.Accounts codec past dropped) (path : String) {bytes : Text.Bytes}
    (hapart : ∀ l ∈ past, contentKey l.1 = contentKey bytes → l.1 = bytes) :
    (∃ r, c.outcome codec (.load path (.ok bytes)) = .ok (some r)) ↔
      ∃ g, Grammar.ofBytes codec bytes = .ok g := by
  have hmove := c.move codec (.load path (.ok bytes))
  generalize c.outcome codec (.load path (.ok bytes)) = given,
    c.after codec (.load path (.ok bytes)) = c' at hmove
  cases hmove with
  | @hit _ _ r hr =>
    obtain ⟨l, hl, heq⟩ := h.entries _ hr
    have hparsed := h.parsed l hl
    rw [hapart l hl (Prod.mk.inj heq).1.symm] at hparsed
    exact ⟨fun _ => ⟨_, hparsed⟩, fun _ => ⟨r, rfl⟩⟩
  | malformed _ hf => exact ⟨fun ⟨_, hr⟩ => (nomatch hr), fun ⟨_, hg⟩ => nomatch hf.symm.trans hg⟩
  | miss _ hg => exact ⟨fun _ => ⟨_, hg⟩, fun _ => ⟨_, rfl⟩⟩

/-- A cache after any run of requests, if no two contents that it comes by have one key. It holds no
more entries than its limit, in the order in which their contents were loaded last, each a reading of the
content that it is kept by; its counters account for all loads that succeed and for all entries. A load
succeeds just if the content is a grammar, and gives that grammar; it gives the same reading as an earlier
load of the content just if the entry has been held ever since. An entry goes by being cleared away or
evicted only; a request that fails changes nothing. After loads alone the cache holds the contents that
were loaded most recently, as many as it has room for. -/
theorem holds_most_recent (codec : GrammarCodec) {limit : Int} {c₀ : GrammarCache}
    (h : withLimit limit = .ok c₀) {requests : List Request} (hapart : Apart (contents requests)) :
    let c := c₀.afterAll codec requests
    let past := c₀.loads codec requests
    c.size ≤ c.limit ∧
      c.keys <:+ (past.map Prod.fst).dedup.map contentKey ∧
      (∀ e ∈ c.entries, ∃ bytes, (bytes, e.2) ∈ past ∧ e.1 = contentKey bytes) ∧
      (∀ l ∈ past, Grammar.ofBytes codec l.1 = .ok l.2.grammar) ∧
      c.hits + c.misses = past.length ∧
      c.misses = c.evictions + c₀.cleared codec requests + c.size ∧
      (∀ path bytes, Apart (contents (requests ++ [.load path (.ok bytes)])) →
        ((∃ r, c.outcome codec (.load path (.ok bytes)) = .ok (some r)) ↔
          ∃ g, Grammar.ofBytes codec bytes = .ok g)) ∧
      (∀ earlier path bytes between r path' r',
        requests = earlier ++ .load path (.ok bytes) :: between →
        (c₀.afterAll codec earlier).outcome codec (.load path (.ok bytes)) = .ok (some r) →
        c.outcome codec (.load path' (.ok bytes)) = .ok (some r') →
        (r'.number = r.number ↔ ∀ begun, begun <+: between →
          contentKey bytes ∈ (c₀.afterAll codec (earlier ++ .load path (.ok bytes) :: begun)).keys)) ∧
      (∀ q, ∀ key ∈ c.keys, key ∉ (c.after codec q).keys →
        q = .clear ∨ c.evictions < (c.after codec q).evictions) ∧
      (∀ q f, c.outcome codec q = .error f → c.after codec q = c) ∧
      (∀ path f, c.outcome codec (.load path (.error f)) = .error (.grammar (.unreadable path f))) ∧
      (∀ n, c.outcome codec (.resize n) =
        if n < 1 then .error (.tooSmall "max_entries" n) else .ok none) ∧
      (∀ q, (c.after codec q).limit = c.limitBy q) ∧
      ((∀ q ∈ requests, ∃ path content, q = .load path content) →
        c.keys = ((past.map Prod.fst).dedup.rtake c.limit).map contentKey) := by
  obtain ⟨haccounts, hsize⟩ := accounts_afterAll h hapart
  have hpast : ∀ l ∈ c₀.loads codec requests, l.1 ∈ contents requests := fun l => mem_contents_of_loads
  have hapartPast : Apart ((c₀.loads codec requests).map Prod.fst) := fun b hb b' hb' => by
    obtain ⟨l, hl, rfl⟩ := List.mem_map.1 hb
    obtain ⟨l', hl', rfl⟩ := List.mem_map.1 hb'
    exact hapart l.1 (hpast l hl) l'.1 (hpast l' hl')
  have hrecency := recency_eq hapartPast
  have hmove := (c₀.afterAll codec requests).move codec
  refine ⟨hsize, hrecency ▸ haccounts.recent, fun e he => ?_, haccounts.parsed, haccounts.loads,
    haccounts.misses, fun path bytes hmore => haccounts.load_iff path fun l hl hkey => ?_, ?_,
    fun q key hkey hgone => (hmove q).gone hkey hgone, fun q f hf => ?_, fun path f => rfl, fun n => ?_,
    fun q => (hmove q).limit_eq, fun hloads => ?_⟩
  · obtain ⟨l, hl, rfl⟩ := haccounts.entries e he
    exact ⟨l.1, hl, rfl⟩
  · rw [contents_append] at hmore
    exact hmore l.1 (List.mem_append_left _ (hpast l hl)) bytes
      (List.mem_append_right _ (List.mem_singleton_self _)) hkey
  · rintro earlier path bytes between r path' r' rfl hfirst hnext
    exact same_reading_iff h hapart hfirst hnext
  · have hq := hmove q
    rw [hf] at hq
    generalize (c₀.afterAll codec requests).after codec q = c' at hq
    cases hq <;> rfl
  · have hn := hmove (.resize n)
    generalize (c₀.afterAll codec requests).outcome codec (.resize n) = given,
      (c₀.afterAll codec requests).after codec (.resize n) = c' at hn
    cases hn with
    | tooSmall hlimit => rw [if_pos hlimit]
    | resized hlimit => rw [if_neg (by omega)]
  · have hkeys := haccounts.keys_eq (fills_afterAll h hapart hloads)
    rw [hkeys, hrecency, List.rtake, List.rtake, List.length_map, List.map_drop]

/-- The document of a grammar with a name and nothing else. -/
def document (name : String) : Text.Bytes :=
  Text.Utf8.encode (GrammarCodec.builtIn.compact { name })

/-- Two contents are loaded into a cache for one: the second is held, and the first is not. -/
theorem small_cache_holds : ∃ c₀ requests, withLimit 1 = .ok c₀ ∧ Apart (contents requests) ∧
    (c₀.loads .builtIn requests).map Prod.fst = [document "a", document "b"] ∧
      (c₀.afterAll .builtIn requests).keys = [contentKey (document "b")] := by
  have hkeys : contentKey (document "a") ≠ contentKey (document "b") := by decide +kernel
  have hgrammar : (Grammar.ofBytes .builtIn (document "a")).isOk = true ∧
      (Grammar.ofBytes .builtIn (document "b")).isOk = true := by decide +kernel
  have hparsed : ∀ {bytes}, (Grammar.ofBytes .builtIn bytes).isOk = true →
      ∃ g, Grammar.ofBytes .builtIn bytes = .ok g :=
    fun {bytes} hok => by
      cases hg : Grammar.ofBytes .builtIn bytes with
      | ok g => exact ⟨g, rfl⟩
      | error f => exact absurd hok (by rw [hg]; exact Bool.false_ne_true)
  have hc : withLimit 1 = .ok { limit := 1 } := rfl
  have hboth : Apart (contents [.load "a.json" (.ok (document "a")), .load "b.json" (.ok (document "b"))]) :=
    fun b hb b' hb' heq => by
      simp only [contents, List.filterMap_cons, List.filterMap_nil, List.mem_cons, List.not_mem_nil,
        or_false] at hb hb'
      obtain rfl | rfl := hb <;> obtain rfl | rfl := hb'
      · rfl
      · exact absurd heq hkeys
      · exact absurd heq.symm hkeys
      · rfl
  have hone : Apart (contents [.load "a.json" (.ok (document "a"))]) :=
    fun b hb b' hb' => hboth b (List.mem_append_left _ hb) b' (List.mem_append_left _ hb')
  have hnone : Apart (contents []) := fun b hb => nomatch hb
  obtain ⟨-, -, -, -, -, -, hload, -⟩ := holds_most_recent .builtIn hc hnone
  obtain ⟨r, hr⟩ := (hload "a.json" (document "a") hone).2 (hparsed hgrammar.1)
  obtain ⟨-, -, -, -, -, -, hagain, -⟩ := holds_most_recent .builtIn hc hone
  obtain ⟨r', hr'⟩ := (hagain "b.json" (document "b") hboth).2 (hparsed hgrammar.2)
  have hloads : (loads .builtIn { limit := 1 } [.load "a.json" (.ok (document "a")),
      .load "b.json" (.ok (document "b"))]).map Prod.fst = [document "a", document "b"] := by
    change outcome .builtIn { limit := 1 } _ = _ at hr
    change outcome .builtIn (after .builtIn { limit := 1 } _) _ = _ at hr'
    rw [loads, loads, loads, hr, hr']
    rfl
  obtain ⟨-, -, -, -, -, -, -, -, -, -, -, -, -, hrecent⟩ := holds_most_recent .builtIn hc hboth
  have hne : document "a" ∉ [document "b"] := fun hmem => hkeys (congrArg _ (List.mem_singleton.1 hmem))
  have hlimit : (afterAll .builtIn { limit := 1 } [.load "a.json" (.ok (document "a")),
      .load "b.json" (.ok (document "b"))]).limit = 1 :=
    (move _ .builtIn (.load "b.json" (.ok (document "b")))).limit_eq.trans
      (move _ .builtIn (.load "a.json" (.ok (document "a")))).limit_eq
  refine ⟨_, _, hc, hboth, hloads, (hrecent fun q hq => ?_).trans ?_⟩
  · simp only [List.mem_cons, List.not_mem_nil, or_false] at hq
    obtain rfl | rfl := hq <;> exact ⟨_, _, rfl⟩
  · rw [hloads, hlimit, List.dedup_cons_of_notMem hne]
    rfl

end Runs

end GrammarCache

end RuleNetwork
