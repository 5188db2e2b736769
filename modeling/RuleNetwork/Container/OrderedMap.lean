/-!
Finite maps that list their keys in the order of first insertion. A second value for a key replaces
the first one in place.
-/

set_option autoImplicit false

namespace RuleNetwork

namespace Entries

variable {α β : Type} [DecidableEq α]

def put (k : α) (v : β) : List (α × β) → List (α × β)
  | [] => [(k, v)]
  | e :: r => if e.1 = k then (k, v) :: r else e :: put k v r

theorem keys_put (k : α) (v : β) (l : List (α × β)) :
    (put k v l).map Prod.fst =
      if k ∈ l.map Prod.fst then l.map Prod.fst else l.map Prod.fst ++ [k] := by
  induction l with
  | nil => simp [put]
  | cons e r ih =>
    by_cases h : e.1 = k
    · simp [put, h]
    · have h' : ¬ k = e.1 := fun c => h c.symm
      simp only [put, h, if_false, List.map_cons, ih, List.mem_cons, h', false_or]
      split <;> simp

theorem nodup_keys_put (k : α) (v : β) (l : List (α × β)) (h : (l.map Prod.fst).Nodup) :
    ((put k v l).map Prod.fst).Nodup := by
  rw [keys_put]
  split
  · exact h
  · rename_i hk
    refine List.nodup_append.2 ⟨h, by simp, ?_⟩
    intro x hx y hy e
    simp only [List.mem_singleton] at hy
    exact hk (hy ▸ e ▸ hx)

theorem lookup_put (k j : α) (v : β) (l : List (α × β)) :
    ((put k v l).find? (fun e => decide (e.1 = j))).map Prod.snd =
      if k = j then some v else (l.find? (fun e => decide (e.1 = j))).map Prod.snd := by
  induction l with
  | nil => by_cases h : k = j <;> simp [put, h]
  | cons e r ih =>
    by_cases he : e.1 = k
    · by_cases hj : k = j
      · simp [put, he, hj]
      · have : ¬ e.1 = j := fun c => hj (he ▸ c)
        simp [put, he, hj]
    · rw [put, if_neg he, List.find?_cons, List.find?_cons]
      by_cases hj : e.1 = j
      · have hk : ¬ k = j := fun c => he (hj.trans c.symm)
        simp [hj, hk]
      · simpa [hj] using ih

end Entries

structure OrderedMap (α β : Type) where
  entries : List (α × β)
  nodup : (entries.map Prod.fst).Nodup

namespace OrderedMap

variable {α β : Type}

def empty : OrderedMap α β := ⟨[], by simp⟩

instance : EmptyCollection (OrderedMap α β) := ⟨empty⟩

instance : Inhabited (OrderedMap α β) := ⟨empty⟩

def keys (m : OrderedMap α β) : List α := m.entries.map Prod.fst

def values (m : OrderedMap α β) : List β := m.entries.map Prod.snd

variable [DecidableEq α]

def get? (m : OrderedMap α β) (k : α) : Option β :=
  (m.entries.find? (fun e => decide (e.1 = k))).map Prod.snd

def put (m : OrderedMap α β) (k : α) (v : β) : OrderedMap α β :=
  ⟨Entries.put k v m.entries, Entries.nodup_keys_put k v m.entries m.nodup⟩

theorem keys_put (m : OrderedMap α β) (k : α) (v : β) :
    (m.put k v).keys = if k ∈ m.keys then m.keys else m.keys ++ [k] :=
  Entries.keys_put k v m.entries

theorem get?_put (m : OrderedMap α β) (k j : α) (v : β) :
    (m.put k v).get? j = if k = j then some v else m.get? j :=
  Entries.lookup_put k j v m.entries

def ofList (l : List (α × β)) : OrderedMap α β := l.foldl (fun m e => m.put e.1 e.2) ∅

end OrderedMap

end RuleNetwork
