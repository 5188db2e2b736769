import Std.Data.HashSet

/-!
Sets that remember the order in which their members arrived. Membership is a hash look-up, the
order is an array; the two agree by construction, and no member is listed twice.
-/

set_option autoImplicit false

namespace RuleNetwork

structure OrderedSet (α : Type) [BEq α] [Hashable α] where
  elements : Array α
  index : Std.HashSet α
  mem_index : ∀ a, a ∈ index ↔ a ∈ elements
  nodup : elements.toList.Nodup

namespace OrderedSet

variable {α : Type} [BEq α] [Hashable α]

def empty : OrderedSet α where
  elements := #[]
  index := ∅
  mem_index := by simp
  nodup := by simp

instance : EmptyCollection (OrderedSet α) := ⟨empty⟩

instance : Inhabited (OrderedSet α) := ⟨empty⟩

def toList (s : OrderedSet α) : List α := s.elements.toList

def size (s : OrderedSet α) : Nat := s.elements.size

def contains (s : OrderedSet α) (a : α) : Bool := s.index.contains a

def isEmpty (s : OrderedSet α) : Bool := s.elements.isEmpty

def get? (s : OrderedSet α) (i : Nat) : Option α := s.elements[i]?

@[simp] theorem toList_empty : (∅ : OrderedSet α).toList = [] := rfl

@[simp] theorem length_toList (s : OrderedSet α) : s.toList.length = s.size := rfl

theorem nodup_toList (s : OrderedSet α) : s.toList.Nodup := s.nodup

theorem contains_iff (s : OrderedSet α) (a : α) : s.contains a = true ↔ a ∈ s.toList := by
  simp [contains, toList, ← s.mem_index]

variable [LawfulBEq α]

/-- A member keeps its place when it is inserted again. -/
def insert (s : OrderedSet α) (a : α) : OrderedSet α :=
  if h : a ∈ s.index then s
  else
    { elements := s.elements.push a
      index := s.index.insert a
      mem_index := by
        intro b
        rw [Std.HashSet.mem_insert, s.mem_index, Array.mem_push, beq_iff_eq]
        constructor
        · rintro (rfl | hb)
          · exact .inr rfl
          · exact .inl hb
        · rintro (hb | rfl)
          · exact .inr hb
          · exact .inl rfl
      nodup := by
        have hs : a ∉ s.elements.toList := by
          simpa [s.mem_index] using h
        simp only [Array.toList_push]
        exact List.nodup_append.2 ⟨s.nodup, by simp, by
          intro x hx y hy
          simp only [List.mem_singleton] at hy
          subst hy
          exact fun e => hs (e ▸ hx)⟩ }

theorem toList_insert (s : OrderedSet α) (a : α) :
    (s.insert a).toList = if a ∈ s.toList then s.toList else s.toList ++ [a] := by
  unfold insert
  split
  · rename_i h
    have : a ∈ s.toList := by simpa [toList, s.mem_index] using h
    simp [this]
  · rename_i h
    have : a ∉ s.toList := by simpa [toList, s.mem_index] using h
    rw [if_neg this]
    simp [toList]

theorem toList_insert_of_mem {s : OrderedSet α} {a : α} (h : a ∈ s.toList) :
    (s.insert a).toList = s.toList := by rw [toList_insert, if_pos h]

theorem toList_insert_of_not_mem {s : OrderedSet α} {a : α} (h : a ∉ s.toList) :
    (s.insert a).toList = s.toList ++ [a] := by rw [toList_insert, if_neg h]

@[simp] theorem mem_toList_insert (s : OrderedSet α) (a b : α) :
    b ∈ (s.insert a).toList ↔ b ∈ s.toList ∨ b = a := by
  rw [toList_insert]
  split
  · rename_i h
    constructor
    · exact .inl
    · rintro (hb | rfl)
      · exact hb
      · exact h
  · simp

def insertAll (s : OrderedSet α) (l : List α) : OrderedSet α := l.foldl insert s

@[simp] theorem insertAll_nil (s : OrderedSet α) : s.insertAll [] = s := rfl

@[simp] theorem insertAll_cons (s : OrderedSet α) (a : α) (l : List α) :
    s.insertAll (a :: l) = (s.insert a).insertAll l := rfl

@[simp] theorem mem_toList_insertAll (s : OrderedSet α) (l : List α) (b : α) :
    b ∈ (s.insertAll l).toList ↔ b ∈ s.toList ∨ b ∈ l := by
  induction l generalizing s with
  | nil => simp
  | cons a l ih => rw [insertAll_cons, ih]; simp [or_assoc]

def ofList (l : List α) : OrderedSet α := (∅ : OrderedSet α).insertAll l

@[simp] theorem mem_toList_ofList (l : List α) (b : α) : b ∈ (ofList l).toList ↔ b ∈ l := by
  simp [ofList]

end OrderedSet

end RuleNetwork
