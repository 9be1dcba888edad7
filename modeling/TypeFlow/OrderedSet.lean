/-!
# Ordered sets

A finite set that remembers in which order its members arrived. Adding a
member that is already there changes nothing, so the list of members never
repeats and only ever grows at its end.
-/

namespace TypeFlow

structure OrderedSet (α : Type) where
  toList : List α
  nodup : toList.Nodup
  deriving DecidableEq

namespace OrderedSet

variable {α : Type}

def empty : OrderedSet α := ⟨[], List.nodup_nil⟩

instance : EmptyCollection (OrderedSet α) := ⟨empty⟩

instance : Inhabited (OrderedSet α) := ⟨empty⟩

instance : Membership α (OrderedSet α) := ⟨fun s a => a ∈ s.toList⟩

def size (s : OrderedSet α) : Nat := s.toList.length

def isEmpty (s : OrderedSet α) : Bool := s.toList.isEmpty

/-- The member that arrived as number `i`, counted from zero. -/
def get? (s : OrderedSet α) (i : Nat) : Option α := s.toList[i]?

@[simp] theorem mem_toList {s : OrderedSet α} {a : α} : a ∈ s.toList ↔ a ∈ s := Iff.rfl

@[simp] theorem not_mem_empty (a : α) : a ∉ (∅ : OrderedSet α) := List.not_mem_nil

theorem nodup_snoc {l : List α} {a : α} (hl : l.Nodup) (ha : a ∉ l) : (l ++ [a]).Nodup := by
  rw [List.nodup_append]
  refine ⟨hl, by simp, ?_⟩
  intro x hx y hy
  rw [List.mem_singleton] at hy
  rintro rfl
  exact ha (hy ▸ hx)

variable [DecidableEq α]

instance (a : α) (s : OrderedSet α) : Decidable (a ∈ s) :=
  inferInstanceAs (Decidable (a ∈ s.toList))

def insert (s : OrderedSet α) (a : α) : OrderedSet α :=
  if h : a ∈ s.toList then s else ⟨s.toList ++ [a], nodup_snoc s.nodup h⟩

/-- When `a` arrived, counted from zero. -/
def indexOf? (s : OrderedSet α) (a : α) : Option Nat := s.toList.idxOf? a

def insertAll (s : OrderedSet α) (l : List α) : OrderedSet α := l.foldl insert s

def ofList (l : List α) : OrderedSet α := insertAll empty l

theorem insert_of_mem {s : OrderedSet α} {a : α} (h : a ∈ s) : s.insert a = s := by
  unfold insert
  exact dif_pos h

theorem toList_insert_of_not_mem {s : OrderedSet α} {a : α} (h : a ∉ s) :
    (s.insert a).toList = s.toList ++ [a] := by
  unfold insert
  rw [dif_neg (mt mem_toList.1 h)]

theorem size_insert_of_not_mem {s : OrderedSet α} {a : α} (h : a ∉ s) : (s.insert a).size = s.size + 1 := by
  unfold size
  rw [toList_insert_of_not_mem h, List.length_append, List.length_singleton]

@[simp] theorem mem_insert {s : OrderedSet α} {a b : α} : b ∈ s.insert a ↔ b ∈ s ∨ b = a := by
  by_cases h : a ∈ s
  · rw [insert_of_mem h]
    exact ⟨Or.inl, fun hb => hb.elim id fun hb => hb ▸ h⟩
  · rw [← mem_toList, toList_insert_of_not_mem h]
    simp

theorem mem_insertAll {s : OrderedSet α} {l : List α} {a : α} : a ∈ s.insertAll l ↔ a ∈ s ∨ a ∈ l := by
  induction l generalizing s with
  | nil => simp [insertAll]
  | cons b l ih =>
    have hstep : s.insertAll (b :: l) = (s.insert b).insertAll l := rfl
    rw [hstep, ih, mem_insert, List.mem_cons, or_assoc]

@[simp] theorem mem_ofList {l : List α} {a : α} : a ∈ ofList l ↔ a ∈ l :=
  mem_insertAll.trans (or_iff_right (not_mem_empty a))

end OrderedSet

end TypeFlow
