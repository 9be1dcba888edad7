import TypeFlow.OrderedSet

/-!
# Tables

A finite map from keys to values whose entries keep the order in which their
keys were first written. Writing a key again replaces its value in place.
-/

namespace TypeFlow

structure Table (κ α : Type) where
  entries : List (κ × α)
  nodup : (entries.map Prod.fst).Nodup

namespace Table

variable {κ α : Type}

def empty : Table κ α := ⟨[], List.nodup_nil⟩

instance : EmptyCollection (Table κ α) := ⟨empty⟩

instance : Inhabited (Table κ α) := ⟨empty⟩

def keys (t : Table κ α) : List κ := t.entries.map Prod.fst

def values (t : Table κ α) : List α := t.entries.map Prod.snd

def size (t : Table κ α) : Nat := t.entries.length

def filter (p : κ → α → Bool) (t : Table κ α) : Table κ α :=
  ⟨t.entries.filter fun e => p e.1 e.2,
    t.nodup.sublist ((List.filter_sublist (l := t.entries)).map Prod.fst)⟩

variable [DecidableEq κ]

/-- The value written last at `k`. -/
def find? (t : Table κ α) (k : κ) : Option α := (t.entries.find? fun e => e.1 = k).map Prod.snd

def contains (t : Table κ α) (k : κ) : Bool := k ∈ t.keys

def adjust (t : Table κ α) (k : κ) (f : α → α) : Table κ α :=
  ⟨t.entries.map fun e => if e.1 = k then (e.1, f e.2) else e, by
    have h : (t.entries.map fun e => if e.1 = k then (e.1, f e.2) else e).map Prod.fst
        = t.entries.map Prod.fst := by
      rw [List.map_map]
      apply List.map_congr_left
      intro e _
      simp only [Function.comp]
      split <;> rfl
    rw [h]
    exact t.nodup⟩

/-- Writes `v` at `k`: in place when the key is there, at the end otherwise. -/
def insert (t : Table κ α) (k : κ) (v : α) : Table κ α :=
  if h : k ∈ t.keys then t.adjust k fun _ => v
  else ⟨t.entries ++ [(k, v)], by
    rw [List.map_append]
    exact OrderedSet.nodup_snoc t.nodup h⟩

def insertNew (t : Table κ α) (k : κ) (v : α) : Table κ α :=
  if k ∈ t.keys then t else t.insert k v

@[simp] theorem find?_empty (k : κ) : (∅ : Table κ α).find? k = none := rfl

theorem find?_isSome_iff {t : Table κ α} {k : κ} : (t.find? k).isSome ↔ k ∈ t.keys := by
  simp [find?, keys]

theorem mem_keys_of_find? {t : Table κ α} {k : κ} {v : α} (h : t.find? k = some v) : k ∈ t.keys := by
  rw [← find?_isSome_iff, h]
  rfl

theorem find?_eq_none_iff {t : Table κ α} {k : κ} : t.find? k = none ↔ k ∉ t.keys := by
  rw [← find?_isSome_iff]
  cases t.find? k <;> simp

/-- In a list of things of different keys each is found by its key. -/
theorem find?_of_mem_nodup {β : Type} {key : β → κ} {l : List β} {b : β} (hnd : (l.map key).Nodup) (hb : b ∈ l) :
    l.find? (fun x => key x = key b) = some b := by
  induction l with
  | nil => cases hb
  | cons a rest ih =>
    rw [List.map_cons, List.nodup_cons] at hnd
    rcases List.mem_cons.1 hb with rfl | hr
    · simp
    · have hne : key a ≠ key b := fun h => hnd.1 (h ▸ List.mem_map_of_mem hr)
      rw [List.find?_cons_of_neg (by simpa using hne)]
      exact ih hnd.2 hr

theorem find?_eq_some_iff {t : Table κ α} {k : κ} {v : α} : t.find? k = some v ↔ (k, v) ∈ t.entries := by
  constructor
  · intro h
    obtain ⟨e, he, rfl⟩ := Option.map_eq_some_iff.1 h
    have hk : e.1 = k := by simpa using List.find?_some he
    exact hk ▸ List.mem_of_find?_eq_some he
  · intro h
    rw [find?, find?_of_mem_nodup t.nodup h]
    rfl

theorem find?_adjust (t : Table κ α) (k k' : κ) (f : α → α) :
    (t.adjust k f).find? k' = if k' = k then (t.find? k').map f else t.find? k' := by
  simp only [find?, adjust]
  induction t.entries with
  | nil => simp
  | cons e entries ih =>
    by_cases hk : e.1 = k <;> by_cases hk' : e.1 = k' <;> grind

theorem find?_insert (t : Table κ α) (k k' : κ) (v : α) :
    (t.insert k v).find? k' = if k' = k then some v else t.find? k' := by
  unfold insert
  split
  · next h =>
    rw [find?_adjust]
    split
    · next hk =>
      subst hk
      obtain ⟨w, hw⟩ := Option.isSome_iff_exists.1 (find?_isSome_iff.2 h)
      rw [hw]
      rfl
    · rfl
  · next h =>
    have hn : t.find? k = none := find?_eq_none_iff.2 h
    unfold find? at hn ⊢
    rw [List.find?_append]
    by_cases hk : k' = k
    · subst hk
      rw [Option.map_eq_none_iff] at hn
      simp [hn]
    · simp [hk, Ne.symm hk]

theorem find?_insert_self (t : Table κ α) (k : κ) (v : α) : (t.insert k v).find? k = some v :=
  (find?_insert t k k v).trans (if_pos rfl)

theorem find?_insert_cases {t : Table κ α} {k k' : κ} {v v' : α} (h : (t.insert k v).find? k' = some v') :
    t.find? k' = some v' ∨ k' = k ∧ v' = v := by
  rw [find?_insert] at h
  split at h
  · next hk => exact Or.inr ⟨hk, (Option.some.inj h).symm⟩
  · exact Or.inl h

theorem find?_insertNew (t : Table κ α) (k k' : κ) (v : α) :
    (t.insertNew k v).find? k' = if k' = k ∧ k ∉ t.keys then some v else t.find? k' := by
  unfold insertNew
  split
  · next h => simp [h]
  · next h => simp [find?_insert, h]

theorem find?_filter (t : Table κ α) (p : κ → α → Bool) (k : κ) :
    (t.filter p).find? k = (t.find? k).filter (p k) := by
  cases ht : t.find? k with
  | none =>
    rw [find?_eq_none_iff] at ht
    rw [Option.filter_none, find?_eq_none_iff]
    intro hk
    obtain ⟨e, he, rfl⟩ := List.mem_map.1 hk
    exact ht (List.mem_map_of_mem (List.mem_filter.1 he).1)
  | some v =>
    rw [find?_eq_some_iff] at ht
    by_cases hv : p k v
    · rw [Option.filter_some_pos hv, find?_eq_some_iff]
      exact List.mem_filter.2 ⟨ht, hv⟩
    · rw [Option.filter_some_neg (Bool.eq_false_iff.2 hv), find?_eq_none_iff]
      intro hk
      obtain ⟨⟨k', w⟩, he, rfl⟩ := List.mem_map.1 hk
      obtain ⟨hmem, hp⟩ := List.mem_filter.1 he
      have hvw : some w = some v := (find?_eq_some_iff.2 hmem).symm.trans (find?_eq_some_iff.2 ht)
      cases hvw
      exact hv hp

theorem keys_adjust (t : Table κ α) (k : κ) (f : α → α) : (t.adjust k f).keys = t.keys := by
  unfold keys adjust
  rw [List.map_map]
  apply List.map_congr_left
  intro e _
  simp only [Function.comp]
  split <;> rfl

theorem keys_insert (t : Table κ α) (k : κ) (v : α) :
    (t.insert k v).keys = if k ∈ t.keys then t.keys else t.keys ++ [k] := by
  unfold insert
  split
  · exact keys_adjust t k _
  · exact List.map_append

end Table

end TypeFlow
