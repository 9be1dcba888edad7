import TypeFlow.Proofs.Hierarchy.Search

/-!
# Changes between worlds

What differs between two worlds is listed by name, each name once and in order:
those whose class was changed, removed or added. Worlds without a difference
answer every question alike.
-/

namespace TypeFlow

theorem World.perm_sortNames (names : List String) : (World.sortNames names).Perm names := List.mergeSort_perm _ _

theorem World.pairwise_sortNames (names : List String) : (World.sortNames names).Pairwise (· ≤ ·) := by
  have htrans : ∀ a b c : String, decide (a ≤ b) → decide (b ≤ c) → decide (a ≤ c) := fun a b c hab hbc =>
    decide_eq_true (String.le_trans (of_decide_eq_true hab) (of_decide_eq_true hbc))
  have htotal : ∀ a b : String, decide (a ≤ b) || decide (b ≤ a) := fun a b => by
    rw [Bool.or_eq_true, decide_eq_true_iff, decide_eq_true_iff]
    exact String.le_total a b
  exact (List.pairwise_mergeSort htrans htotal names).imp of_decide_eq_true

/-- Names of which none occurs twice come in order, each once. -/
theorem World.pairwise_lt_sortNames {names : List String} (hn : names.Nodup) :
    (World.sortNames names).Pairwise (· < ·) := by
  have hdistinct : (World.sortNames names).Pairwise (· ≠ ·) := (perm_sortNames names).nodup_iff.2 hn
  refine (List.pairwise_and_iff.2 ⟨pairwise_sortNames names, hdistinct⟩).imp fun {a b} h => ?_
  rw [← String.not_le]
  exact fun hba => h.2 (String.le_antisymm h.1 hba)

namespace World

variable {w v u : World}

/-- Whether two worlds have the same classes, in whatever order. -/
def Same (w v : World) : Prop := ∀ n, v.find? n = w.find? n

theorem Same.symm (h : w.Same v) : v.Same w := fun n => (h n).symm

theorem Same.trans (h : w.Same v) (h' : v.Same u) : w.Same u := fun n => (h' n).trans (h n)

theorem Same.resolveMethod (h : w.Same v) (m : QualifiedMethod) :
    v.catalog.resolveMethod m = w.catalog.resolveMethod m :=
  Catalog.resolveMethod_congr (fun _ => congrArg Prod.fst (Catalog.search_congr fun n _ => h n)) m

theorem find?_eq_some_iff {n : ClassName} {c : ClassDef} : w.find? n = some c ↔ c ∈ w.classes ∧ c.name = n := by
  unfold find?
  constructor
  · intro h
    have hname := List.find?_some h
    exact ⟨List.mem_of_find?_eq_some h, of_decide_eq_true hname⟩
  · rintro ⟨hc, rfl⟩
    exact Table.find?_of_mem_nodup w.nodup hc

theorem mem_names_iff {n : ClassName} : n ∈ w.names ↔ (w.find? n).isSome := by
  rw [Option.isSome_iff_exists]
  constructor
  · intro hn
    obtain ⟨c, hc, rfl⟩ := List.mem_map.1 hn
    exact ⟨c, find?_eq_some_iff.2 ⟨hc, rfl⟩⟩
  · rintro ⟨c, hc⟩
    exact mem_names_of_find? hc

instance : Decidable (w.Same v) :=
  decidable_of_iff (∀ n ∈ w.names ++ v.names, v.find? n = w.find? n) <| by
    refine ⟨fun h n => ?_, fun h n _ => h n⟩
    by_cases hn : n ∈ w.names ++ v.names
    · exact h n hn
    · rw [List.mem_append, not_or, mem_names_iff, mem_names_iff, Option.not_isSome_iff_eq_none,
        Option.not_isSome_iff_eq_none] at hn
      rw [hn.1, hn.2]

/-! ## The names that changed -/

theorem mem_altered {n : ClassName} :
    n ∈ (w.classes.filter fun c => v.find? c.name ≠ some c).map ClassDef.name ↔
      n ∈ w.names ∧ v.find? n ≠ w.find? n := by
  rw [List.mem_map, mem_names_iff]
  constructor
  · rintro ⟨c, hc, rfl⟩
    obtain ⟨hc, hne⟩ := List.mem_filter.1 hc
    have hfind : w.find? c.name = some c := find?_eq_some_iff.2 ⟨hc, rfl⟩
    rw [hfind]
    exact ⟨rfl, of_decide_eq_true hne⟩
  · rintro ⟨hn, hne⟩
    obtain ⟨c, hc⟩ := Option.isSome_iff_exists.1 hn
    obtain ⟨hmem, rfl⟩ := find?_eq_some_iff.1 hc
    exact ⟨c, List.mem_filter.2 ⟨hmem, decide_eq_true (hc ▸ hne)⟩, rfl⟩

theorem mem_added {n : ClassName} :
    n ∈ v.names.filter (fun n => n ∉ w.names) ↔ n ∉ w.names ∧ v.find? n ≠ w.find? n := by
  rw [List.mem_filter, decide_eq_true_iff, and_comm]
  refine and_congr_right fun hn => ?_
  rw [mem_names_iff, Option.not_isSome_iff_eq_none] at hn
  rw [mem_names_iff, hn, Option.isSome_iff_ne_none]

/-- The names that changed are those at which the worlds differ. -/
theorem mem_changed {n : ClassName} : n ∈ w.changed v ↔ v.find? n ≠ w.find? n := by
  unfold changed
  simp only []
  rw [(perm_sortNames _).mem_iff, List.mem_append, mem_altered, mem_added, ← or_and_right]
  exact and_iff_right (Classical.em _)

/-- They come in order, each once. -/
theorem pairwise_changed : (w.changed v).Pairwise (· < ·) := by
  refine pairwise_lt_sortNames (List.nodup_append.2 ⟨?_, ?_, ?_⟩)
  · exact w.nodup.sublist (List.filter_sublist.map ClassDef.name)
  · exact v.nodup.sublist List.filter_sublist
  · rintro n hn m hm rfl
    exact (mem_added.1 hm).1 (mem_altered.1 hn).1

theorem changed_eq_nil_iff : w.changed v = [] ↔ w.Same v := by
  rw [List.eq_nil_iff_forall_not_mem]
  exact forall_congr' fun n => by rw [mem_changed, Decidable.not_not]

end World

end TypeFlow
