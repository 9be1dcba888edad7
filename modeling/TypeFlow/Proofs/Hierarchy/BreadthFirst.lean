import TypeFlow.Proofs.Hierarchy.Lineage

/-!
# The order of a search

A traversal whose names wait in a queue is a breadth first one: it meets the
names level by level, those that `k` steps lead to before those that `k + 1`
steps do, and within a level in the order of the names that lead to them
(`traverse_levels`). The levels are counted with all repetitions, from the
names at the start and not from those that the search has left; that repeated
names are dropped with all they would lead to again does not change the order.
-/

namespace TypeFlow

/-- The names of a list that are not in `seen`, each where it comes first. -/
def firstMet (seen : List ClassName) : List ClassName → List ClassName
  | [] => []
  | n :: l => if n ∈ seen then firstMet seen l else n :: firstMet (n :: seen) l

section
variable {seen seen' l l' : List ClassName} {n m : ClassName}

theorem firstMet_cons_of_mem (hn : n ∈ seen) : firstMet seen (n :: l) = firstMet seen l := by
  rw [firstMet, if_pos hn]

theorem firstMet_cons_of_not_mem (hn : n ∉ seen) : firstMet seen (n :: l) = n :: firstMet (n :: seen) l := by
  rw [firstMet, if_neg hn]

theorem mem_firstMet : m ∈ firstMet seen l ↔ m ∈ l ∧ m ∉ seen := by
  induction l generalizing seen with
  | nil => simp [firstMet]
  | cons n l ih =>
    by_cases hn : n ∈ seen
    · rw [firstMet_cons_of_mem hn, ih, List.mem_cons]
      refine and_congr_left fun hm => (or_iff_right ?_).symm
      rintro rfl
      exact hm hn
    · rw [firstMet_cons_of_not_mem hn, List.mem_cons, ih, List.mem_cons, List.mem_cons]
      by_cases hm : m = n
      · simp [hm, hn]
      · simp [hm]

theorem nodup_firstMet : (firstMet seen l).Nodup := by
  induction l generalizing seen with
  | nil => exact List.nodup_nil
  | cons n l ih =>
    by_cases hn : n ∈ seen
    · rw [firstMet_cons_of_mem hn]
      exact ih
    · rw [firstMet_cons_of_not_mem hn, List.nodup_cons, mem_firstMet]
      exact ⟨fun h => h.2 List.mem_cons_self, ih⟩

theorem firstMet_congr (h : ∀ m, m ∈ seen ↔ m ∈ seen') : firstMet seen l = firstMet seen' l := by
  induction l generalizing seen seen' with
  | nil => rfl
  | cons n l ih =>
    by_cases hn : n ∈ seen
    · rw [firstMet_cons_of_mem hn, firstMet_cons_of_mem ((h n).1 hn), ih h]
    · rw [firstMet_cons_of_not_mem hn, firstMet_cons_of_not_mem (mt (h n).2 hn), ih fun m => ?_]
      rw [List.mem_cons, List.mem_cons, h]

theorem firstMet_append : firstMet seen (l ++ l') = firstMet seen l ++ firstMet (l ++ seen) l' := by
  induction l generalizing seen with
  | nil => rfl
  | cons n l ih =>
    by_cases hn : n ∈ seen
    · have hsame : ∀ m, m ∈ n :: l ++ seen ↔ m ∈ l ++ seen := by
        intro m
        simp only [List.cons_append, List.mem_cons, List.mem_append, or_iff_right_iff_imp]
        rintro rfl
        exact Or.inr hn
      rw [List.cons_append, firstMet_cons_of_mem hn, firstMet_cons_of_mem hn, ih, firstMet_congr hsame]
    · have hsame : ∀ m, m ∈ n :: l ++ seen ↔ m ∈ l ++ n :: seen := by
        intro m
        simp only [List.cons_append, List.mem_cons, List.mem_append]
        exact or_left_comm
      rw [List.cons_append, firstMet_cons_of_not_mem hn, firstMet_cons_of_not_mem hn, ih, List.cons_append,
        firstMet_congr hsame]

theorem firstMet_eq_nil (h : ∀ m ∈ l, m ∈ seen) : firstMet seen l = [] :=
  List.eq_nil_iff_forall_not_mem.2 fun m hm => (mem_firstMet.1 hm).2 (h m (mem_firstMet.1 hm).1)

/-- A name that was seen leads to nothing new, when what it leads to was seen. -/
theorem firstMet_flatMap_firstMet {next : ClassName → List ClassName} (h : ∀ n ∈ seen, ∀ m ∈ next n, m ∈ seen') :
    firstMet seen' ((firstMet seen l).flatMap next) = firstMet seen' (l.flatMap next) := by
  induction l generalizing seen seen' with
  | nil => rfl
  | cons n l ih =>
    by_cases hn : n ∈ seen
    · have hsame : ∀ m, m ∈ next n ++ seen' ↔ m ∈ seen' := by
        intro m
        rw [List.mem_append, or_iff_right_iff_imp]
        exact h n hn m
      rw [firstMet_cons_of_mem hn, ih h, List.flatMap_cons, firstMet_append,
        firstMet_eq_nil (h n hn), List.nil_append, firstMet_congr hsame]
    · rw [firstMet_cons_of_not_mem hn, List.flatMap_cons, List.flatMap_cons, firstMet_append, firstMet_append, ih]
      intro k hk m hm
      rcases List.mem_cons.1 hk with rfl | hk
      · exact List.mem_append_left _ hm
      · exact List.mem_append_right _ (h k hk m hm)

end

namespace Catalog

variable {c : Catalog} {next : ClassDef → List ClassName} {seen work : List ClassName} {n m : ClassName}

/-- What waits longest is met before anything that it leads to. -/
theorem traverse_append (next : ClassDef → List ClassName) (seen work rest : List ClassName) :
    c.traverse .queue next seen (work ++ rest) = firstMet seen work ++
      c.traverse .queue next ((firstMet seen work).reverse ++ seen)
        (rest ++ (firstMet seen work).flatMap (c.successors next)) := by
  induction work generalizing seen rest with
  | nil => simp [firstMet]
  | cons n work ih =>
    by_cases hn : n ∈ seen
    · rw [List.cons_append, traverse_of_mem hn, firstMet_cons_of_mem hn, ih]
    · rw [List.cons_append, traverse_of_not_mem hn, firstMet_cons_of_not_mem hn]
      simp only [Discipline.add, List.append_assoc, ih, List.flatMap_cons, List.cons_append, List.reverse_cons,
        List.nil_append]

def level (c : Catalog) (next : ClassDef → List ClassName) (work : List ClassName) : Nat → List ClassName
  | 0 => work
  | k + 1 => (c.level next work k).flatMap (c.successors next)

def levels (c : Catalog) (next : ClassDef → List ClassName) (work : List ClassName) (k : Nat) : List ClassName :=
  (List.range k).flatMap (c.level next work)

theorem levels_succ (c : Catalog) (next : ClassDef → List ClassName) (work : List ClassName) (k : Nat) :
    c.levels next work (k + 1) = c.levels next work k ++ c.level next work k := by
  simp [levels, List.range_succ, List.flatMap_append]

theorem mem_levels {k : Nat} : m ∈ c.levels next work k ↔ ∃ i < k, m ∈ c.level next work i := by
  simp [levels, List.mem_flatMap]

/-- What the names of the first levels lead to is in the first levels and the next. -/
theorem levels_closed {k : Nat} (hclosed : ∀ n ∈ seen, ∀ m ∈ c.successors next n, m ∈ seen ∨ m ∈ work)
    (hn : n ∈ seen ∨ n ∈ c.levels next work k) (hm : m ∈ c.successors next n) :
    m ∈ seen ∨ m ∈ c.levels next work (k + 1) := by
  rcases hn with hn | hn
  · exact (hclosed n hn m hm).imp_right fun hm => mem_levels.2 ⟨0, k.succ_pos, hm⟩
  · obtain ⟨i, hi, hn⟩ := mem_levels.1 hn
    exact Or.inr (mem_levels.2 ⟨i + 1, Nat.succ_lt_succ hi, List.mem_flatMap.2 ⟨n, hn, hm⟩⟩)

/-- A traversal starts with the first levels, without repetitions; what waits then is, but for names that were
seen, the next level. -/
theorem traverse_levels (hclosed : ∀ n ∈ seen, ∀ m ∈ c.successors next n, m ∈ seen ∨ m ∈ work) (k : Nat) :
    ∃ met waiting, (∀ m, m ∈ met ↔ m ∈ seen ∨ m ∈ c.levels next work k) ∧
      firstMet met waiting = firstMet met (c.level next work k) ∧
      c.traverse .queue next seen work
        = firstMet seen (c.levels next work k) ++ c.traverse .queue next met waiting := by
  induction k with
  | zero => exact ⟨seen, work, by simp [levels], rfl, rfl⟩
  | succ k ih =>
    obtain ⟨met, waiting, hmet, hwaiting, htraverse⟩ := ih
    have hmet' : ∀ m, m ∈ (firstMet met waiting).reverse ++ met ↔ m ∈ seen ∨ m ∈ c.levels next work (k + 1) := by
      intro m
      simp only [hwaiting, levels_succ, List.mem_append, List.mem_reverse, mem_firstMet, ← or_assoc, ← hmet]
      by_cases hold : m ∈ met <;> simp [hold]
    refine ⟨_, (firstMet met waiting).flatMap (c.successors next), hmet', ?_, ?_⟩
    · rw [hwaiting, firstMet_flatMap_firstMet]
      · rfl
      · intro n hn m hm
        rw [← hwaiting, hmet']
        exact levels_closed hclosed ((hmet n).1 hn) hm
    · have hstep := traverse_append (c := c) next met waiting []
      rw [List.append_nil, List.nil_append] at hstep
      rw [htraverse, hstep, levels_succ, firstMet_append, hwaiting, List.append_assoc]
      congr 2
      exact (firstMet_congr fun m => by rw [hmet, List.mem_append, or_comm]).symm

end Catalog

end TypeFlow
