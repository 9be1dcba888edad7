import TypeFlow.Proofs.Hierarchy.BreadthFirst

/-!
# Which default is found

Interfaces are searched breadth first. So a default method that is found is
not the most specific one, but one of those that the fewest interfaces lie
below: a default that only an overriding interface leads to is never found.
-/

namespace TypeFlow

namespace Catalog

/-- Whether `k` interfaces, or fewer, lead from a superclass of `n` to a class. -/
def Within (c : Catalog) (n : ClassName) : Nat → ClassName → Prop
  | 0, m => c.Reaches ClassDef.ancestry n m
  | k + 1, m => c.Within n k m ∨ ∃ j, c.Within n k j ∧ m ∈ c.successors ClassDef.interfaces j

/-- Whether interfaces lead from `n` to a class on a way on which `avoided` has no interfaces. -/
def ReachesPast (c : Catalog) (avoided : ClassName) : ClassName → ClassName → Prop :=
  Relation.ReflTransGen fun n m => n ≠ avoided ∧ m ∈ c.successors ClassDef.interfaces n

variable {c : Catalog} {n m j : ClassName} {k : Nat}

theorem exists_within_iff : (∃ k, c.Within n k m) ↔ m ∈ c.searchOrder n := by
  rw [mem_searchOrder_iff]
  constructor
  · rintro ⟨k, hk⟩
    induction k generalizing m with
    | zero => exact ⟨m, hk, .refl⟩
    | succ k ih =>
      rcases hk with hk | ⟨j, hk, hstep⟩
      · exact ih hk
      · obtain ⟨a, ha, hpath⟩ := ih hk
        exact ⟨a, ha, hpath.tail hstep⟩
  · rintro ⟨a, ha, hpath⟩
    induction hpath with
    | refl => exact ⟨0, ha⟩
    | tail _ hstep ih =>
      obtain ⟨k, hk⟩ := ih
      exact ⟨k + 1, Or.inr ⟨_, hk, hstep⟩⟩

/-! ## Levels of a breadth first traversal -/

/-- A search starts with the classes that `k` interfaces lead to. -/
theorem searchOrder_level (c : Catalog) (n : ClassName) (k : Nat) : ∃ front seen work,
    c.searchOrder n = front ++ c.traverse .queue ClassDef.interfaces seen work ∧ (∀ m, m ∈ front ↔ c.Within n k m) ∧
      (∀ m, m ∈ seen ↔ m ∈ front) ∧ ∀ m, c.Within n (k + 1) m ↔ m ∈ front ∨ m ∈ work := by
  induction k with
  | zero =>
    refine ⟨c.superclasses [] n, c.superclasses [] n, _, rfl, fun m => mem_superclasses_iff,
      fun m => Iff.rfl, fun m => ?_⟩
    simp only [Within, List.mem_flatMap, mem_superclasses_iff]
  | succ k ih =>
    obtain ⟨front, seen, work, horder, hfront, hseen, hnext⟩ := ih
    have hlevel := traverse_append (c := c) ClassDef.interfaces seen work []
    have hfront' : ∀ m, m ∈ front ++ firstMet seen work ↔ c.Within n (k + 1) m := by
      intro m
      rw [hnext, List.mem_append, mem_firstMet, hseen]
      by_cases hm : m ∈ front <;> simp [hm]
    refine ⟨front ++ firstMet seen work, (firstMet seen work).reverse ++ seen,
      (firstMet seen work).flatMap (c.successors ClassDef.interfaces), ?_, hfront', fun m => ?_, fun m => ?_⟩
    · rw [List.append_nil] at hlevel
      rw [horder, hlevel, List.nil_append, List.append_assoc]
    · rw [List.mem_append, List.mem_reverse, hseen, List.mem_append, or_comm]
    · rw [hfront', List.mem_flatMap]
      constructor
      · rintro (hm | ⟨j, hj, hstep⟩)
        · exact Or.inl hm
        · rcases List.mem_append.1 ((hfront' j).2 hj) with hold | hnew
          · exact Or.inl (Or.inr ⟨j, (hfront j).1 hold, hstep⟩)
          · exact Or.inr ⟨j, hnew, hstep⟩
      · rintro (hm | ⟨j, hj, hstep⟩)
        · exact Or.inl hm
        · exact Or.inr ⟨j, (hfront' j).1 (List.mem_append_right _ hj), hstep⟩

/-- Fewer interfaces do not lead to another class that answers. -/
theorem within_of_answer {q : Question} (h : c.answer q = some n) (hm : c.suits q m = true)
    (hk : c.Within q.start k m) : c.Within q.start k n := by
  obtain ⟨front, seen, work, horder, hfront, _, _⟩ := c.searchOrder_level q.start k
  have hfound : (front.find? (c.suits q)).isSome := List.find?_isSome.2 ⟨m, (hfront m).2 hk, hm⟩
  obtain ⟨found, hfirst⟩ := Option.isSome_iff_exists.1 hfound
  rw [answer_eq_find?, horder, List.find?_append, hfirst, Option.some_or, Option.some.injEq] at h
  subst h
  exact (hfront found).1 (List.mem_of_find?_eq_some hfirst)

/-! ## Ways past a class -/

theorem reachesPast_of_within (hk : c.Within n k m) (hfree : ∀ i < k, ¬ c.Within n i j) :
    ∃ a, c.Reaches ClassDef.ancestry n a ∧ c.ReachesPast j a m := by
  induction k generalizing m with
  | zero => exact ⟨m, hk, .refl⟩
  | succ k ih =>
    have hfree' : ∀ i < k, ¬ c.Within n i j := fun i hi => hfree i (Nat.lt_succ_of_lt hi)
    rcases hk with hk | ⟨b, hk, hstep⟩
    · exact ih hk hfree'
    · obtain ⟨a, ha, hpath⟩ := ih hk hfree'
      refine ⟨a, ha, hpath.tail ⟨?_, hstep⟩⟩
      rintro rfl
      exact hfree k k.lt_succ_self hk

/-- A class that is met no later than `j` is reached past `j`. -/
theorem reachesPast_of_nearer (hle : ∀ i, c.Within n i j → c.Within n i m) (hk : c.Within n k m) :
    ∃ a, c.Reaches ClassDef.ancestry n a ∧ c.ReachesPast j a m := by
  induction k using Nat.strongRecOn with
  | ind k ih =>
    by_cases hearlier : ∃ i < k, c.Within n i m
    · obtain ⟨i, hi, hm⟩ := hearlier
      exact ih i hi hm
    · exact reachesPast_of_within hk fun i hi hj => hearlier ⟨i, hi, hle i hj⟩

end Catalog

namespace Hierarchy

theorem resolveImplementation_new (w : World) (receiver : ClassName) (sig : Signature) :
    (({ world := w } : Hierarchy).resolveImplementation receiver sig).1
      = w.catalog.resolveImplementation receiver sig :=
  ((coherent_new w).resolveImplementation receiver sig).1

/-- When a default is found, another class that implements the signature is neither a superclass nor met sooner, so
a way that avoids it leads to the default. -/
theorem nearest_of_resolveImplementation_new {w : World} {receiver other : ClassName} {sig : Signature}
    {target : QualifiedMethod} {d : ClassDef} {f : MethodDef}
    (h : (({ world := w } : Hierarchy).resolveImplementation receiver sig).1 = some target)
    (hdefault : ¬ w.catalog.Reaches ClassDef.ancestry receiver target.owner) (hd : w.find? other = some d)
    (hf : d.method? sig = some f) (himpl : f.isImplementation = true) :
    ¬ w.catalog.Reaches ClassDef.ancestry receiver other ∧
      (∀ k, w.catalog.Within receiver k other → w.catalog.Within receiver k target.owner) ∧
      ∃ a, w.catalog.Reaches ClassDef.ancestry receiver a ∧ w.catalog.ReachesPast other a target.owner := by
  rw [resolveImplementation_new] at h
  obtain ⟨n, hn, rfl⟩ := Option.map_eq_some_iff.1 h
  have hsuits : w.catalog.suits (.implementation receiver sig) other = true := by
    have hfind : w.catalog.find? other = some d := hd
    unfold Catalog.suits
    simp [hfind, Question.suits, hf, himpl]
  have hnearer : ∀ k, w.catalog.Within receiver k other → w.catalog.Within receiver k n :=
    fun k hk => Catalog.within_of_answer hn hsuits hk
  obtain ⟨k, hk⟩ := Catalog.exists_within_iff.2 (firstHit_some hn).2.1
  exact ⟨fun hsuper => hdefault (hnearer 0 hsuper), hnearer, Catalog.reachesPast_of_nearer hnearer hk⟩

/-! A class that implements an interface and, after it, one that overrides the default of the first. -/

def sampleSig : Signature := ⟨"foo", [], .void⟩

def sampleDefault : MethodDef := ⟨sampleSig, [], some ⟨1, [⟨[.ret none], []⟩]⟩⟩

def sampleOverride : World :=
  World.ofList [⟨"C", some objectClass, ["I", "J"], [], [], []⟩,
    ⟨"J", some objectClass, ["I"], [.interface], [], [sampleDefault]⟩,
    ⟨"I", some objectClass, [], [.interface], [], [sampleDefault]⟩, ⟨objectClass, none, [], [], [], []⟩]

theorem resolveImplementation_sampleOverride :
    (({ world := sampleOverride } : Hierarchy).resolveImplementation "C" sampleSig).1 = some ⟨"I", sampleSig⟩ := by
  rw [resolveImplementation_new]
  decide +kernel

theorem not_reaches_sampleOverride : ¬ sampleOverride.catalog.Reaches ClassDef.ancestry "C" "I" :=
  mt Catalog.mem_superclasses_iff.2 (by decide +kernel)

theorem nearest_sampleOverride : ¬ sampleOverride.catalog.Reaches ClassDef.ancestry "C" "J" ∧
    (∀ k, sampleOverride.catalog.Within "C" k "J" → sampleOverride.catalog.Within "C" k "I") ∧
    ∃ a, sampleOverride.catalog.Reaches ClassDef.ancestry "C" a ∧ sampleOverride.catalog.ReachesPast "J" a "I" :=
  nearest_of_resolveImplementation_new resolveImplementation_sampleOverride not_reaches_sampleOverride
    (d := ⟨"J", some objectClass, ["I"], [.interface], [], [sampleDefault]⟩) (f := sampleDefault) rfl rfl rfl

/-- Each supertype of the sample stands behind the class whose supertype it is. -/
theorem acyclic_sampleOverride (n : ClassName) :
    ¬ Relation.TransGen (fun n m => m ∈ sampleOverride.catalog.successors ClassDef.supertypes n) n n := by
  have hstep : ∀ n m, m ∈ sampleOverride.catalog.successors ClassDef.supertypes n →
      sampleOverride.names.idxOf n < sampleOverride.names.idxOf m := by
    intro n m hm
    obtain ⟨d, hd, hsuper⟩ := Catalog.mem_successors.1 hm
    have hfound : sampleOverride.find? n = some d := hd
    unfold World.find? at hfound
    obtain rfl : d.name = n := by simpa using List.find?_some hfound
    have hall : ∀ d ∈ sampleOverride.classes, ∀ m ∈ d.supertypes,
        sampleOverride.names.idxOf d.name < sampleOverride.names.idxOf m := by decide
    exact hall d (List.mem_of_find?_eq_some hfound) m hsuper
  intro h
  have hlt : ∀ m, Relation.TransGen (fun n m => m ∈ sampleOverride.catalog.successors ClassDef.supertypes n) n m →
      sampleOverride.names.idxOf n < sampleOverride.names.idxOf m := by
    intro m hm
    induction hm with
    | single hm => exact hstep _ _ hm
    | tail _ hm ih => exact Nat.lt_trans ih (hstep _ _ hm)
  exact Nat.lt_irrefl _ (hlt n h)

/-- A default can be found that a superinterface of the receiver overrides. -/
theorem not_forall_most_specific_default :
    ¬ ∀ (w : World) (receiver other : ClassName) (sig : Signature) (target : QualifiedMethod)
      (d : ClassDef) (f : MethodDef),
      (∀ n, ¬ Relation.TransGen (fun n m => m ∈ w.catalog.successors ClassDef.supertypes n) n n) →
      (({ world := w } : Hierarchy).resolveImplementation receiver sig).1 = some target →
      ¬ w.catalog.Reaches ClassDef.ancestry receiver target.owner →
      other ≠ target.owner → w.catalog.Reaches ClassDef.supertypes receiver other →
      w.find? other = some d → d.method? sig = some f → f.isImplementation = true →
      ¬ w.catalog.Reaches ClassDef.interfaces other target.owner := by
  intro h
  have hreceiver : "J" ∈ sampleOverride.catalog.successors ClassDef.supertypes "C" := by decide
  have hinterface : "I" ∈ sampleOverride.catalog.successors ClassDef.interfaces "J" := by decide
  exact h sampleOverride "C" "J" sampleSig ⟨"I", sampleSig⟩
    ⟨"J", some objectClass, ["I"], [.interface], [], [sampleDefault]⟩
    sampleDefault acyclic_sampleOverride resolveImplementation_sampleOverride not_reaches_sampleOverride (by decide)
    (.single hreceiver) rfl rfl rfl (.single hinterface)

end Hierarchy

end TypeFlow
