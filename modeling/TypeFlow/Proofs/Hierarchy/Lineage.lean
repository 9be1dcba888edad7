import Mathlib.Logic.Relation
import TypeFlow.Proofs.Hierarchy.Coherence

/-!
# The lineage of a class

A search goes from its start along superclasses, and from these along
interfaces. So a class is found to be a subclass of the classes on such ways,
but neither of a class that is named on one and does not exist, nor of one that
only the superclass of an interface leads to.
-/

namespace TypeFlow

namespace ClassDef

def ancestry (d : ClassDef) : List ClassName := d.superclass?.toList

end ClassDef

namespace Catalog

def Reaches (c : Catalog) (next : ClassDef → List ClassName) : ClassName → ClassName → Prop :=
  Relation.ReflTransGen fun n m => m ∈ c.successors next n

variable {c : Catalog} {seen : List ClassName} {n m k target : ClassName}

theorem Reaches.mono {next next' : ClassDef → List ClassName}
    (hle : ∀ n m, m ∈ c.successors next n → m ∈ c.successors next' n) (h : c.Reaches next n m) :
    c.Reaches next' n m := by
  induction h with
  | refl => exact .refl
  | tail _ hstep ih => exact ih.tail (hle _ _ hstep)

theorem mem_successors {next : ClassDef → List ClassName} :
    m ∈ c.successors next n ↔ ∃ d, c.find? n = some d ∧ m ∈ next d := by
  unfold successors
  cases hd : c.find? n with
  | none => simp
  | some d => simp

theorem Reaches.congr {c' : Catalog} {next : ClassDef → List ClassName} (hc : ∀ n, c'.find? n = c.find? n)
    (h : c.Reaches next n m) : c'.Reaches next n m := by
  induction h with
  | refl => exact .refl
  | tail _ hstep ih =>
    obtain ⟨d, hd, hm⟩ := mem_successors.1 hstep
    exact ih.tail (mem_successors.2 ⟨d, (hc _).trans hd, hm⟩)

theorem mem_successors_supertypes : m ∈ c.successors ClassDef.supertypes n ↔
    m ∈ c.successors ClassDef.ancestry n ∨ m ∈ c.successors ClassDef.interfaces n := by
  unfold successors
  cases c.find? n with
  | none => simp
  | some d => simp [ClassDef.supertypes, ClassDef.ancestry]

/-! ## Superclasses -/

theorem mem_superclasses_self (h : n ∉ seen) : n ∈ c.superclasses seen n := by
  rw [superclasses_of_not_mem h]
  exact List.mem_cons_self

theorem reaches_of_mem_superclasses (hm : m ∈ c.superclasses seen n) : c.Reaches ClassDef.ancestry n m := by
  fun_induction superclasses c seen n with
  | case1 seen n hn => cases hm
  | case2 seen n hn hd =>
    obtain rfl := List.mem_singleton.1 hm
    exact .refl
  | case3 seen n hn d hd hs =>
    obtain rfl := List.mem_singleton.1 hm
    exact .refl
  | case4 seen n hn d hd parent hs ih =>
    rcases List.mem_cons.1 hm with rfl | hm
    · exact .refl
    · refine .head ?_ (ih hm)
      exact mem_successors.2 ⟨d, hd, by simp [ClassDef.ancestry, hs]⟩

/-- The superclasses of a class go on until one repeats. -/
theorem superclasses_closed (hm : m ∈ c.superclasses seen n) (hk : k ∈ c.successors ClassDef.ancestry m) :
    k ∈ seen ∨ k ∈ c.superclasses seen n := by
  obtain ⟨e, he, hke⟩ := mem_successors.1 hk
  have hsuper : e.superclass? = some k := by simpa [ClassDef.ancestry, eq_comm] using hke
  fun_induction superclasses c seen n with
  | case1 seen n hn => cases hm
  | case2 seen n hn hd =>
    obtain rfl := List.mem_singleton.1 hm
    rw [hd] at he
    cases he
  | case3 seen n hn d hd hs =>
    obtain rfl := List.mem_singleton.1 hm
    obtain rfl : d = e := Option.some.inj (hd.symm.trans he)
    rw [hs] at hsuper
    cases hsuper
  | case4 seen n hn d hd parent hs ih =>
    have hlater : k ∈ n :: seen ∨ k ∈ c.superclasses (n :: seen) parent := by
      rcases List.mem_cons.1 hm with rfl | hm
      · obtain rfl : d = e := Option.some.inj (hd.symm.trans he)
        obtain rfl : parent = k := Option.some.inj (hs.symm.trans hsuper)
        by_cases hp : parent ∈ m :: seen
        · exact Or.inl hp
        · exact Or.inr (mem_superclasses_self hp)
      · exact ih hm
    rcases hlater with hs | hl
    · exact (List.mem_cons.1 hs).symm.imp_right fun he => List.mem_cons.2 (Or.inl he)
    · exact Or.inr (List.mem_cons_of_mem _ hl)

theorem mem_superclasses_iff : m ∈ c.superclasses [] n ↔ c.Reaches ClassDef.ancestry n m := by
  refine ⟨reaches_of_mem_superclasses, fun h => ?_⟩
  induction h with
  | refl => exact mem_superclasses_self List.not_mem_nil
  | tail _ hstep ih => exact (superclasses_closed ih hstep).resolve_left List.not_mem_nil

/-! ## The search -/

/-- A search looks at what the interfaces of the superclasses lead to. -/
theorem mem_searchOrder_iff : m ∈ c.searchOrder n ↔
    ∃ k, c.Reaches ClassDef.ancestry n k ∧ c.Reaches ClassDef.interfaces k m := by
  constructor
  · intro hm
    rcases List.mem_append.1 hm with hm | hm
    · exact ⟨m, mem_superclasses_iff.1 hm, .refl⟩
    · refine traverse_induction (P := fun m => ∃ k, c.Reaches ClassDef.ancestry n k ∧
        c.Reaches ClassDef.interfaces k m)
        (fun ⟨k, hk, hpath⟩ hstep => ⟨k, hk, hpath.tail hstep⟩) (fun j hj => ?_) hm
      obtain ⟨k, hk, hstep⟩ := List.mem_flatMap.1 hj
      exact ⟨k, mem_superclasses_iff.1 hk, .single hstep⟩
  · rintro ⟨k, hk, hpath⟩
    unfold searchOrder
    rw [List.mem_append]
    induction hpath with
    | refl => exact Or.inl (mem_superclasses_iff.2 hk)
    | tail _ hstep ih =>
      rcases ih with hchain | hmet
      · exact mem_traverse_of_mem_work (List.mem_flatMap.2 ⟨_, hchain, hstep⟩)
      · exact traverse_closed hmet hstep

theorem answer_eq_find? (c : Catalog) (q : Question) : c.answer q = (c.searchOrder q.start).find? (c.suits q) := by
  unfold answer search
  induction c.searchOrder q.start with
  | nil => rfl
  | cons n l ih =>
    rw [firstHit, List.find?_cons]
    by_cases hn : c.suits q n = true
    · simp [hn]
    · simp [hn, ih]

theorem isSubclass_iff : c.isSubclass n target = true ↔ target = objectClass ∨ n = target ∨
    (c.find? target).isSome ∧ ∃ k, c.Reaches ClassDef.ancestry n k ∧ c.Reaches ClassDef.interfaces k target := by
  have hsuits : ∀ m, c.suits (.subclass n target) m = true ↔ m = target ∧ (c.find? target).isSome := by
    intro m
    unfold suits
    by_cases hm : m = target
    · subst hm
      cases c.find? m <;> simp [Question.suits]
    · cases c.find? m <;> simp [Question.suits, hm]
  have hanswer : (c.answer (.subclass n target)).isSome ↔
      (c.find? target).isSome ∧ target ∈ c.searchOrder n := by
    rw [answer_eq_find?, List.find?_isSome]
    constructor
    · rintro ⟨m, hm, hs⟩
      obtain ⟨rfl, hsome⟩ := (hsuits m).1 hs
      exact ⟨hsome, hm⟩
    · rintro ⟨hsome, hm⟩
      exact ⟨target, hm, (hsuits target).2 ⟨rfl, hsome⟩⟩
  unfold isSubclass
  rw [Bool.or_eq_true, Bool.or_eq_true, decide_eq_true_eq, decide_eq_true_eq, hanswer, mem_searchOrder_iff,
    or_comm (a := n = target), or_assoc]

/-! ## Supertypes -/

/-- Where only the top class is above interfaces, and nothing above it, all supertypes lead to the same classes
as superclasses and then interfaces do. -/
theorem reaches_supertypes_iff (htop : c.successors ClassDef.supertypes objectClass = [])
    (hinterfaces : ∀ n i, i ∈ c.successors ClassDef.interfaces n →
      ∀ k ∈ c.successors ClassDef.ancestry i, k = objectClass)
    (htarget : target ≠ objectClass) :
    c.Reaches ClassDef.supertypes n target ↔
      ∃ k, c.Reaches ClassDef.ancestry n k ∧ c.Reaches ClassDef.interfaces k target := by
  constructor
  · intro h
    have hall : target = objectClass ∨
        ∃ k, c.Reaches ClassDef.ancestry n k ∧ c.Reaches ClassDef.interfaces k target := by
      clear htarget
      induction h with
      | refl => exact Or.inr ⟨n, .refl, .refl⟩
      | tail _ hstep ih =>
        rcases ih with rfl | ⟨k, hk, hpath⟩
        · rw [htop] at hstep
          cases hstep
        · rcases mem_successors_supertypes.1 hstep with hsuper | hinterface
          · rcases hpath.cases_tail with rfl | ⟨j, _, hlast⟩
            · exact Or.inr ⟨_, hk.tail hsuper, .refl⟩
            · exact Or.inl (hinterfaces j _ hlast _ hsuper)
          · exact Or.inr ⟨k, hk, hpath.tail hinterface⟩
    exact hall.resolve_left htarget
  · rintro ⟨k, hk, hpath⟩
    have hchain := hk.mono fun _ _ h => mem_successors_supertypes.2 (Or.inl h)
    exact hchain.trans (hpath.mono fun _ _ h => mem_successors_supertypes.2 (Or.inr h))

end Catalog

namespace Hierarchy

theorem isSubclass_new (w : World) (sub ancestor : ClassName) :
    (({ world := w } : Hierarchy).isSubclass sub ancestor).1 = w.catalog.isSubclass sub ancestor :=
  ((coherent_new w).isSubclass sub ancestor).1

/-- The subclasses of a class are itself and, where it exists, the classes whose
superclasses lead to it by interfaces. -/
theorem isSubclass_new_iff (w : World) (sub ancestor : ClassName) :
    (({ world := w } : Hierarchy).isSubclass sub ancestor).1 = true ↔ ancestor = objectClass ∨ sub = ancestor ∨
      (w.find? ancestor).isSome ∧
        ∃ k, w.catalog.Reaches ClassDef.ancestry sub k ∧ w.catalog.Reaches ClassDef.interfaces k ancestor := by
  rw [isSubclass_new]
  exact Catalog.isSubclass_iff

/-- With a superclass above no interface but the top one, every way along supertypes
is found to a class that exists. -/
theorem isSubclass_new_iff_reaches {w : World} {sub ancestor : ClassName}
    (hancestor : sub = ancestor ∨ (w.find? ancestor).isSome)
    (htop : w.catalog.successors ClassDef.supertypes objectClass = [])
    (hinterfaces : ∀ n i, i ∈ w.catalog.successors ClassDef.interfaces n →
      ∀ k ∈ w.catalog.successors ClassDef.ancestry i, k = objectClass) :
    (({ world := w } : Hierarchy).isSubclass sub ancestor).1 = true ↔
      ancestor = objectClass ∨ w.catalog.Reaches ClassDef.supertypes sub ancestor := by
  rw [isSubclass_new, Catalog.isSubclass_iff]
  by_cases htarget : ancestor = objectClass
  · simp [htarget]
  · rw [Catalog.reaches_supertypes_iff htop hinterfaces htarget]
    rcases hancestor with rfl | hsome
    · have hself : ∃ k, w.catalog.Reaches ClassDef.ancestry sub k ∧ w.catalog.Reaches ClassDef.interfaces k sub :=
        ⟨sub, .refl, .refl⟩
      simp [hself]
    · have hpresent : (w.catalog.find? ancestor).isSome := hsome
      simp only [htarget, hpresent, true_and, false_or]
      refine or_iff_right_of_imp ?_
      rintro rfl
      exact ⟨sub, .refl, .refl⟩

/-! A class `C` below one that does not exist, and a class `D` that implements an interface below a class `P`. -/

def sampleLineage : World :=
  World.ofList [⟨objectClass, none, [], [], [], []⟩, ⟨"C", some "Lib", [], [], [], []⟩,
    ⟨"P", some objectClass, [], [], [], []⟩, ⟨"J", some "P", [], [.interface], [], []⟩,
    ⟨"D", some objectClass, ["J"], [], [], []⟩]

theorem reaches_sampleLineage_missing : sampleLineage.catalog.Reaches ClassDef.supertypes "C" "Lib" := by
  have hparent : "Lib" ∈ sampleLineage.catalog.successors ClassDef.supertypes "C" := by decide
  exact .single hparent

theorem reaches_sampleLineage_interface : sampleLineage.catalog.Reaches ClassDef.supertypes "D" "P" := by
  have hinterface : "J" ∈ sampleLineage.catalog.successors ClassDef.supertypes "D" := by decide
  have hparent : "P" ∈ sampleLineage.catalog.successors ClassDef.supertypes "J" := by decide
  exact .head hinterface (.single hparent)

/-- Supertypes can lead to a missing class, and from an interface to a superclass,
without there being a subclass. -/
theorem not_forall_isSubclass_iff_reaches :
    ¬ ∀ (w : World) (sub ancestor : ClassName), (({ world := w } : Hierarchy).isSubclass sub ancestor).1 = true ↔
      ancestor = objectClass ∨ w.catalog.Reaches ClassDef.supertypes sub ancestor := by
  intro h
  have hmissing := (h sampleLineage "C" "Lib").2 (Or.inr reaches_sampleLineage_missing)
  rw [isSubclass_new] at hmissing
  exact absurd hmissing (by decide +kernel)

theorem not_forall_isSubclass_iff_reaches_of_isSome :
    ¬ ∀ (w : World) (sub ancestor : ClassName), (w.find? ancestor).isSome →
      ((({ world := w } : Hierarchy).isSubclass sub ancestor).1 = true ↔
        ancestor = objectClass ∨ w.catalog.Reaches ClassDef.supertypes sub ancestor) := by
  intro h
  have hinterface := (h sampleLineage "D" "P" (by decide)).2 (Or.inr reaches_sampleLineage_interface)
  rw [isSubclass_new] at hinterface
  exact absurd hinterface (by decide +kernel)

end Hierarchy

end TypeFlow
