import TypeFlow.Proofs.Hierarchy.Search

/-!
# Inheritance

A class inherits from those that its supertypes lead to. Where nothing is above
the top class, these are the classes that a search visits, so an instance of a
class may be wherever an inherited class is declared, and nowhere else but at
the top.
-/

namespace TypeFlow

namespace Catalog

/-- Whether the supertypes of `n` lead to `target` without going beyond the top class. -/
inductive Inherits (c : Catalog) : ClassName → ClassName → Prop
  | self (n : ClassName) : c.Inherits n n
  | step {n super target : ClassName} {d : ClassDef} (hn : n ≠ objectClass) (hd : c.find? n = some d)
      (hs : super ∈ d.supertypes) (h : c.Inherits super target) : c.Inherits n target

def Topped (c : Catalog) : Prop := ∀ d, c.find? objectClass = some d → d.supertypes = []

variable {c : Catalog} {n m k : ClassName}

theorem Inherits.trans (h : c.Inherits n m) (h' : c.Inherits m k) : c.Inherits n k := by
  induction h with
  | self n => exact h'
  | step hn hd hs _ ih => exact .step hn hd hs (ih h')

theorem Topped.inherits_super (ht : c.Topped) {d : ClassDef} (hd : c.find? n = some d) (hm : m ∈ d.supertypes) :
    c.Inherits n m := by
  refine .step ?_ hd hm (.self m)
  rintro rfl
  rw [ht d hd] at hm
  cases hm

theorem Topped.inherits_of_mem_superclasses (ht : c.Topped) {seen : List ClassName}
    (hm : m ∈ c.superclasses seen n) : c.Inherits n m := by
  fun_induction superclasses c seen n with
  | case1 seen n hn => cases hm
  | case2 seen n hn hd =>
    obtain rfl := List.mem_singleton.1 hm
    exact .self m
  | case3 seen n hn d hd hs =>
    obtain rfl := List.mem_singleton.1 hm
    exact .self m
  | case4 seen n hn d hd parent hs ih =>
    rcases List.mem_cons.1 hm with rfl | hm
    · exact .self m
    · refine (ht.inherits_super hd ?_).trans (ih hm)
      simp [ClassDef.supertypes, hs]

theorem Topped.inherits_of_mem_successors (ht : c.Topped) (hm : m ∈ c.successors ClassDef.interfaces n) :
    c.Inherits n m := by
  unfold successors at hm
  split at hm
  · next d hd => exact ht.inherits_super hd (List.mem_append_right _ hm)
  · cases hm

theorem Topped.inherits_of_mem_traverse (ht : c.Topped) {d : Discipline} {seen work : List ClassName}
    (hm : m ∈ c.traverse d ClassDef.interfaces seen work) : ∃ n ∈ work, c.Inherits n m := by
  fun_induction traverse c d ClassDef.interfaces seen work with
  | case1 seen => cases hm
  | case2 seen n work hn ih =>
    obtain ⟨k, hk, hinh⟩ := ih hm
    exact ⟨k, List.mem_cons_of_mem _ hk, hinh⟩
  | case3 seen n work hn ih =>
    rcases List.mem_cons.1 hm with rfl | hm
    · exact ⟨m, List.mem_cons_self, .self m⟩
    · obtain ⟨k, hk, hinh⟩ := ih hm
      have hk' : k ∈ work ∨ k ∈ c.successors ClassDef.interfaces n := by
        cases d with
        | queue => simpa [Discipline.add] using hk
        | stack => simpa [Discipline.add, or_comm] using hk
      rcases hk' with hk | hk
      · exact ⟨k, List.mem_cons_of_mem _ hk, hinh⟩
      · exact ⟨n, List.mem_cons_self, (ht.inherits_of_mem_successors hk).trans hinh⟩

theorem Topped.inherits_of_mem_searchOrder (ht : c.Topped) (hm : m ∈ c.searchOrder n) : c.Inherits n m := by
  rcases List.mem_append.1 hm with hm | hm
  · exact ht.inherits_of_mem_superclasses hm
  · obtain ⟨k, hk, hinh⟩ := ht.inherits_of_mem_traverse hm
    obtain ⟨j, hj, hk⟩ := List.mem_flatMap.1 hk
    exact (ht.inherits_of_mem_superclasses hj).trans ((ht.inherits_of_mem_successors hk).trans hinh)

/-- What an instance of a class may be assigned to is inherited by the class, or at the top. -/
theorem Topped.inherits_of_isAssignable (ht : c.Topped) {t : ExactType} {declared : ClassName}
    (hd : declared ≠ objectClass) (harray : t.isArray = false) (ha : c.isAssignable t declared = true) :
    ∃ name, t = .ofClass name ∧ c.Inherits name declared := by
  obtain ⟨element, dims⟩ := t
  obtain rfl : dims = 0 := by simpa [ExactType.isArray] using harray
  unfold isAssignable at ha
  rw [if_neg hd, if_neg (by simp [ExactType.isArray])] at ha
  cases element with
  | object name =>
    refine ⟨name, rfl, ?_⟩
    have hsub : c.isSubclass name declared = true := ha
    simp only [isSubclass, Bool.or_eq_true, decide_eq_true_eq] at hsub
    rcases hsub with (rfl | htop) | hanswer
    · exact .self name
    · exact absurd htop hd
    · obtain ⟨found, hfound⟩ := Option.isSome_iff_exists.1 hanswer
      obtain ⟨d, _, hsuits⟩ := suits_of_answer hfound
      obtain rfl : found = declared := of_decide_eq_true hsuits
      exact ht.inherits_of_mem_searchOrder (firstHit_some hfound).2.1
  | _ => cases ha

end Catalog

end TypeFlow
