import TypeFlow.Hierarchy.Query

/-!
# What a search looks at

The path of a search is all that it looks at: a catalog that has the same
classes at the names of the path gives the same answer by the same path
(`search_congr`), whatever else it holds.
-/

namespace TypeFlow

/-! ## First hits -/

theorem firstHit_append_of_hit {p : ClassName → Bool} {l : List ClassName} (h : (firstHit p l).1 ≠ none)
    (m : List ClassName) : firstHit p (l ++ m) = firstHit p l := by
  induction l with
  | nil => exact absurd rfl h
  | cons n l ih =>
    simp only [firstHit, List.cons_append] at h ⊢
    by_cases hn : p n
    · simp [hn]
    · simp only [hn] at h ⊢
      rw [ih h]

theorem firstHit_append_of_none {p : ClassName → Bool} {l : List ClassName} (h : (firstHit p l).1 = none)
    (m : List ClassName) : firstHit p (l ++ m) = ((firstHit p m).1, l ++ (firstHit p m).2) := by
  induction l with
  | nil => rfl
  | cons n l ih =>
    simp only [firstHit, List.cons_append] at h ⊢
    by_cases hn : p n
    · simp [hn] at h
    · simp only [hn] at h ⊢
      rw [ih h]
      rfl

theorem firstHit_path_of_none {p : ClassName → Bool} {l : List ClassName} (h : (firstHit p l).1 = none) :
    (firstHit p l).2 = l := by
  have := firstHit_append_of_none h []
  simp only [List.append_nil] at this
  rw [this]
  simp [firstHit]

theorem firstHit_some {p : ClassName → Bool} {l : List ClassName} {n : ClassName} (h : (firstHit p l).1 = some n) :
    p n ∧ n ∈ l ∧ n ∈ (firstHit p l).2 := by
  induction l with
  | nil => cases h
  | cons m l ih =>
    simp only [firstHit] at h ⊢
    by_cases hm : p m
    · simp only [hm, if_true, Option.some.injEq] at h ⊢
      subst h
      exact ⟨hm, List.mem_cons_self, List.mem_cons_self⟩
    · simp only [hm] at h ⊢
      obtain ⟨hp, hl, hpath⟩ := ih h
      exact ⟨hp, List.mem_cons_of_mem _ hl, List.mem_cons_of_mem _ hpath⟩

namespace Catalog

theorem superclasses_of_mem {c : Catalog} {seen : List ClassName} {n : ClassName} (h : n ∈ seen) :
    c.superclasses seen n = [] := by
  rw [superclasses, dif_pos h]

theorem superclasses_of_not_mem {c : Catalog} {seen : List ClassName} {n : ClassName} (h : n ∉ seen) :
    c.superclasses seen n = n :: match (c.find? n).bind ClassDef.superclass? with
      | some parent => c.superclasses (n :: seen) parent
      | none => [] := by
  rw [superclasses, dif_neg h]
  split
  · next hd => rw [hd]; rfl
  · next d hd =>
    rw [hd]
    split
    · next hp => simp only [Option.bind_some, hp]
    · next hp => simp only [Option.bind_some, hp]

theorem traverse_nil (c : Catalog) (d : Discipline) (next : ClassDef → List ClassName) (seen : List ClassName) :
    c.traverse d next seen [] = [] := by
  rw [traverse]

theorem traverse_of_mem {c : Catalog} {d : Discipline} {next : ClassDef → List ClassName}
    {seen work : List ClassName} {n : ClassName} (h : n ∈ seen) :
    c.traverse d next seen (n :: work) = c.traverse d next seen work := by
  rw [traverse, dif_pos h]

theorem traverse_of_not_mem {c : Catalog} {d : Discipline} {next : ClassDef → List ClassName}
    {seen work : List ClassName} {n : ClassName} (h : n ∉ seen) :
    c.traverse d next seen (n :: work)
      = n :: c.traverse d next (n :: seen) (d.add work (c.successors next n)) := by
  rw [traverse, dif_neg h]

/-! ## What a traversal meets -/

section
variable {c : Catalog} {d : Discipline} {next : ClassDef → List ClassName} {seen work : List ClassName}
  {m n : ClassName}

theorem mem_add {waiting found : List ClassName} : n ∈ d.add waiting found ↔ n ∈ waiting ∨ n ∈ found := by
  cases d <;> simp [Discipline.add, or_comm]

theorem not_mem_of_mem_traverse (hm : m ∈ c.traverse d next seen work) : m ∉ seen := by
  fun_induction traverse c d next seen work with
  | case1 seen => cases hm
  | case2 seen n work hn ih => exact ih hm
  | case3 seen n work hn ih =>
    rcases List.mem_cons.1 hm with rfl | hm
    · exact hn
    · exact fun hs => ih hm (List.mem_cons_of_mem _ hs)

theorem mem_traverse_of_mem_work (hm : m ∈ work) : m ∈ seen ∨ m ∈ c.traverse d next seen work := by
  fun_induction traverse c d next seen work with
  | case1 seen => cases hm
  | case2 seen n work hn ih =>
    rcases List.mem_cons.1 hm with rfl | hm
    · exact Or.inl hn
    · exact ih hm
  | case3 seen n work hn ih =>
    rcases List.mem_cons.1 hm with rfl | hm
    · exact Or.inr List.mem_cons_self
    · rcases ih (mem_add.2 (Or.inl hm)) with hs | ht
      · exact (List.mem_cons.1 hs).symm.imp_right fun he => List.mem_cons.2 (Or.inl he)
      · exact Or.inr (List.mem_cons_of_mem _ ht)

/-- A traversal goes on until nothing more is met. -/
theorem traverse_closed (hm : m ∈ c.traverse d next seen work) (hn : n ∈ c.successors next m) :
    n ∈ seen ∨ n ∈ c.traverse d next seen work := by
  fun_induction traverse c d next seen work with
  | case1 seen => cases hm
  | case2 seen k work hk ih => exact ih hm
  | case3 seen k work hk ih =>
    have hlater : n ∈ k :: seen ∨ n ∈ c.traverse d next (k :: seen) (d.add work (c.successors next k)) := by
      rcases List.mem_cons.1 hm with rfl | hm
      · exact mem_traverse_of_mem_work (mem_add.2 (Or.inr hn))
      · exact ih hm
    rcases hlater with hs | ht
    · exact (List.mem_cons.1 hs).symm.imp_right fun he => List.mem_cons.2 (Or.inl he)
    · exact Or.inr (List.mem_cons_of_mem _ ht)

/-- What holds of the names at the start and passes on to successors holds of all names met. -/
theorem traverse_induction {P : ClassName → Prop} (hP : ∀ {n m}, P n → m ∈ c.successors next n → P m)
    (hwork : ∀ n ∈ work, P n) (hm : m ∈ c.traverse d next seen work) : P m := by
  fun_induction traverse c d next seen work with
  | case1 seen => cases hm
  | case2 seen n work hn ih => exact ih (fun k hk => hwork k (List.mem_cons_of_mem _ hk)) hm
  | case3 seen n work hn ih =>
    have hfirst := hwork n List.mem_cons_self
    rcases List.mem_cons.1 hm with rfl | hm
    · exact hfirst
    · refine ih (fun k hk => ?_) hm
      rcases mem_add.1 hk with hk | hk
      · exact hwork k (List.mem_cons_of_mem _ hk)
      · exact hP hfirst hk

end

/-! ## Searches in two catalogs -/

theorem successors_congr {c c' : Catalog} {next : ClassDef → List ClassName} {n : ClassName}
    (h : c'.find? n = c.find? n) : c'.successors next n = c.successors next n := by
  unfold successors
  rw [h]

theorem flatMap_successors_congr {c c' : Catalog} {next : ClassDef → List ClassName} {l : List ClassName}
    (h : ∀ n ∈ l, c'.find? n = c.find? n) : l.flatMap (c'.successors next) = l.flatMap (c.successors next) := by
  simp only [List.flatMap_def]
  congr 1
  exact List.map_congr_left fun n hn => successors_congr (h n hn)

section
variable {c : Catalog} {p : ClassName → Bool} (c' : Catalog) (p' : ClassName → Bool)

/-- Along the superclasses: the hits agree, and without a hit the whole chains do. -/
theorem firstHit_superclasses (seen : List ClassName) (name : ClassName)
    (h : ∀ n ∈ (firstHit p (c.superclasses seen name)).2, c'.find? n = c.find? n ∧ p' n = p n) :
    firstHit p' (c'.superclasses seen name) = firstHit p (c.superclasses seen name) ∧
      ((firstHit p (c.superclasses seen name)).1 = none →
        c'.superclasses seen name = c.superclasses seen name) := by
  fun_induction superclasses c seen name with
  | case1 seen n hn =>
    rw [superclasses_of_mem hn]
    exact ⟨rfl, fun _ => rfl⟩
  | case2 seen n hn hd =>
    rw [superclasses_of_not_mem hn]
    have hself : n ∈ (firstHit p [n]).2 := by
      simp only [firstHit]
      split <;> exact List.mem_cons_self
    obtain ⟨hf, hp⟩ := h n hself
    rw [hf, hd]
    simp [firstHit, hp]
  | case3 seen n hn d hd hs =>
    rw [superclasses_of_not_mem hn]
    have hself : n ∈ (firstHit p [n]).2 := by
      simp only [firstHit]
      split <;> exact List.mem_cons_self
    obtain ⟨hf, hp⟩ := h n hself
    rw [hf, hd]
    simp [firstHit, hp, hs]
  | case4 seen n hn d hd parent hs ih =>
    rw [superclasses_of_not_mem hn]
    have hself : n ∈ (firstHit p (n :: c.superclasses (n :: seen) parent)).2 := by
      simp only [firstHit]
      split <;> exact List.mem_cons_self
    obtain ⟨hf, hp⟩ := h n hself
    simp only [hf, hd, Option.bind_some, hs]
    simp only [firstHit, hp] at h ⊢
    by_cases hit : p n
    · simp [hit]
    · simp only [hit] at h ⊢
      obtain ⟨hsame, hchain⟩ := ih fun m hm => h m (List.mem_cons_of_mem _ hm)
      rw [hsame]
      exact ⟨rfl, fun hnone => congrArg (n :: ·) (hchain hnone)⟩

theorem firstHit_traverse (d : Discipline) (next : ClassDef → List ClassName) (seen work : List ClassName)
    (h : ∀ n ∈ (firstHit p (c.traverse d next seen work)).2, c'.find? n = c.find? n ∧ p' n = p n) :
    firstHit p' (c'.traverse d next seen work) = firstHit p (c.traverse d next seen work) ∧
      ((firstHit p (c.traverse d next seen work)).1 = none →
        c'.traverse d next seen work = c.traverse d next seen work) := by
  fun_induction traverse c d next seen work with
  | case1 seen =>
    rw [traverse_nil]
    exact ⟨rfl, fun _ => rfl⟩
  | case2 seen n work hn ih =>
    rw [traverse_of_mem hn]
    exact ih h
  | case3 seen n work hn ih =>
    rw [traverse_of_not_mem hn]
    have hself : n ∈ (firstHit p (n :: c.traverse d next (n :: seen) (d.add work (c.successors next n)))).2 := by
      simp only [firstHit]
      split <;> exact List.mem_cons_self
    obtain ⟨hf, hp⟩ := h n hself
    rw [successors_congr hf]
    simp only [firstHit, hp] at h ⊢
    by_cases hit : p n
    · simp [hit]
    · simp only [hit] at h ⊢
      obtain ⟨hsame, hall⟩ := ih fun m hm => h m (List.mem_cons_of_mem _ hm)
      rw [hsame]
      exact ⟨rfl, fun hnone => congrArg (n :: ·) (hall hnone)⟩

end

section
variable {c c' : Catalog}

theorem suits_congr {q : Question} {n : ClassName} (h : c'.find? n = c.find? n) : c'.suits q n = c.suits q n := by
  unfold suits
  rw [h]

/-- The path is all that a search looks at. -/
theorem search_congr {q : Question} (h : ∀ n ∈ (c.search q).2, c'.find? n = c.find? n) :
    c'.search q = c.search q := by
  have hp : ∀ n ∈ (c.search q).2, c'.find? n = c.find? n ∧ c'.suits q n = c.suits q n :=
    fun n hn => ⟨h n hn, suits_congr (h n hn)⟩
  unfold search searchOrder at hp ⊢
  simp only [] at hp ⊢
  by_cases hit : (firstHit (c.suits q) (c.superclasses [] q.start)).1 = none
  · rw [firstHit_append_of_none hit] at hp ⊢
    have hchain := firstHit_superclasses c' (c'.suits q) [] q.start fun n hn =>
      hp n (List.mem_append_left _ (firstHit_path_of_none hit ▸ hn))
    have hsame := hchain.2 hit
    rw [hsame]
    have hwork : (c.superclasses [] q.start).flatMap (c'.successors ClassDef.interfaces)
        = (c.superclasses [] q.start).flatMap (c.successors ClassDef.interfaces) :=
      flatMap_successors_congr fun n hn => (hp n (List.mem_append_left _ hn)).1
    rw [hwork]
    have hnone : (firstHit (c'.suits q) (c.superclasses [] q.start)).1 = none := by
      rw [← hsame, hchain.1]
      exact hit
    rw [firstHit_append_of_none hnone, (firstHit_traverse c' (c'.suits q) _ _ _ _ fun n hn =>
      hp n (List.mem_append_right _ hn)).1]
  · rw [firstHit_append_of_hit hit] at hp ⊢
    have hsame := (firstHit_superclasses c' (c'.suits q) [] q.start hp).1
    rw [firstHit_append_of_hit (by rw [hsame]; exact hit), hsame]

end

/-! ## Catalogs with the same supertypes -/

section
variable {c c' : Catalog}

theorem superclasses_congr (h : ∀ n, (c'.find? n).bind ClassDef.superclass? = (c.find? n).bind ClassDef.superclass?)
    (seen : List ClassName) (n : ClassName) : c'.superclasses seen n = c.superclasses seen n := by
  fun_induction superclasses c seen n with
  | case1 seen n hn => rw [superclasses_of_mem hn]
  | case2 seen n hn hd =>
    rw [superclasses_of_not_mem hn, h, hd]
    rfl
  | case3 seen n hn d hd hs =>
    rw [superclasses_of_not_mem hn, h, hd, Option.bind_some, hs]
  | case4 seen n hn d hd parent hs ih =>
    rw [superclasses_of_not_mem hn, h, hd, Option.bind_some, hs]
    exact congrArg (n :: ·) ih

theorem traverse_congr {next : ClassDef → List ClassName} (h : ∀ n, c'.successors next n = c.successors next n)
    (d : Discipline) (seen work : List ClassName) : c'.traverse d next seen work = c.traverse d next seen work := by
  fun_induction traverse c d next seen work with
  | case1 seen => rw [traverse_nil]
  | case2 seen n work hn ih => rw [traverse_of_mem hn, ih]
  | case3 seen n work hn ih => rw [traverse_of_not_mem hn, h, ih]

theorem searchOrder_congr
    (hc : ∀ n, (c'.find? n).bind ClassDef.superclass? = (c.find? n).bind ClassDef.superclass?)
    (hi : ∀ n, c'.successors ClassDef.interfaces n = c.successors ClassDef.interfaces n) (n : ClassName) :
    c'.searchOrder n = c.searchOrder n := by
  unfold searchOrder
  simp only [superclasses_congr hc, traverse_congr hi, funext hi]

end

/-! ## Catalogs with the same answers -/

section
variable {c c' : Catalog} (h : ∀ q, c'.answer q = c.answer q)
include h

theorem resolveMethod_congr (m : QualifiedMethod) : c'.resolveMethod m = c.resolveMethod m := by
  unfold resolveMethod
  rw [h]

theorem resolveImplementation_congr (receiver : ClassName) (s : Signature) :
    c'.resolveImplementation receiver s = c.resolveImplementation receiver s := by
  unfold resolveImplementation
  rw [h]

theorem resolveField_congr (f : QualifiedField) : c'.resolveField f = c.resolveField f := by
  unfold resolveField
  rw [h]

theorem isAssignable_congr (t : ExactType) (declared : ClassName) :
    c'.isAssignable t declared = c.isAssignable t declared := by
  simp only [isAssignable, isSubclass, h]

end

/-! ## Resolved members

A member is resolved to the class that declares it, and from there to itself. -/

section
variable {c : Catalog}

theorem answer_start {q : Question} {d : ClassDef} (hd : c.find? q.start = some d) (hs : q.suits q.start d) :
    c.answer q = some q.start := by
  have hsuits : c.suits q q.start = true := by
    unfold suits
    rw [hd]
    exact hs
  unfold answer search searchOrder
  simp only []
  rw [superclasses_of_not_mem (List.not_mem_nil), List.cons_append]
  simp only [firstHit, hsuits, if_true]

theorem suits_of_answer {q : Question} {n : ClassName} (h : c.answer q = some n) :
    ∃ d, c.find? n = some d ∧ q.suits n d := by
  have hsuits := (firstHit_some h).1
  unfold suits at hsuits
  cases hd : c.find? n with
  | none =>
    rw [hd] at hsuits
    cases hsuits
  | some d =>
    rw [hd] at hsuits
    exact ⟨d, rfl, hsuits⟩

theorem resolveMethod_some {m target : QualifiedMethod} (h : c.resolveMethod m = some target) :
    target.signature = m.signature ∧
      ∃ d f, c.find? target.owner = some d ∧ d.method? target.signature = some f := by
  obtain ⟨n, hn, rfl⟩ := Option.map_eq_some_iff.1 h
  obtain ⟨d, hd, hs⟩ := suits_of_answer hn
  obtain ⟨f, hf⟩ := Option.isSome_iff_exists.1 (show (d.method? m.signature).isSome from hs)
  exact ⟨rfl, d, f, hd, hf⟩

theorem resolveMethod_self {m : QualifiedMethod} {d : ClassDef} {f : MethodDef} (hd : c.find? m.owner = some d)
    (hf : d.method? m.signature = some f) : c.resolveMethod m = some m := by
  have hs : (Question.declaration m.owner m.signature).suits m.owner d = true := Option.isSome_iff_exists.2 ⟨f, hf⟩
  unfold resolveMethod
  rw [answer_start hd hs]
  rfl

theorem resolveMethod_idem {m target : QualifiedMethod} (h : c.resolveMethod m = some target) :
    c.resolveMethod target = some target := by
  obtain ⟨_, d, f, hd, hf⟩ := resolveMethod_some h
  exact resolveMethod_self hd hf

/-- What implements a signature for a receiver is a method that a call on an instance can run. -/
theorem resolveImplementation_some {receiver : ClassName} {sig : Signature} {target : QualifiedMethod}
    (h : c.resolveImplementation receiver sig = some target) : target.signature = sig ∧
      ∃ d f, c.find? target.owner = some d ∧ d.method? target.signature = some f ∧ f.isImplementation = true := by
  obtain ⟨n, hn, rfl⟩ := Option.map_eq_some_iff.1 h
  obtain ⟨d, hd, hs⟩ := suits_of_answer hn
  have himpl : (d.method? sig).any MethodDef.isImplementation = true := hs
  cases hf : d.method? sig with
  | none =>
    rw [hf] at himpl
    cases himpl
  | some f =>
    rw [hf] at himpl
    exact ⟨rfl, d, f, hd, hf, himpl⟩

theorem resolveMethod_of_resolveImplementation {receiver : ClassName} {sig : Signature} {target : QualifiedMethod}
    (h : c.resolveImplementation receiver sig = some target) : c.resolveMethod target = some target := by
  obtain ⟨n, hn, rfl⟩ := Option.map_eq_some_iff.1 h
  obtain ⟨d, hd, hs⟩ := suits_of_answer hn
  cases hf : d.method? sig with
  | none =>
    have hany : (d.method? sig).any MethodDef.isImplementation = true := hs
    rw [hf] at hany
    cases hany
  | some f => exact resolveMethod_self hd hf

theorem resolveField_idem {f target : QualifiedField} (h : c.resolveField f = some target) :
    c.resolveField target = some target := by
  obtain ⟨n, hn, rfl⟩ := Option.map_eq_some_iff.1 h
  obtain ⟨d, hd, hs⟩ := suits_of_answer hn
  have hs' : (Question.field n f.name).suits n d = true := hs
  unfold resolveField
  rw [answer_start hd hs']
  rfl

end

end Catalog

end TypeFlow
