import Mathlib.Data.List.Chain
import TypeFlow.Proofs.Hierarchy.Defaults

/-!
# Which member a name is resolved to

A member is found in the nearest superclass that declares a suitable one, and
else in the first suitable interface, breadth first from the interfaces of the
superclasses. Only when neither is there, nothing is found.
-/

namespace TypeFlow

namespace Catalog

def Declares (c : Catalog) (p : ClassDef → Bool) (n : ClassName) : Prop := ∃ d, c.find? n = some d ∧ p d = true

/-- The names from a class up, each the superclass of the one before it, to one that names no class, has no
superclass or has one that is there already. -/
structure SuperclassChain (c : Catalog) (start : ClassName) (chain : List ClassName) : Prop where
  first : chain.head? = some start
  upward : chain.IsChain fun n m => m ∈ c.successors ClassDef.ancestry n
  nodup : chain.Nodup
  maximal : ∀ n, chain.getLast? = some n → ∀ m ∈ c.successors ClassDef.ancestry n, m ∈ chain

/-- The interfaces of a chain of superclasses and those that they lead to in less than `k` steps, breadth first:
from the nearest class, in the order of their declaration, each once and without those that the chain has. -/
def breadthFirst (c : Catalog) (chain : List ClassName) (k : Nat) : List ClassName :=
  firstMet chain (c.levels ClassDef.interfaces (chain.flatMap (c.successors ClassDef.interfaces)) k)

/-- Whether `found` is the class whose member a search from `start` is to find, `p` being the test that the class
passes when its member is suitable. -/
structure Resolves (c : Catalog) (p : ClassDef → Bool) (start : ClassName) (found : Option ClassName) : Prop where
  chain : ∃! chain, c.SuperclassChain start chain
  declares : ∀ n, found = some n → c.Declares p n
  nearest : ∀ chain, c.SuperclassChain start chain → (∃ m ∈ chain, c.Declares p m) →
    ∃ n before after, found = some n ∧ chain = before ++ n :: after ∧ ∀ m ∈ before, ¬ c.Declares p m
  breadth : ∀ chain n, c.SuperclassChain start chain → (∀ m ∈ chain, ¬ c.Declares p m) → found = some n →
    ∃ k before after, (chain ++ c.breadthFirst chain k).Nodup ∧ c.breadthFirst chain k = before ++ n :: after ∧
      ∀ m ∈ before, ¬ c.Declares p m
  complete : found = none → ∀ j, c.Reaches ClassDef.ancestry start j →
    ∀ m, c.Reaches ClassDef.interfaces j m → ¬ c.Declares p m

variable {c : Catalog} {p : ClassDef → Bool} {seen chain : List ClassName} {start n m : ClassName}

/-! ## The chain of superclasses -/

theorem mem_successors_ancestry : m ∈ c.successors ClassDef.ancestry n ↔
    (c.find? n).bind ClassDef.superclass? = some m := by
  rw [mem_successors]
  cases c.find? n with
  | none => simp
  | some d => simp [ClassDef.ancestry]

theorem head?_superclasses (hn : n ∉ seen) : (c.superclasses seen n).head? = some n := by
  rw [superclasses_of_not_mem hn]
  rfl

theorem not_mem_of_mem_superclasses (hm : m ∈ c.superclasses seen n) : m ∉ seen := by
  fun_induction superclasses c seen n with
  | case1 seen n hn => cases hm
  | case2 seen n hn hd => exact List.mem_singleton.1 hm ▸ hn
  | case3 seen n hn d hd hs => exact List.mem_singleton.1 hm ▸ hn
  | case4 seen n hn d hd parent hs ih =>
    rcases List.mem_cons.1 hm with rfl | hm
    · exact hn
    · exact fun hmem => ih hm (List.mem_cons_of_mem _ hmem)

theorem nodup_superclasses (c : Catalog) (seen : List ClassName) (n : ClassName) :
    (c.superclasses seen n).Nodup := by
  fun_induction superclasses c seen n with
  | case1 seen n hn => exact List.nodup_nil
  | case2 seen n hn hd => exact List.pairwise_singleton _ n
  | case3 seen n hn d hd hs => exact List.pairwise_singleton _ n
  | case4 seen n hn d hd parent hs ih =>
    exact List.nodup_cons.2 ⟨fun hmem => not_mem_of_mem_superclasses hmem List.mem_cons_self, ih⟩

theorem isChain_superclasses (c : Catalog) (seen : List ClassName) (n : ClassName) :
    (c.superclasses seen n).IsChain fun n m => m ∈ c.successors ClassDef.ancestry n := by
  fun_induction superclasses c seen n with
  | case1 seen n hn => exact .nil
  | case2 seen n hn hd => exact .singleton n
  | case3 seen n hn d hd hs => exact .singleton n
  | case4 seen n hn d hd parent hs ih =>
    refine List.isChain_cons.2 ⟨fun m hm => ?_, ih⟩
    by_cases hp : parent ∈ n :: seen
    · rw [superclasses_of_mem hp] at hm
      cases hm
    · rw [head?_superclasses hp] at hm
      obtain rfl := Option.some.inj hm
      exact mem_successors_ancestry.2 (by rw [hd, Option.bind_some, hs])

theorem superclassChain_superclasses (c : Catalog) (start : ClassName) :
    c.SuperclassChain start (c.superclasses [] start) where
  first := head?_superclasses List.not_mem_nil
  upward := c.isChain_superclasses [] start
  nodup := c.nodup_superclasses [] start
  maximal _ hn _ hm := (superclasses_closed (List.mem_of_getLast? hn) hm).resolve_left List.not_mem_nil

/-- A chain of superclasses that avoids `seen` and can only go on to a name that is there or in `seen`. -/
theorem eq_superclasses (hfirst : chain.head? = some n)
    (hupward : chain.IsChain fun n m => m ∈ c.successors ClassDef.ancestry n) (hnodup : chain.Nodup)
    (havoids : ∀ m ∈ chain, m ∉ seen)
    (hmaximal : ∀ k, chain.getLast? = some k → ∀ m ∈ c.successors ClassDef.ancestry k, m ∈ seen ∨ m ∈ chain) :
    chain = c.superclasses seen n := by
  induction chain generalizing seen n with
  | nil => cases hfirst
  | cons j rest ih =>
    obtain rfl : j = n := Option.some.inj hfirst
    rw [superclasses_of_not_mem (havoids j List.mem_cons_self)]
    congr 1
    cases rest with
    | nil =>
      cases hparent : (c.find? j).bind ClassDef.superclass? with
      | none => rfl
      | some parent =>
        have hrepeats := hmaximal j rfl parent (mem_successors_ancestry.2 hparent)
        exact (superclasses_of_mem (List.mem_cons.2 (hrepeats.symm.imp_left List.mem_singleton.1))).symm
    | cons k rest =>
      obtain ⟨hstep, hupward⟩ := List.isChain_cons_cons.1 hupward
      obtain ⟨hj, hnodup⟩ := List.nodup_cons.1 hnodup
      rw [mem_successors_ancestry.1 hstep]
      refine ih rfl hupward hnodup (fun m hm hmem => ?_) (fun i hi m hm => ?_)
      · rcases List.mem_cons.1 hmem with rfl | hmem
        · exact hj hm
        · exact havoids m (List.mem_cons_of_mem _ hm) hmem
      · have hlast : (j :: k :: rest).getLast? = some i := by rw [List.getLast?_cons_cons, hi]
        rcases hmaximal i hlast m hm with hseen | hmem
        · exact Or.inl (List.mem_cons_of_mem _ hseen)
        · rcases List.mem_cons.1 hmem with rfl | hmem
          · exact Or.inl List.mem_cons_self
          · exact Or.inr hmem

theorem SuperclassChain.eq_superclasses (h : c.SuperclassChain start chain) : chain = c.superclasses [] start :=
  Catalog.eq_superclasses h.first h.upward h.nodup (fun _ _ => List.not_mem_nil) fun n hn m hm =>
    Or.inr (h.maximal n hn m hm)

theorem SuperclassChain.nodup_append_breadthFirst (h : c.SuperclassChain start chain) (k : Nat) :
    (chain ++ c.breadthFirst chain k).Nodup :=
  List.nodup_append.2 ⟨h.nodup, nodup_firstMet, fun _ hm _ hn he => (mem_firstMet.1 hn).2 (he ▸ hm)⟩

/-! ## The first suitable class -/

theorem any_find?_iff : (c.find? n).any p = true ↔ c.Declares p n := by
  rw [Option.any_eq_true]
  rfl

theorem exists_mem_level {work : List ClassName} {next : ClassDef → List ClassName} {d : Discipline}
    (hm : m ∈ c.traverse d next seen work) : ∃ k, m ∈ c.level next work k :=
  traverse_induction (P := fun m => ∃ k, m ∈ c.level next work k)
    (fun ⟨k, hk⟩ hstep => ⟨k + 1, List.mem_flatMap.2 ⟨_, hk, hstep⟩⟩) (fun _ hn => ⟨0, hn⟩) hm

/-- What a traversal finds is found in its first levels. -/
theorem exists_breadthFirst (hn : (c.traverse .queue ClassDef.interfaces chain
      (chain.flatMap (c.successors ClassDef.interfaces))).find? (fun n => (c.find? n).any p) = some n) :
    ∃ k, (c.breadthFirst chain k).find? (fun n => (c.find? n).any p) = some n := by
  have hmem := List.mem_of_find?_eq_some hn
  obtain ⟨k, hk⟩ := exists_mem_level hmem
  have hclosed : ∀ j ∈ chain, ∀ m ∈ c.successors ClassDef.interfaces j,
      m ∈ chain ∨ m ∈ chain.flatMap (c.successors ClassDef.interfaces) :=
    fun j hj m hm => Or.inr (List.mem_flatMap.2 ⟨j, hj, hm⟩)
  obtain ⟨met, waiting, -, -, htraverse⟩ := traverse_levels hclosed (k + 1)
  have hfirst : n ∈ c.breadthFirst chain (k + 1) :=
    mem_firstMet.2 ⟨mem_levels.2 ⟨k, k.lt_succ_self, hk⟩, not_mem_of_mem_traverse hmem⟩
  obtain ⟨found, hfound⟩ := Option.isSome_iff_exists.1 (List.find?_isSome.2 ⟨n, hfirst, List.find?_some hn⟩)
  refine ⟨k + 1, ?_⟩
  rw [htraverse, List.find?_append] at hn
  unfold breadthFirst at hfound ⊢
  rwa [hfound, Option.some_or, ← hfound] at hn

theorem resolves_find? (c : Catalog) (p : ClassDef → Bool) (start : ClassName) :
    c.Resolves p start ((c.searchOrder start).find? fun n => (c.find? n).any p) where
  chain := ⟨_, c.superclassChain_superclasses start, fun _ h => h.eq_superclasses⟩
  declares n hn := any_find?_iff.1 (List.find?_some (p := fun n => (c.find? n).any p) hn)
  nearest chain hchain hsome := by
    obtain ⟨m, hm, hdeclares⟩ := hsome
    have hfound : (chain.find? fun n => (c.find? n).any p).isSome :=
      List.find?_isSome.2 ⟨m, hm, any_find?_iff.2 hdeclares⟩
    obtain ⟨n, hn⟩ := Option.isSome_iff_exists.1 hfound
    obtain ⟨-, before, after, hsplit, hbefore⟩ := List.find?_eq_some_iff_append.1 hn
    refine ⟨n, before, after, ?_, hsplit, fun m hm hp => ?_⟩
    · unfold searchOrder
      rw [← hchain.eq_superclasses, List.find?_append, hn, Option.some_or]
    · simpa [any_find?_iff.2 hp] using hbefore m hm
  breadth chain n hchain hnone hn := by
    have hpast : chain.find? (fun n => (c.find? n).any p) = none :=
      List.find?_eq_none.2 fun m hm hp => hnone m hm (any_find?_iff.1 hp)
    unfold searchOrder at hn
    rw [← hchain.eq_superclasses, List.find?_append, hpast, Option.none_or] at hn
    obtain ⟨k, hk⟩ := exists_breadthFirst hn
    obtain ⟨-, before, after, hsplit, hbefore⟩ := List.find?_eq_some_iff_append.1 hk
    refine ⟨k, before, after, hchain.nodup_append_breadthFirst k, hsplit, fun m hm hp => ?_⟩
    simpa [any_find?_iff.2 hp] using hbefore m hm
  complete hnone j hj m hm hp :=
    List.find?_eq_none.1 hnone m (mem_searchOrder_iff.2 ⟨j, hj, hm⟩) (any_find?_iff.2 hp)

theorem resolves_answer {q : Question} (hq : ∀ n d, q.suits n d = p d) : c.Resolves p q.start (c.answer q) := by
  have hsuits : c.suits q = fun n => (c.find? n).any p := by
    funext n
    unfold suits
    rw [show q.suits n = p from funext (hq n)]
  rw [answer_eq_find?, hsuits]
  exact c.resolves_find? p q.start

end Catalog

namespace Hierarchy

theorem resolveMethod_new (w : World) (m : QualifiedMethod) :
    (({ world := w } : Hierarchy).resolveMethod m).1 = w.catalog.resolveMethod m :=
  ((coherent_new w).resolveMethod m).1

theorem resolveField_new (w : World) (f : QualifiedField) :
    (({ world := w } : Hierarchy).resolveField f).1 = w.catalog.resolveField f :=
  ((coherent_new w).resolveField f).1

/-- Whatever classes there are, a member is resolved to the nearest superclass that declares a suitable one, and
else to the first suitable interface. -/
theorem resolves_new (w : World) :
    (∀ m : QualifiedMethod, ∃ found,
      (({ world := w } : Hierarchy).resolveMethod m).1 = found.map (fun n => ⟨n, m.signature⟩) ∧
        w.catalog.Resolves (fun d => (d.method? m.signature).isSome) m.owner found) ∧
    (∀ (receiver : ClassName) (sig : Signature), ∃ found,
      (({ world := w } : Hierarchy).resolveImplementation receiver sig).1 = found.map (fun n => ⟨n, sig⟩) ∧
        w.catalog.Resolves (fun d => (d.method? sig).any MethodDef.isImplementation) receiver found) ∧
    ∀ f : QualifiedField, ∃ found,
      (({ world := w } : Hierarchy).resolveField f).1 = found.map (fun n => ⟨n, f.name⟩) ∧
        w.catalog.Resolves (fun d => (d.field? f.name).isSome) f.owner found :=
  ⟨fun m => ⟨_, resolveMethod_new w m,
    Catalog.resolves_answer (q := .declaration m.owner m.signature) fun _ _ => rfl⟩,
    fun receiver sig => ⟨_, resolveImplementation_new w receiver sig,
      Catalog.resolves_answer (q := .implementation receiver sig) fun _ _ => rfl⟩,
    fun f => ⟨_, resolveField_new w f, Catalog.resolves_answer (q := .field f.owner f.name) fun _ _ => rfl⟩⟩

end Hierarchy

end TypeFlow
