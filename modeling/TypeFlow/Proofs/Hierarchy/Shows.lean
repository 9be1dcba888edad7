import TypeFlow.Proofs.Hierarchy.Coherence

/-!
# What a hierarchy shows

A hierarchy shows a world when it is coherent and has the classes of the world,
wherever it has them from. Its answers are then those of the world, and remain
so: what was remembered before cannot be told from what is looked up now.
-/

namespace TypeFlow

namespace Hierarchy

structure Shows (h : Hierarchy) (w : World) : Prop where
  coherent : h.Coherent
  lookup : ∀ n, h.lookup n = w.find? n

theorem shows_new (w : World) : Shows { world := w } w := ⟨coherent_new w, fun _ => rfl⟩

/-- A hierarchy shows a new world once it has forgotten the classes that it remembers otherwise. -/
theorem shows_evict {h : Hierarchy} (hc : h.Coherent) {w : World} {stale : List ClassName}
    (hs : ∀ n found, h.classes.find? n = some found → found ≠ w.find? n → n ∈ stale) :
    ((h.setWorld w).evict stale).Shows w := by
  refine ⟨coherent_evict (coherent_setWorld hc w) stale, fun n => ?_⟩
  rw [lookup_evict]
  by_cases hn : n ∈ stale
  · rw [if_pos hn]
    rfl
  · rw [if_neg hn]
    cases hf : h.classes.find? n with
    | none =>
      unfold lookup
      rw [show (h.setWorld w).classes.find? n = none from hf]
      rfl
    | some found =>
      rw [lookup_of_find? (h := h.setWorld w) hf]
      by_cases heq : found = w.find? n
      · exact heq
      · exact absurd (hs n found hf heq) hn

section
variable {h h' : Hierarchy} {w : World} (hs : h.Shows w)
include hs

theorem Shows.learns (hl : h.Learns h') : h'.Shows w :=
  ⟨hl.coherent hs.coherent, fun n => (hl.lookup n).trans (hs.lookup n)⟩

theorem Shows.get (n : ClassName) : (h.get n).1 = w.find? n ∧ (h.get n).2.Shows w :=
  ⟨hs.lookup n, hs.learns (h.learns_remember n)⟩

theorem Shows.search (q : Question) : h.view.search q = w.catalog.search q :=
  Catalog.search_congr fun n _ => hs.lookup n

theorem Shows.answer (q : Question) : h.view.answer q = w.catalog.answer q := congrArg Prod.fst (hs.search q)

theorem Shows.superclasses (seen : List ClassName) (n : ClassName) :
    h.view.superclasses seen n = w.catalog.superclasses seen n :=
  Catalog.superclasses_congr (fun n => congrArg (Option.bind · ClassDef.superclass?) (hs.lookup n)) seen n

theorem Shows.traverse (d : Discipline) (next : ClassDef → List ClassName) (seen work : List ClassName) :
    h.view.traverse d next seen work = w.catalog.traverse d next seen work :=
  Catalog.traverse_congr (fun n => Catalog.successors_congr (hs.lookup n)) d seen work

theorem Shows.resolveMethod (m : QualifiedMethod) :
    (h.resolveMethod m).1 = w.catalog.resolveMethod m ∧ (h.resolveMethod m).2.Shows w :=
  ⟨(hs.coherent.resolveMethod m).1.trans (Catalog.resolveMethod_congr hs.answer m), hs.learns (h.learns_ask _)⟩

theorem Shows.resolveImplementation (receiver : ClassName) (sig : Signature) :
    (h.resolveImplementation receiver sig).1 = w.catalog.resolveImplementation receiver sig ∧
      (h.resolveImplementation receiver sig).2.Shows w :=
  ⟨(hs.coherent.resolveImplementation receiver sig).1.trans
    (Catalog.resolveImplementation_congr hs.answer receiver sig), hs.learns (h.learns_ask _)⟩

theorem Shows.resolveField (f : QualifiedField) :
    (h.resolveField f).1 = w.catalog.resolveField f ∧ (h.resolveField f).2.Shows w :=
  ⟨(hs.coherent.resolveField f).1.trans (Catalog.resolveField_congr hs.answer f), hs.learns (h.learns_ask _)⟩

theorem Shows.isAssignable (t : ExactType) (declared : ClassName) :
    (h.isAssignable t declared).1 = w.catalog.isAssignable t declared ∧ (h.isAssignable t declared).2.Shows w :=
  ⟨(hs.coherent.isAssignable t declared).1.trans (Catalog.isAssignable_congr hs.answer t declared),
    hs.learns (h.learns_isAssignable t declared)⟩

end

end Hierarchy

end TypeFlow
