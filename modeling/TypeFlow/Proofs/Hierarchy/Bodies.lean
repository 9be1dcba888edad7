import TypeFlow.Proofs.Hierarchy.Search

/-!
# Other bodies

The hierarchy does not look into the bodies of methods. A world in which other
bodies are put in place has the same classes with the same members, and gives
the same answers.
-/

namespace TypeFlow

def MethodDef.mapBody (f : Body → Body) (m : MethodDef) : MethodDef := { m with body? := m.body?.map f }

def ClassDef.mapBodies (f : Signature → Body → Body) (d : ClassDef) : ClassDef :=
  { d with methods := d.methods.map fun m => MethodDef.mapBody (f m.signature) m }

def World.mapBodies (f : QualifiedMethod → Body → Body) (w : World) : World where
  classes := w.classes.map fun d => ClassDef.mapBodies (fun s => f ⟨d.name, s⟩) d
  nodup := by
    rw [List.map_map]
    exact w.nodup

theorem find?_map_of_key {α κ : Type} [DecidableEq κ] {key : α → κ} {g : κ → α → α}
    (hg : ∀ k a, key (g k a) = key a) (l : List α) (k : κ) :
    (l.map fun a => g (key a) a).find? (fun a => key a = k) = (l.find? fun a => key a = k).map (g k) := by
  rw [List.find?_map]
  have hsame : (fun a => decide (key a = k)) ∘ (fun a => g (key a) a) = fun a => decide (key a = k) :=
    funext fun a => by simp only [Function.comp, hg]
  rw [hsame]
  cases ha : l.find? fun a => decide (key a = k) with
  | none => rfl
  | some a =>
    have hk := List.find?_some ha
    simp only [decide_eq_true_eq] at hk
    simp only [Option.map_some, hk]

theorem ClassDef.method?_mapBodies (f : Signature → Body → Body) (d : ClassDef) (s : Signature) :
    (d.mapBodies f).method? s = (d.method? s).map (MethodDef.mapBody (f s)) :=
  find?_map_of_key (g := fun s => MethodDef.mapBody (f s)) (fun _ _ => rfl) d.methods s

theorem World.find?_mapBodies (f : QualifiedMethod → Body → Body) (w : World) (n : ClassName) :
    (w.mapBodies f).find? n = (w.find? n).map (ClassDef.mapBodies fun s => f ⟨n, s⟩) :=
  find?_map_of_key (g := fun n => ClassDef.mapBodies fun s => f ⟨n, s⟩) (fun _ _ => rfl) w.classes n

namespace Catalog

def Rewrites (f : QualifiedMethod → Body → Body) (c c' : Catalog) : Prop :=
  ∀ n, c'.find? n = (c.find? n).map (ClassDef.mapBodies fun s => f ⟨n, s⟩)

variable {f : QualifiedMethod → Body → Body} {c c' : Catalog} (h : Rewrites f c c')
include h

theorem Rewrites.isSome (n : ClassName) : (c'.find? n).isSome = (c.find? n).isSome := by
  rw [h, Option.isSome_map]

theorem Rewrites.superclass? (n : ClassName) :
    (c'.find? n).bind ClassDef.superclass? = (c.find? n).bind ClassDef.superclass? := by
  rw [h]
  cases c.find? n <;> rfl

theorem Rewrites.interfaces (n : ClassName) :
    c'.successors ClassDef.interfaces n = c.successors ClassDef.interfaces n := by
  unfold successors
  rw [h]
  cases c.find? n <;> rfl

theorem Rewrites.suits (q : Question) (n : ClassName) : c'.suits q n = c.suits q n := by
  unfold Catalog.suits
  rw [h]
  cases c.find? n with
  | none => rfl
  | some d =>
    cases q with
    | declaration owner s =>
      simp only [Option.map_some, Option.any_some, Question.suits, ClassDef.method?_mapBodies, Option.isSome_map]
    | implementation receiver s =>
      simp only [Option.map_some, Option.any_some, Question.suits, ClassDef.method?_mapBodies, Option.any_map]
      rfl
    | field owner name => rfl
    | subclass sub ancestor => rfl

theorem Rewrites.answer (q : Question) : c'.answer q = c.answer q := by
  unfold Catalog.answer search
  rw [searchOrder_congr h.superclass? h.interfaces, funext (h.suits q)]

end Catalog

theorem World.rewrites_mapBodies (f : QualifiedMethod → Body → Body) (w : World) :
    Catalog.Rewrites f w.catalog (w.mapBodies f).catalog :=
  w.find?_mapBodies f

end TypeFlow
