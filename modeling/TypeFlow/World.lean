import TypeFlow.Code
import TypeFlow.Table

/-!
# The closed world

Class definitions and the set of all of them. A world holds at most one class
of a name; adding a class replaces the one that had its name.
-/

namespace TypeFlow

inductive Modifier where
  | abstract
  | static
  | final
  | native
  | synchronized
  | interface
  deriving DecidableEq, Repr

/-- The modifiers of a definition to which they are added one by one: one that
it has already is not added again. -/
def Modifier.distinct (l : List Modifier) : List Modifier := (OrderedSet.ofList l).toList

structure FieldDef where
  name : String
  type : DeclType
  modifiers : List Modifier
  deriving DecidableEq, Repr

def FieldDef.isStatic (f : FieldDef) : Bool := .static ∈ f.modifiers

structure MethodDef where
  signature : Signature
  modifiers : List Modifier
  body? : Option Body
  deriving DecidableEq, Repr

namespace MethodDef

def isStatic (m : MethodDef) : Bool := .static ∈ m.modifiers

def isAbstract (m : MethodDef) : Bool := .abstract ∈ m.modifiers

def isSynchronized (m : MethodDef) : Bool := .synchronized ∈ m.modifiers

def isImplementation (m : MethodDef) : Bool := !m.isAbstract && !m.isStatic

end MethodDef

structure ClassDef where
  name : ClassName
  superclass? : Option ClassName
  interfaces : List ClassName
  modifiers : List Modifier
  fields : List FieldDef
  methods : List MethodDef
  deriving DecidableEq, Repr

namespace ClassDef

def method? (c : ClassDef) (s : Signature) : Option MethodDef :=
  c.methods.find? fun m => m.signature = s

def field? (c : ClassDef) (name : String) : Option FieldDef :=
  c.fields.find? fun f => f.name = name

def supertypes (c : ClassDef) : List ClassName := c.superclass?.toList ++ c.interfaces

end ClassDef

structure World where
  classes : List ClassDef
  nodup : (classes.map ClassDef.name).Nodup
  deriving DecidableEq

namespace World

def empty : World := ⟨[], List.nodup_nil⟩

instance : EmptyCollection World := ⟨empty⟩

instance : Inhabited World := ⟨empty⟩

def find? (w : World) (name : ClassName) : Option ClassDef :=
  w.classes.find? fun c => c.name = name

def names (w : World) : List ClassName := w.classes.map ClassDef.name

def size (w : World) : Nat := w.classes.length

def isEmpty (w : World) : Bool := w.classes.isEmpty

def insert (w : World) (c : ClassDef) : World :=
  if h : c.name ∈ w.names then
    ⟨w.classes.map fun d => if d.name = c.name then c else d, by
      have hn : (w.classes.map fun d => if d.name = c.name then c else d).map ClassDef.name
          = w.classes.map ClassDef.name := by
        rw [List.map_map]
        apply List.map_congr_left
        intro d _
        simp only [Function.comp]
        split
        · next hd => exact hd.symm
        · rfl
      rw [hn]
      exact w.nodup⟩
  else
    ⟨w.classes ++ [c], by
      rw [List.map_append]
      exact OrderedSet.nodup_snoc w.nodup h⟩

def erase (w : World) (name : ClassName) : World :=
  ⟨w.classes.filter fun c => c.name ≠ name,
    w.nodup.sublist ((List.filter_sublist (l := w.classes)).map ClassDef.name)⟩

/-- The world of a list of classes; of several of one name the last stays. -/
def ofList (cs : List ClassDef) : World := cs.foldl insert empty

/-- Names in the order of their code points. -/
def sortNames (names : List String) : List String := names.mergeSort fun a b => decide (a ≤ b)

def sorted (w : World) : List ClassDef := (sortNames w.names).filterMap w.find?

/-- The names whose class was changed, removed or added on the way to `newer`,
in order. -/
def changed (w newer : World) : List ClassName :=
  let altered := w.classes.filter fun c => newer.find? c.name ≠ some c
  let added := newer.names.filter fun n => n ∉ w.names
  sortNames (altered.map ClassDef.name ++ added)

theorem mem_names_of_find? {w : World} {name : ClassName} {c : ClassDef} (h : w.find? name = some c) :
    name ∈ w.names := by
  have hm := List.mem_of_find?_eq_some h
  have hn := List.find?_some h
  simp only [decide_eq_true_eq] at hn
  exact List.mem_map.2 ⟨c, hm, hn⟩

end World

end TypeFlow
