import TypeFlow.Hierarchy.Query
import TypeFlow.Table

/-!
# The remembering hierarchy

A hierarchy answers questions about a world and remembers what it looked up:
each class, present or not, and each answer with the names that its search
looked at. What is remembered wins over the world, so the world may be
replaced while answers are kept; `evict` forgets a set of classes and every
answer whose search looked at one of them.
-/

namespace TypeFlow

/-- A remembered answer and the names that its search looked at. -/
structure Memo where
  answer : Option ClassName
  path : List ClassName
  deriving DecidableEq, Repr

structure Hierarchy where
  world : World
  classes : Table ClassName (Option ClassDef) := ∅
  memos : Table Question Memo := ∅

namespace Hierarchy

/-- The remembered class where there is one, even when it is remembered to be
missing, and the world's class otherwise. -/
def lookup (h : Hierarchy) (name : ClassName) : Option ClassDef :=
  match h.classes.find? name with
  | some remembered => remembered
  | none => h.world.find? name

theorem mem_names_of_lookup {h : Hierarchy} {name : ClassName} {d : ClassDef}
    (hd : h.lookup name = some d) : name ∈ h.classes.keys ++ h.world.names := by
  unfold lookup at hd
  split at hd
  · next hf => exact List.mem_append_left _ (Table.mem_keys_of_find? hf)
  · exact List.mem_append_right _ (World.mem_names_of_find? hd)

def view (h : Hierarchy) : Catalog := ⟨h.lookup, h.classes.keys ++ h.world.names, mem_names_of_lookup⟩

def remember (h : Hierarchy) (name : ClassName) : Hierarchy :=
  { h with classes := h.classes.insertNew name (h.world.find? name) }

def rememberAll (h : Hierarchy) (names : List ClassName) : Hierarchy := names.foldl remember h

def get (h : Hierarchy) (name : ClassName) : Option ClassDef × Hierarchy := (h.lookup name, h.remember name)

/-- Answers a question, from memory if it was asked before. -/
def ask (h : Hierarchy) (q : Question) : Option ClassName × Hierarchy :=
  match h.memos.find? q with
  | some memo => (memo.answer, h)
  | none =>
    let (answer, path) := h.view.search q
    (answer, { h.rememberAll path with memos := h.memos.insert q ⟨answer, path⟩ })

def resolveMethod (h : Hierarchy) (m : QualifiedMethod) : Option QualifiedMethod × Hierarchy :=
  let (answer, h) := h.ask (.declaration m.owner m.signature)
  (answer.map fun n => ⟨n, m.signature⟩, h)

def resolveImplementation (h : Hierarchy) (receiver : ClassName) (s : Signature) :
    Option QualifiedMethod × Hierarchy :=
  let (answer, h) := h.ask (.implementation receiver s)
  (answer.map fun n => ⟨n, s⟩, h)

def resolveField (h : Hierarchy) (f : QualifiedField) : Option QualifiedField × Hierarchy :=
  let (answer, h) := h.ask (.field f.owner f.name)
  (answer.map fun n => ⟨n, f.name⟩, h)

def isSubclass (h : Hierarchy) (sub ancestor : ClassName) : Bool × Hierarchy :=
  if sub = ancestor || ancestor = objectClass then (true, h)
  else
    let (answer, h) := h.ask (.subclass sub ancestor)
    (answer.isSome, h)

def isAssignable (h : Hierarchy) (t : ExactType) (declared : ClassName) : Bool × Hierarchy :=
  if declared = objectClass then (true, h)
  else if t.isArray then (declared ∈ arraySupertypes, h)
  else match t.dispatchClass? with
    | some sub => h.isSubclass sub declared
    | none => (false, h)

/-- Puts another world in place; what is remembered stays. -/
def setWorld (h : Hierarchy) (w : World) : Hierarchy := { h with world := w }

def size (h : Hierarchy) : Nat := h.classes.size + h.memos.size

/-- Forgets the stale classes and the answers that looked at one of them. -/
def evict (h : Hierarchy) (stale : List ClassName) : Hierarchy :=
  { h with
    classes := h.classes.filter fun name _ => name ∉ stale
    memos := h.memos.filter fun _ memo => memo.path.all fun name => name ∉ stale }

end Hierarchy

end TypeFlow
