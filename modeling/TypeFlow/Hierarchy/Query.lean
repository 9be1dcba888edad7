import TypeFlow.ExactType
import TypeFlow.Hierarchy.Catalog

/-!
# Questions about the hierarchy

Which class declares the member that a reference names, which class
implements a signature for a receiver, and is one class a subclass of
another: each is answered by the first suitable class in the search order of
the class it starts from.
-/

namespace TypeFlow

inductive Question where
  /-- Where is the method declared that `owner` and `signature` name? -/
  | declaration (owner : ClassName) (signature : Signature)
  /-- Where is the method that a receiver of class `receiver` runs? -/
  | implementation (receiver : ClassName) (signature : Signature)
  /-- Where is the field declared that `owner` and `name` name? -/
  | field (owner : ClassName) (name : String)
  /-- Is `ancestor` among the classes and interfaces of `sub`? -/
  | subclass (sub ancestor : ClassName)
  deriving DecidableEq, Repr

namespace Question

def start : Question → ClassName
  | declaration owner _ => owner
  | implementation receiver _ => receiver
  | field owner _ => owner
  | subclass sub _ => sub

def suits (q : Question) (n : ClassName) (d : ClassDef) : Bool :=
  match q with
  | declaration _ s => (d.method? s).isSome
  | implementation _ s => (d.method? s).any MethodDef.isImplementation
  | field _ name => (d.field? name).isSome
  | subclass _ ancestor => n = ancestor

end Question

/-- The first name that passes the test, and the names up to and including
it; all names when there is none. -/
def firstHit (p : ClassName → Bool) : List ClassName → Option ClassName × List ClassName
  | [] => (none, [])
  | n :: rest =>
    if p n then (some n, [n])
    else
      let (found, path) := firstHit p rest
      (found, n :: path)

/-- The array supertypes other than the top class. -/
def arraySupertypes : List ClassName := ["java.lang.Cloneable", "java.io.Serializable"]

namespace Catalog

def suits (c : Catalog) (q : Question) (n : ClassName) : Bool := (c.find? n).any (q.suits n)

/-- The class that answers `q`, and the names that the search looked at. -/
def search (c : Catalog) (q : Question) : Option ClassName × List ClassName :=
  firstHit (c.suits q) (c.searchOrder q.start)

def answer (c : Catalog) (q : Question) : Option ClassName := (c.search q).1

def resolveMethod (c : Catalog) (m : QualifiedMethod) : Option QualifiedMethod :=
  (c.answer (.declaration m.owner m.signature)).map fun n => ⟨n, m.signature⟩

def resolveImplementation (c : Catalog) (receiver : ClassName) (s : Signature) : Option QualifiedMethod :=
  (c.answer (.implementation receiver s)).map fun n => ⟨n, s⟩

def resolveField (c : Catalog) (f : QualifiedField) : Option QualifiedField :=
  (c.answer (.field f.owner f.name)).map fun n => ⟨n, f.name⟩

/-- Every class is a subclass of itself and of the top class. -/
def isSubclass (c : Catalog) (sub ancestor : ClassName) : Bool :=
  sub = ancestor || ancestor = objectClass || (c.answer (.subclass sub ancestor)).isSome

/-- Whether values of type `t` may be where the class `declared` is declared. -/
def isAssignable (c : Catalog) (t : ExactType) (declared : ClassName) : Bool :=
  if declared = objectClass then true
  else if t.isArray then declared ∈ arraySupertypes
  else match t.dispatchClass? with
    | some sub => c.isSubclass sub declared
    | none => false

end Catalog

end TypeFlow
