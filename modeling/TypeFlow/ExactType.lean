import TypeFlow.DeclType

/-!
# Exact types

The types that values have when the program runs: an element and a number of
array dimensions over it. A declared type has an exact type unless its
innermost type is void or it is a bare primitive.
-/

namespace TypeFlow

structure ExactType where
  element : DeclType
  dims : Nat
  deriving DecidableEq, Repr

namespace ExactType

def ofClass (name : ClassName) : ExactType := ⟨.object name, 0⟩

def ofDecl? (t : DeclType) : Option ExactType :=
  match t.base with
  | .void => none
  | .primitive p => if t.dims = 0 then none else some ⟨.primitive p, t.dims⟩
  | e => some ⟨e, t.dims⟩

def toDecl (t : ExactType) : DeclType := t.element.wrap t.dims

def isArray (t : ExactType) : Bool := t.dims ≠ 0

/-- The class in which a call on a value of the type starts its search: arrays
answer as the top class does. -/
def dispatchClass? (t : ExactType) : Option ClassName :=
  if t.isArray then some objectClass
  else match t.element with
    | .object name => some name
    | _ => none

/-- The form shown in reports, such as `a.b.C[]` or `int[][]`. -/
def text (t : ExactType) : String :=
  let element := match t.element with
    | .object name => name
    | .primitive p => p.word
    | other => other.text
  element ++ String.join (List.replicate t.dims "[]")

instance : ToString ExactType := ⟨text⟩

end ExactType

end TypeFlow
