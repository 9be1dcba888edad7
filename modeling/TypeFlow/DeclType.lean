/-!
# Declared types

The types that signatures, fields and instructions name: void, the eight
primitives, classes and arrays. The written form is one letter for void and
for each primitive, `L` name `;` for a class (with `/` between the parts of
the name) and `[` item for an array.
-/

namespace TypeFlow

/-- A dotted class name such as `java.lang.Object`. -/
abbrev ClassName := String

def objectClass : ClassName := "java.lang.Object"

def stringClass : ClassName := "java.lang.String"

def classClass : ClassName := "java.lang.Class"

inductive Primitive where
  | boolean
  | byte
  | short
  | char
  | int
  | long
  | float
  | double
  deriving DecidableEq, Repr

namespace Primitive

def letter : Primitive → Char
  | boolean => 'Z'
  | byte => 'B'
  | short => 'S'
  | char => 'C'
  | int => 'I'
  | long => 'J'
  | float => 'F'
  | double => 'D'

def ofLetter? : Char → Option Primitive
  | 'Z' => some boolean
  | 'B' => some byte
  | 'S' => some short
  | 'C' => some char
  | 'I' => some int
  | 'J' => some long
  | 'F' => some float
  | 'D' => some double
  | _ => none

def word : Primitive → String
  | boolean => "boolean"
  | byte => "byte"
  | short => "short"
  | char => "char"
  | int => "int"
  | long => "long"
  | float => "float"
  | double => "double"

end Primitive

inductive DeclType where
  | void
  | primitive (p : Primitive)
  | object (name : ClassName)
  | array (item : DeclType)
  deriving DecidableEq, Repr

namespace DeclType

/-- The type of arrays of `n` dimensions over `t`. -/
def wrap (t : DeclType) : Nat → DeclType
  | 0 => t
  | n + 1 => array (t.wrap n)

def dims : DeclType → Nat
  | array item => item.dims + 1
  | _ => 0

/-- The innermost type, which is never an array. -/
def base : DeclType → DeclType
  | array item => item.base
  | t => t

def isReference : DeclType → Bool
  | object _ => true
  | array _ => true
  | _ => false

/-- The class at the bottom of the type, below any array dimensions. -/
def className? : DeclType → Option ClassName
  | object name => some name
  | array item => item.className?
  | _ => none

def isRoot (t : DeclType) : Bool := t = object objectClass

def print : DeclType → List Char
  | void => ['V']
  | primitive p => [p.letter]
  | object name => 'L' :: (name.toList.map fun c => if c = '.' then '/' else c) ++ [';']
  | array item => '[' :: item.print

def text (t : DeclType) : String := String.ofList t.print

instance : ToString DeclType := ⟨text⟩

/-- Reads one type from the front of a text and returns what follows it. -/
def read : List Char → Option (DeclType × List Char)
  | [] => none
  | c :: rest =>
    if c = 'V' then some (void, rest)
    else if c = '[' then
      match read rest with
      | some (item, rest) => if item = void then none else some (array item, rest)
      | none => none
    else if c = 'L' then
      match rest.takeWhile (· ≠ ';'), rest.dropWhile (· ≠ ';') with
      | n :: name, _ :: rest =>
        some (object (String.ofList ((n :: name).map fun c => if c = '/' then '.' else c)), rest)
      | _, _ => none
    else (Primitive.ofLetter? c).map fun p => (primitive p, rest)

/-- Reads a text that is one type and nothing else. -/
def ofChars? (cs : List Char) : Option DeclType :=
  match read cs with
  | some (t, []) => some t
  | _ => none

def ofText? (s : String) : Option DeclType := ofChars? s.toList

theorem length_read_lt {cs rest : List Char} {t : DeclType} (h : read cs = some (t, rest)) :
    rest.length < cs.length := by
  induction cs generalizing t rest with
  | nil => simp [read] at h
  | cons c cs ih =>
    rw [read] at h
    split at h
    · cases h
      simp
    split at h
    · split at h
      · next hr =>
        split at h
        · simp at h
        · simp only [Option.some.injEq, Prod.mk.injEq] at h
          have := ih hr
          rw [← h.2, List.length_cons]
          omega
      · simp at h
    split at h
    · split at h
      · next hd =>
        simp only [Option.some.injEq, Prod.mk.injEq] at h
        have := (List.dropWhile_suffix (l := cs) (· ≠ ';')).length_le
        rw [hd, h.2] at this
        simp only [List.length_cons] at this ⊢
        omega
      · simp at h
    · cases hp : Primitive.ofLetter? c with
      | none => simp [hp] at h
      | some p =>
        simp only [hp, Option.map_some, Option.some.injEq, Prod.mk.injEq] at h
        rw [← h.2]
        simp

end DeclType

end TypeFlow
