import TypeFlow.DeclType

/-!
# Signatures and qualified members

A signature is written `name(params)result`, a qualified method
`class.signature` and a qualified field `class.name`. The name of a signature
ends at the first parenthesis; the class of a method ends at the last dot
before it and the class of a field at the last dot.
-/

namespace TypeFlow

/-- A text that is not of the form it should have. -/
inductive Malformed where
  | type (text : String)
  | signature (text : String)
  | method (text : String)
  | field (text : String)
  deriving DecidableEq, Repr

/-- The message names the form and repeats the whole text. -/
def Malformed.message : Malformed → String
  | type text => "invalid type descriptor: " ++ text
  | signature text => "invalid method descriptor: " ++ text
  | method text => "invalid method reference: " ++ text
  | field text => "invalid field reference: " ++ text

def DeclType.parse (s : String) : Except Malformed DeclType :=
  match DeclType.ofText? s with
  | some t => .ok t
  | none => .error (.type s)

/-- Splits a list at the last occurrence of `c`, which belongs to neither part. -/
def splitLast (c : Char) : List Char → Option (List Char × List Char)
  | [] => none
  | x :: rest =>
    match splitLast c rest with
    | some (before, after) => some (x :: before, after)
    | none => if x = c then some ([], rest) else none

/-- What a method is called and which types it takes and gives. -/
structure Signature where
  name : String
  params : List DeclType
  result : DeclType
  deriving DecidableEq, Repr

namespace Signature

def isConstructor (s : Signature) : Bool := s.name = "<init>"

/-- The method that a class runs when it is initialised. -/
def classInitializer : Signature := ⟨"<clinit>", [], .void⟩

def print (s : Signature) : List Char :=
  s.name.toList ++ '(' :: s.params.flatMap DeclType.print ++ ')' :: s.result.print

def text (s : Signature) : String := String.ofList s.print

instance : ToString Signature := ⟨text⟩

def readParams (cs : List Char) : Option (List DeclType × List Char) :=
  match cs with
  | ')' :: rest => some ([], rest)
  | cs =>
    match h : DeclType.read cs with
    | some (t, rest) =>
      if t = .void then none
      else
        have : rest.length < cs.length := DeclType.length_read_lt h
        (readParams rest).map fun p => (t :: p.1, p.2)
    | none => none
termination_by cs.length

def ofChars? (cs : List Char) : Option Signature :=
  match cs.takeWhile (· ≠ '('), cs.dropWhile (· ≠ '(') with
  | n :: name, _ :: rest =>
    match readParams rest with
    | some (params, rest) =>
      (DeclType.ofChars? rest).map fun result => ⟨String.ofList (n :: name), params, result⟩
    | none => none
  | _, _ => none

def parse (s : String) : Except Malformed Signature :=
  match ofChars? s.toList with
  | some sig => .ok sig
  | none => .error (.signature s)

end Signature

/-- A method as one class names it, whichever class declares it. -/
structure QualifiedMethod where
  owner : ClassName
  signature : Signature
  deriving DecidableEq, Repr

namespace QualifiedMethod

def name (m : QualifiedMethod) : String := m.signature.name

def print (m : QualifiedMethod) : List Char := m.owner.toList ++ '.' :: m.signature.print

def text (m : QualifiedMethod) : String := String.ofList m.print

instance : ToString QualifiedMethod := ⟨text⟩

def ofChars? (cs : List Char) : Option QualifiedMethod :=
  match splitLast '.' (cs.takeWhile (· ≠ '(')), cs.dropWhile (· ≠ '(') with
  | some (c :: owner, name), _ :: rest =>
    (Signature.ofChars? (name ++ '(' :: rest)).map fun s => ⟨String.ofList (c :: owner), s⟩
  | _, _ => none

def parse (s : String) : Except Malformed QualifiedMethod :=
  match ofChars? s.toList with
  | some m => .ok m
  | none => .error (.method s)

end QualifiedMethod

/-- A field as one class names it, whichever class declares it. -/
structure QualifiedField where
  owner : ClassName
  name : String
  deriving DecidableEq, Repr

namespace QualifiedField

def print (f : QualifiedField) : List Char := f.owner.toList ++ '.' :: f.name.toList

def text (f : QualifiedField) : String := String.ofList f.print

instance : ToString QualifiedField := ⟨text⟩

def ofChars? (cs : List Char) : Option QualifiedField :=
  match splitLast '.' cs with
  | some (c :: owner, n :: name) => some ⟨String.ofList (c :: owner), String.ofList (n :: name)⟩
  | _ => none

def parse (s : String) : Except Malformed QualifiedField :=
  match ofChars? s.toList with
  | some f => .ok f
  | none => .error (.field s)

end QualifiedField

end TypeFlow
