import TypeFlow.Json.Reader
import TypeFlow.Json.Writer
import TypeFlow.Signature

/-!
# Reading documents

Documents are JSON values of a fixed shape. A record is written as an object,
with its fields in any order and unknown members left out of account, or as an
array that gives the fields by position. Of several things wrong with a
record the one that stands first is reported; a field that is missing is
noticed only at the end.
-/

namespace TypeFlow

inductive DocumentError where
  /-- Not JSON, or a value of the wrong kind. -/
  | malformed
  | missingField (name : String)
  | duplicateField (name : String)
  | unknownVariant (name : String) (choices : List String)
  | text (cause : Malformed)
  deriving DecidableEq, Repr

namespace DocumentError

def backquote (s : String) : String := "`" ++ s ++ "`"

def choiceText : List String → String
  | [a, b] => "expected " ++ backquote a ++ " or " ++ backquote b
  | choices => "expected one of " ++ ", ".intercalate (choices.map backquote)

/-- The message; a value of the wrong kind has none. -/
def message? : DocumentError → Option String
  | malformed => none
  | missingField name => some ("missing field " ++ backquote name)
  | duplicateField name => some ("duplicate field " ++ backquote name)
  | unknownVariant name choices => some ("unknown variant " ++ backquote name ++ ", " ++ choiceText choices)
  | text cause => some cause.message

end DocumentError

abbrev Reading (α : Type) := Except DocumentError α

/-! ## Several fields at once -/

/-- The outcome of reading fields, where an error knows its position. -/
inductive Located (α : Type) where
  | ok (a : α)
  | error (position : Nat) (cause : DocumentError)

namespace Located

/-- Puts two outcomes together; of two errors the one that stands first stays. -/
def ap {α β : Type} : Located (α → β) → Located α → Located β
  | ok f, ok a => ok (f a)
  | ok _, error p e => error p e
  | error p e, ok _ => error p e
  | error p e, error p' e' => if p' < p then error p' e' else error p e

instance : Applicative Located where
  pure := ok
  seq f x := ap f (x ())

def toReading {α : Type} : Located α → Reading α
  | ok a => .ok a
  | error _ e => .error e

def ofReading {α : Type} (position : Nat) : Reading α → Located α
  | .ok a => ok a
  | .error e => error position e

end Located

/-- The members of a record under the names of its fields. -/
structure Record where
  fields : List String
  members : List (String × Json)
  /-- Whether the fields were given by position. -/
  positional : Bool

namespace Record

/-- The first member of a name, with its position. -/
def find? (r : Record) (name : String) : Option (Nat × Json) :=
  (r.members.zipIdx.find? fun m => m.1.1 = name).map fun m => (m.2, m.1.2)

/-- Where the lack of a field is noticed: after all members, in the order of
the fields. -/
def lackPosition (r : Record) (name : String) : Nat := r.members.length + r.fields.idxOf name

def lack {α : Type} (r : Record) (name : String) : Located α :=
  .error (r.lackPosition name) (if r.positional then .malformed else .missingField name)

def required {α : Type} (r : Record) (name : String) (read : Json → Reading α) : Located α :=
  match r.find? name with
  | some (position, j) => .ofReading position (read j)
  | none => r.lack name

def defaulted {α : Type} (r : Record) (name : String) (default : α) (read : Json → Reading α) : Located α :=
  match r.find? name with
  | some (position, j) => .ofReading position (read j)
  | none => .ok default

/-- The position of the first member that repeats a field, with its name. -/
def repeated? (fields : List String) (seen : List String) (position : Nat) :
    List (String × Json) → Option (Nat × String)
  | [] => none
  | (name, _) :: rest =>
    if name ∈ fields && name ∈ seen then some (position, name)
    else repeated? fields (name :: seen) (position + 1) rest

def distinct (r : Record) : Located Unit :=
  match repeated? r.fields [] 0 r.members with
  | some (position, name) => .error position (.duplicateField name)
  | none => .ok ()

def read {α : Type} (fields : List String) (body : Record → Located α) : Json → Reading α
  | .object members =>
    let r : Record := ⟨fields, members, false⟩
    (Located.ap (Located.ap (.ok fun _ a => a) r.distinct) (body r)).toReading
  | .array items =>
    let r : Record := ⟨fields, fields.zip items, true⟩
    let whole : Located Unit := if fields.length < items.length then .error fields.length .malformed else .ok ()
    (Located.ap (Located.ap (.ok fun a _ => a) (body r)) whole).toReading
  | _ => .error .malformed

end Record

/-! ## Values -/

namespace Reading

def text : Json → Reading String
  | .text s => .ok s
  | _ => .error .malformed

/-- Variables, positions and counts have 64 bits. -/
def nat : Json → Reading Nat
  | .nat n => if n < wordBound then .ok n else .error .malformed
  | _ => .error .malformed

def bool : Json → Reading Bool
  | .bool b => .ok b
  | _ => .error .malformed

def list {α : Type} (read : Json → Reading α) : Json → Reading (List α)
  | .array items => items.mapM read
  | _ => .error .malformed

def nullable {α : Type} (read : Json → Reading α) : Json → Reading (Option α)
  | .null => .ok none
  | j => some <$> read j

/-- Reads a text of a form that `parse` knows. -/
def parsed {α : Type} (parse : String → Except Malformed α) (j : Json) : Reading α := do
  let s ← text j
  match parse s with
  | .ok a => .ok a
  | .error e => .error (.text e)

def type : Json → Reading DeclType := parsed DeclType.parse

def signature : Json → Reading Signature := parsed Signature.parse

def method : Json → Reading QualifiedMethod := parsed QualifiedMethod.parse

def field : Json → Reading QualifiedField := parsed QualifiedField.parse

def choose {α : Type} (choices : List (String × α)) (name : String) : Reading α :=
  match choices.find? fun c => c.1 = name with
  | some c => .ok c.2
  | none => .error (.unknownVariant name (choices.map Prod.fst))

/-- Reads one of several names, written as a text or as the only member of an
object, with the value null. -/
def variant {α : Type} (choices : List (String × α)) : Json → Reading α
  | .text name => choose choices name
  | .object ((name, j) :: rest) => do
    let a ← choose choices name
    match j, rest with
    | .null, [] => .ok a
    | _, _ => .error .malformed
  | _ => .error .malformed

end Reading

def readDocument {α : Type} (read : Json → Reading α) (s : String) : Reading α :=
  match Json.parse? s with
  | some j => read j
  | none => .error .malformed

end TypeFlow
