import TypeFlow.Analysis.Flow

/-!
# Entry points

The methods from which everything reachable is reached, with the parameter
types that they are given from outside. Entry points outlive an eviction: they
are linked again, in order, by the next run.
-/

namespace TypeFlow

inductive EntryError where
  | unresolved (method : QualifiedMethod)
  | unknownMethod (method : QualifiedMethod)
  | noParameter (method : QualifiedMethod) (index : Nat)
  deriving DecidableEq, Repr

def EntryError.message : EntryError → String
  | unresolved m => "entry point " ++ m.text ++ " cannot be resolved"
  | unknownMethod m => "method " ++ m.text ++ " was never linked"
  | noParameter m i => "method " ++ m.text ++ " has no parameter slot " ++ toString i

namespace Analysis

/-- Adds a parameter type to those of an entry point, once. -/
def noteSeed (s : Analysis) (m : QualifiedMethod) (seed : Nat × ExactType) : Analysis :=
  let seeds := (s.entries.find? m).getD []
  { s with entries := s.entries.insert m (if seed ∈ seeds then seeds else seeds ++ [seed]) }

/-- Links a method as an entry point; the class of a static one is initialised. -/
def addEntry (s : Analysis) (m : QualifiedMethod) : Except EntryError MethodId × Analysis :=
  let (id?, s) := s.linkMethod m
  match id? with
  | none => (.error (.unresolved m), s)
  | some id =>
    let s := match s.methods[id]? with
      | some r => if r.definition.isStatic then s.initializeClass r.reference.owner else s
      | none => s
    (.ok id, { s with entries := s.entries.insertNew m [] })

/-- Gives instances of a type to a parameter of a linked method, where the
receiver counts as parameter zero. -/
def seedParam (s : Analysis) (m : QualifiedMethod) (index : Nat) (t : ExactType) :
    Except EntryError Analysis :=
  match s.method? m with
  | none => .error (.unknownMethod m)
  | some r =>
    match r.params[index]? with
    | none => .error (.noParameter m index)
    | some node => .ok ((s.instantiate node t).noteSeed m (index, t))

/-- Links one entry point again. One that cannot be resolved is reported and
stays, with its parameter types, for the next time. -/
def reseedEntry (s : Analysis) (m : QualifiedMethod) (seeds : List (Nat × ExactType)) : Analysis :=
  match s.addEntry m with
  | (.error _, s) =>
    let s := s.report (.missingEntry m)
    { s with entries := s.entries.insert m seeds }
  | (.ok _, s) =>
    seeds.foldl (fun s seed =>
      match s.seedParam m seed.1 seed.2 with
      | .ok s => s
      | .error _ => s.noteSeed m seed) s

def reseedEntries (s : Analysis) : Analysis :=
  if s.reseed then
    s.entries.entries.foldl (fun s e => s.reseedEntry e.1 e.2) { s with reseed := false, entries := ∅ }
  else s

/-- The entry points that are not linked. -/
def unresolvedEntries (s : Analysis) : List QualifiedMethod :=
  s.entries.keys.filter fun m => (s.methodId? m).isNone

end Analysis

end TypeFlow
