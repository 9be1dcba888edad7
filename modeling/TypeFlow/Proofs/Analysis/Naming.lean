import TypeFlow.Proofs.Analysis.Demand

/-!
# The classes that a body names

A body names a class by itself, as the owner of a member or as the declared
class of a receiver. Only in the first case it is that class that is linked: a
member is linked at the class that declares it, and the class of a receiver is
looked up where aggregates are connected.
-/

namespace TypeFlow

inductive Naming where
  | cls (name : ClassName)
  | field (f : QualifiedField)
  | method (m : QualifiedMethod)
  | receiver (owner : ClassName)
  deriving DecidableEq, Repr

def Naming.name : Naming → ClassName
  | cls name => name
  | field f => f.owner
  | method m => m.owner
  | receiver owner => owner

def DeclType.namings (t : DeclType) : List Naming := t.className?.toList.map .cls

/-- What an instruction names in a body with `locals` local variables. An allocation names nothing
when the body does not have the variable, and a call that is resolved at run time names the class
of its receiver when it has one. -/
def Instr.namings (locals : Nat) : Instr → List Naming
  | cast _ _ target => target.namings
  | classConst _ constant => constant.namings
  | new dst cls => if dst < locals then [.cls cls] else []
  | newArray dst item _ => if dst < locals then item.namings else []
  | newMultiArray dst type _ => if dst < locals then type.namings else []
  | loadField _ instance? field _ => [if instance?.isNone then .cls field.owner else .field field]
  | storeField instance? field _ _ => [if instance?.isNone then .cls field.owner else .field field]
  | call _ instance? callee _ binding =>
    match binding.receiver?, instance? with
    | some owner, some _ => [.receiver owner]
    | some _, none => []
    | none, _ => [if binding = .static then .cls callee.owner else .method callee]
  | instanceTest _ _ tested => tested.namings
  | initClass cls => [.cls cls]
  | _ => []

def Handler.namings (h : Handler) : List Naming := h.catches.toList.map .cls

def Body.namings (b : Body) : List Naming :=
  b.instrs.flatMap (Instr.namings b.locals) ++ b.handlers.flatMap Handler.namings

namespace Analysis

/-- Whether a name was followed as far as linking follows it: a class has a record, and so has what a member was
resolved to; a member that is nowhere leaves a record of the class that it was asked for. -/
def Follows (s : Analysis) : Naming → Prop
  | .cls name => name ∈ s.classes.keys
  | .field f => ∃ found?, s.hierarchy.Decides (fun c => c.resolveField f) found? ∧
      match found? with
      | none => f.owner ∈ s.classes.keys
      | some found => found ∈ s.fields.keys
  | .method m => ∃ found?, s.hierarchy.Decides (fun c => c.resolveMethod m) found? ∧
      match found? with
      | none => m.owner ∈ s.classes.keys
      | some found => ∃ r, s.Linked found r
  | .receiver _ => True

/-- Whether the class of a type was looked up, with a record of it if it is missing. The supertypes of
the top class are not asked for. -/
def Looked (s : Analysis) (t : DeclType) : Prop :=
  ∀ name, t.base = .object name → name ≠ objectClass →
    ∃ found, s.hierarchy.classes.find? name = some found ∧ (found = none → name ∈ s.classes.keys)

variable {s s' : Analysis}

theorem Grows.follows (h : s.Grows s') {x : Naming} (hx : s.Follows x) : s'.Follows x := by
  cases x with
  | cls name => exact h.classes hx
  | field f =>
    obtain ⟨found?, hd, hm⟩ := hx
    refine ⟨found?, h.decides hd, ?_⟩
    cases found? with
    | none => exact h.classes hm
    | some found => exact h.fields.mem_keys hm
  | method m =>
    obtain ⟨found?, hd, hm⟩ := hx
    refine ⟨found?, h.decides hd, ?_⟩
    cases found? with
    | none => exact h.classes hm
    | some found =>
      obtain ⟨r, hr⟩ := hm
      obtain ⟨r', hr', -⟩ := h.linked hr
      exact ⟨r', hr'⟩
  | receiver owner => trivial

theorem Grows.looked (h : s.Grows s') {t : DeclType} (ht : s.Looked t) : s'.Looked t := by
  intro name hb hne
  obtain ⟨found, hf, hm⟩ := ht name hb hne
  exact ⟨found, h.hierarchy _ _ hf, fun hn => h.classes (hm hn)⟩

end Analysis

end TypeFlow
