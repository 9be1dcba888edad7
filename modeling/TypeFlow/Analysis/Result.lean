import TypeFlow.Analysis.State

/-!
# Results of an analysis

Some results are read only from an analysis in which nothing waits.
-/

namespace TypeFlow

/-- The refusal of an analysis in which something waits. -/
inductive ResultError where
  | unsettled
  deriving DecidableEq, Repr

def ResultError.message : ResultError → String
  | unsettled => "analysis has pending work; call process_dependencies() before reading results"

namespace Analysis

/-- A result that may be read once nothing waits. -/
def whenSettled {α : Type} (s : Analysis) (result : Unit → α) : Except ResultError α :=
  if s.isSettled then .ok (result ()) else .error .unsettled

/-- The linked classes that are there, in the order in which they were linked. -/
def reachableClasses (s : Analysis) : List ClassName :=
  s.classes.entries.filterMap fun (name, r) => if r.missing then none else some name

def reachableMethods (s : Analysis) : List QualifiedMethod := s.methods.toList.map MethodRecord.reference

/-- The linked fields under the class that declares them, each once. -/
def reachableFields (s : Analysis) : List QualifiedField :=
  s.fields.entries.filterMap fun (f, r) => if f = r.reference then some f else none

def fieldNode? (s : Analysis) (f : QualifiedField) : Option NodeId := (s.fields.find? f).map FieldRecord.node

/-- The types that a local variable of a processed method may hold. -/
def typesOfLocal (s : Analysis) (m : QualifiedMethod) (v : Local) : List ExactType :=
  match (s.method? m).bind fun r => r.locals[v]? with
  | some node => s.graph.typesAt node
  | none => []

/-- The targets that the selectors of a call found, without repetition. -/
def targetsAt (s : Analysis) (r : MethodRecord) (key : CallKey) : List QualifiedMethod :=
  (OrderedSet.ofList ((r.selectorsAt key).flatMap fun id =>
    match s.selectors[id]? with
    | some sel => sel.targets.toList
    | none => [])).toList

/-- The methods that the dynamic calls on a local variable with a signature
may run; none where such a call was not reached. -/
def callTargets (s : Analysis) (m : QualifiedMethod) (receiver : Local) (sig : Signature) :
    List QualifiedMethod :=
  match s.method? m with
  | some r => s.targetsAt r ⟨receiver, sig⟩
  | none => []

end Analysis

end TypeFlow
