import TypeFlow.FlowGraph.Flow
import TypeFlow.Hierarchy.Cache
import TypeFlow.Problem
import TypeFlow.Settings

/-!
# The state of an analysis

An analysis keeps a flow graph and one record for each class, method and field
that was found to be reachable. The nodes of the graph stand for

* all instances (`root`, the node that every instantiated type reaches),
* the parameters, result, exception and local variables of each method,
* each field,
* the values of each declared type (its *aggregate*),
* the items of arrays (its *item pools*).

A dynamic call is served by a *selector*, which is told of the receiver types
and picks an implementation for each. Work waits in two queues: methods whose
body is still to be read, and tasks that extend the graph. The numbers of
methods and selectors are unbounded, like those of nodes.
-/

namespace TypeFlow

abbrev MethodId := Nat

abbrev SelectorId := Nat

structure ClassRecord where
  /-- Named by someone but not in the world. -/
  missing : Bool
  initialized : Bool
  deriving DecidableEq, Repr

structure FieldRecord where
  reference : QualifiedField
  node : NodeId
  deriving DecidableEq, Repr

/-- The dynamic calls of a body on one local variable with one signature. -/
structure CallKey where
  receiver : Local
  signature : Signature
  deriving DecidableEq, Repr

/-- What the analysis knows of a linked method. The first parameter is the
receiver, which static methods leave unused. -/
structure MethodRecord where
  reference : QualifiedMethod
  declaring : ClassDef
  definition : MethodDef
  params : List NodeId
  result : NodeId
  thrown : NodeId
  locals : Array NodeId := #[]
  processed : Bool := false
  calls : Table CallKey (OrderedSet SelectorId) := ∅

namespace MethodRecord

def hasBody (r : MethodRecord) : Bool := r.definition.body?.isSome

def selectorsAt (r : MethodRecord) (key : CallKey) : List SelectorId :=
  match r.calls.find? key with
  | some ids => ids.toList
  | none => []

def noteCall (r : MethodRecord) (key : CallKey) (id : SelectorId) : MethodRecord :=
  { r with calls := r.calls.insert key (((r.calls.find? key).getD ∅).insert id) }

end MethodRecord

/-- The nodes of one call in its caller; an argument without a node names a
local variable that the body does not have. -/
structure CallSite where
  caller : MethodId
  receiver? : Option NodeId
  args : List (Option NodeId)
  result? : Option NodeId
  thrown : NodeId
  deriving DecidableEq, Repr

/-- What shares a selector: all calls of a declared method, or the calls on one
local variable of one caller. -/
inductive SelectorKey where
  | shared (declared : QualifiedMethod)
  | perSite (caller : MethodId) (receiver : Local) (declared : QualifiedMethod)
  deriving DecidableEq, Repr

structure Selector where
  declared : QualifiedMethod
  /-- Receivers that are not assignable to this class are left out. -/
  filter? : Option ClassName
  listener : ListenerId
  targets : OrderedSet QualifiedMethod := ∅
  sites : List CallSite := []

/-- A step that extends the graph once the methods at hand are processed. -/
inductive Task where
  /-- Connect the aggregate of a type to those of its direct supertypes. -/
  | wire (type : DeclType) (node : NodeId)
  /-- Let a selector listen to the aggregate of its declared class. -/
  | attach (selector : SelectorId) (declared : ClassName)
  deriving DecidableEq, Repr

inductive Listener where
  /-- Passes each instantiated type on to its aggregate. -/
  | aggregation
  | selector (id : SelectorId)
  | observer (label : String)
  deriving DecidableEq, Repr

/-- Arrays share the node of their items when they have the same innermost
primitive, or none, and the same number of dimensions below. -/
structure ItemKey where
  primitive? : Option Primitive
  dims : Nat
  deriving DecidableEq, Repr

namespace ItemKey

/-- The pool of plain class instances, which takes part in every other pool
of references. -/
def object : ItemKey := ⟨none, 0⟩

def ofType (component : DeclType) : ItemKey :=
  match component.base with
  | .primitive p => ⟨some p, component.dims⟩
  | _ => ⟨none, component.dims⟩

def carriesReferences (k : ItemKey) : Bool := k.primitive?.isNone || k.dims ≠ 0

end ItemKey

structure AnalysisTally where
  methodsProcessed : Nat := 0
  tasksRun : Nat := 0
  waves : Nat := 0
  deriving DecidableEq, Repr

instance : Inhabited AnalysisTally := ⟨{}⟩

structure Analysis where
  settings : Settings
  hierarchy : Hierarchy
  graph : FlowGraph
  problems : Problems := ∅
  classes : Table ClassName ClassRecord := ∅
  methods : Array MethodRecord := #[]
  /-- Linked references to methods that another class declares. -/
  aliases : Table QualifiedMethod MethodId := ∅
  fields : Table QualifiedField FieldRecord := ∅
  aggregates : Table DeclType NodeId := ∅
  itemPools : Table ItemKey NodeId := ∅
  listeners : Array Listener
  selectors : Array Selector := #[]
  selectorKeys : Table SelectorKey SelectorId := ∅
  worklist : List MethodId := []
  deferred : List Task := []
  /-- The entry points, each with the parameter types it was given. -/
  entries : Table QualifiedMethod (List (Nat × ExactType)) := ∅
  /-- Whether the entry points are still to be linked again. -/
  reseed : Bool := false
  /-- How many evictions there were; unbounded, as no session is taken to have `2 ^ 32` of them. -/
  generation : Nat := 0
  tally : AnalysisTally := {}
  /-- What observers noted, oldest first. -/
  observations : List (String × ExactType) := []

namespace Analysis

def root : NodeId := 0

/-- The listener that passes instantiated types on to their aggregates. -/
def aggregationListener : ListenerId := 0

/-- The graph of an analysis that has not seen anything yet. -/
def initialGraph : FlowGraph := (({} : FlowGraph).newNode.2).listen root aggregationListener

def new (w : World) (settings : Settings) : Analysis :=
  { settings, hierarchy := { world := w }, graph := initialGraph, listeners := #[.aggregation] }

/-- Puts another world in place. Classes that differ have to be evicted too. -/
def setWorld (s : Analysis) (w : World) : Analysis := { s with hierarchy := s.hierarchy.setWorld w }

def report (s : Analysis) (p : Problem) : Analysis := { s with problems := s.problems.insert p }

def defer (s : Analysis) (t : Task) : Analysis := { s with deferred := s.deferred ++ [t] }

def newNode (s : Analysis) : NodeId × Analysis :=
  let (n, g) := s.graph.newNode
  (n, { s with graph := g })

/-- The linked method that declares `m` itself. -/
def declarationId? (s : Analysis) (m : QualifiedMethod) : Option MethodId :=
  s.methods.findIdx? fun r => r.reference = m

/-- The linked method that `m` was found to name. -/
def methodId? (s : Analysis) (m : QualifiedMethod) : Option MethodId :=
  (s.declarationId? m).or (s.aliases.find? m)

def method? (s : Analysis) (m : QualifiedMethod) : Option MethodRecord :=
  (s.methodId? m).bind fun id => s.methods[id]?

/-- Whether nothing waits to be done. -/
def isSettled (s : Analysis) : Bool :=
  !s.reseed && s.worklist.isEmpty && s.deferred.isEmpty && s.graph.pending.isEmpty

end Analysis

end TypeFlow
