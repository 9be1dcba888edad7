import TypeFlow.Analysis.Notify

/-!
# Flow in an analysis

The operations of the flow graph, each followed by the service of the notices
that it queued, and what is built from them: instances, item pools, the
connection of aggregates to those of their supertypes, and dynamic calls.
-/

namespace TypeFlow

namespace Analysis

def addType (s : Analysis) (node : NodeId) (t : ExactType) : Analysis :=
  let (id, g) := s.graph.intern t
  { s with graph := (g.add node id).2 }.drain

def connect (s : Analysis) (source target : NodeId) : Analysis :=
  { s with graph := s.graph.connect source target }.drain

/-- Registers a listener; its number tells the order of registration. -/
def register (s : Analysis) (l : Listener) : ListenerId × Analysis :=
  (s.listeners.size, { s with listeners := s.listeners.push l })

def listen (s : Analysis) (node : NodeId) (l : ListenerId) : Analysis :=
  { s with graph := s.graph.listen node l }.drain

/-- Notes under a label every type that reaches a node, those that are already
there first. -/
def observe (s : Analysis) (node : NodeId) (label : String) : Analysis :=
  let (l, s) := s.register (.observer label)
  s.listen node l

def takeObservations (s : Analysis) : List (String × ExactType) × Analysis :=
  (s.observations, { s with observations := [] })

/-- Makes instances of a type appear at a node, and so at the root. -/
def instantiate (s : Analysis) (node : NodeId) (t : ExactType) : Analysis :=
  let s := match t.element.className? with
    | some name => (s.linkClass name).2
    | none => s
  let (id, g) := s.graph.intern t
  let (_, g) := g.add node id
  let (_, g) := g.add root id
  { s with graph := g }.drain

/-! ## Aggregates -/

/-- The direct supertypes of a declared type, at its number of dimensions.
None stands for a type that goes to the root at once: arrays of primitives
and of the top class, and classes that are missing or have no supertype. -/
def directSupertypes (find? : ClassName → Option ClassDef) (t : DeclType) : List DeclType :=
  match t.base with
  | .object name =>
    if name = objectClass then []
    else match find? name with
      | some d => d.supertypes.map fun super => (DeclType.object super).wrap t.dims
      | none => []
  | _ => []

/-- Looks up the class of a type whose supertypes are to be connected, and
links it when it is missing. -/
def consult (s : Analysis) (t : DeclType) : Analysis :=
  match t.base with
  | .object name =>
    if name = objectClass then s
    else
      let (found, h) := s.hierarchy.get name
      let s := { s with hierarchy := h }
      if found.isNone then (s.linkClass name).2 else s
  | _ => s

/-- Connects the aggregate of a type to those of its direct supertypes, or to
the root when it has none. -/
def wireSupertypes (s : Analysis) (t : DeclType) (node : NodeId) : Analysis :=
  let supers := directSupertypes s.hierarchy.lookup t
  let s := s.consult t
  if supers.isEmpty then s.connect node root
  else supers.foldl (fun s super =>
    let (target, s) := s.aggregate super
    s.connect node target) s

/-! ## Item pools -/

/-- The node of a pool, made when it is asked for first; says whether it was. -/
def poolNode (s : Analysis) (key : ItemKey) : (NodeId × Bool) × Analysis :=
  match s.itemPools.find? key with
  | some node => ((node, false), s)
  | none =>
    let (node, s) := s.newNode
    ((node, true), { s with itemPools := s.itemPools.insert key node })

/-- The node of the items of arrays over `component`. An array of the top
class may be any array of references, so all pools of references flow into
each other. -/
def itemPool (s : Analysis) (component : DeclType) : NodeId × Analysis :=
  let key := ItemKey.ofType component
  let ((node, isNew), s) := s.poolNode key
  if isNew && key ≠ .object && key.carriesReferences then
    let ((object, _), s) := s.poolNode .object
    (node, (s.connect node object).connect object node)
  else (node, s)

/-! ## Dynamic calls -/

/-- Makes a selector for a declared method. A shared one is attached to the
aggregate of its class by a task; one for a single variable listens there. -/
def newSelector (s : Analysis) (key : SelectorKey) (declared : QualifiedMethod)
    (receiver? : Option NodeId) : SelectorId × Analysis :=
  let id := s.selectors.size
  let (listener, s) := s.register (.selector id)
  let filter? := match key with
    | .shared _ => none
    | .perSite .. => some declared.owner
  let s := { s with
    selectors := s.selectors.push { declared, filter?, listener }
    selectorKeys := s.selectorKeys.insert key id }
  match key, receiver? with
  | .shared _, _ => (id, s.defer (.attach id declared.owner))
  | .perSite .., some node => (id, s.listen node listener)
  | .perSite .., none => (id, s)

def selectorKey (s : Analysis) (caller : MethodId) (receiver : Local) (declared : QualifiedMethod) :
    SelectorKey :=
  match s.settings.precision with
  | .fast => .shared declared
  | .precise => .perSite caller receiver declared

/-- Links a dynamic call of `declared` on a local variable: its selector is
noted at the caller, and the targets found so far are connected. -/
def linkDynamicCall (s : Analysis) (receiver : Local) (declared : QualifiedMethod) (site : CallSite) :
    Analysis :=
  let key := s.selectorKey site.caller receiver declared
  let (id, s) := match s.selectorKeys.find? key with
    | some id => (id, s)
    | none => s.newSelector key declared site.receiver?
  let s := { s with
    methods := s.methods.modify site.caller fun r => r.noteCall ⟨receiver, declared.signature⟩ id
    selectors := s.selectors.modify id fun sel => { sel with sites := sel.sites ++ [site] } }
  let targets := match s.selectors[id]? with
    | some sel => sel.targets.toList
    | none => []
  targets.foldl (fun s target =>
    match s.methodId? target with
    | some callee => (s.connectCall site callee).drain
    | none => s) s

def runTask (s : Analysis) : Task → Analysis
  | .wire t node => s.wireSupertypes t node
  | .attach id declared =>
    let (node, s) := s.aggregate (.object declared)
    match s.selectors[id]? with
    | some sel => s.listen node sel.listener
    | none => s

end Analysis

end TypeFlow
