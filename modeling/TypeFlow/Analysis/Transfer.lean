import TypeFlow.Analysis.Flow

/-!
# Transfer functions

What each instruction contributes: edges between the nodes of the local
variables, fields, item pools and methods that it connects, and links to every
class and member that it names. A local variable that the body does not have
takes no part.
-/

namespace TypeFlow

/-- The body that is being processed: its method and the nodes it can reach. -/
structure Frame where
  caller : MethodId
  locals : Array NodeId
  result : NodeId
  thrown : NodeId

def Frame.node? (f : Frame) (v : Local) : Option NodeId := f.locals[v]?

namespace Analysis

def connectNodes (s : Analysis) (source? target? : Option NodeId) : Analysis :=
  match source?, target? with
  | some source, some target => s.connect source target
  | _, _ => s

def flow (s : Analysis) (f : Frame) (source target : Local) : Analysis :=
  s.connectNodes (f.node? source) (f.node? target)

def instantiateLocal (s : Analysis) (f : Frame) (dst : Local) (t : ExactType) : Analysis :=
  match f.node? dst with
  | some node => s.instantiate node t
  | none => s

def linkType (s : Analysis) (t : DeclType) : Analysis :=
  match t.className? with
  | some name => (s.linkClass name).2
  | none => s

/-- The node of a field; access without an instance initialises the class it names. -/
def accessField (s : Analysis) (instance? : Option Local) (field : QualifiedField) : NodeId × Analysis :=
  let s := if instance?.isNone then s.initializeClass field.owner else s
  s.linkField field

/-- The types of the inner arrays that an allocation with `count` lengths
makes: one dimension less at each level. -/
def innerArrays (t : ExactType) (count : Nat) : List ExactType :=
  (List.range (min count t.dims - 1)).map fun level => ⟨t.element, t.dims - (level + 1)⟩

def allocateArrays (s : Analysis) (f : Frame) (dst : Local) (type : DeclType) (count : Nat) : Analysis :=
  match ExactType.ofDecl? type with
  | none => s
  | some t =>
    (innerArrays t count).foldl (fun s inner =>
      let (pool, s) := s.itemPool inner.toDecl
      s.instantiate pool inner) (s.instantiateLocal f dst t)

/-- The monitor methods that entering and leaving a monitor runs. -/
def monitorMethods (asyncMonitors : Bool) : List QualifiedMethod :=
  let names := if asyncMonitors then ["monitorEnter", "monitorEnterSync", "monitorExit", "monitorExitSync"]
    else ["monitorEnterSync", "monitorExitSync"]
  names.map fun name => ⟨objectClass, ⟨name, [.object objectClass], .void⟩⟩

def linkMonitors (s : Analysis) (object? : Option NodeId) : Analysis :=
  (monitorMethods s.settings.asyncMonitors).foldl (fun s m =>
    let (id?, s) := s.linkMethod m
    match id? with
    | none => s
    | some id => s.connectNodes object? ((s.methods[id]?).bind fun r => r.params[1]?)) s

def call (s : Analysis) (f : Frame) (dst? instance? : Option Local) (callee : QualifiedMethod)
    (args : List Local) (binding : Binding) : Analysis :=
  let site : CallSite :=
    { caller := f.caller
      receiver? := instance?.bind f.node?
      args := args.map f.node?
      result? := dst?.bind f.node?
      thrown := f.thrown }
  match binding.receiver?, instance? with
  | some owner, some receiver => s.linkDynamicCall receiver ⟨owner, callee.signature⟩ site
  | _, _ =>
    let s := if binding = .static then s.initializeClass callee.owner else s
    let (id?, s) := s.linkMethod callee
    match id? with
    | some id => (s.connectCall site id).drain
    | none => s

def transfer (s : Analysis) (f : Frame) : Instr → Analysis
  | .move dst src => s.flow f src dst
  | .cast dst src target => (s.linkType target).flow f src dst
  | .nullConst _ => s
  | .textConst dst _ => s.instantiateLocal f dst (.ofClass stringClass)
  | .classConst dst constant => (s.linkType constant).instantiateLocal f dst (.ofClass classClass)
  | .new dst cls => s.instantiateLocal f dst (.ofClass cls)
  | .newArray dst item _ =>
    match ExactType.ofDecl? (.array item) with
    | some t => s.instantiateLocal f dst t
    | none => s
  | .newMultiArray dst type lengths => s.allocateArrays f dst type lengths.length
  | .loadField dst instance? field _ =>
    let (node, s) := s.accessField instance? field
    s.connectNodes (some node) (f.node? dst)
  | .storeField instance? field src _ =>
    let (node, s) := s.accessField instance? field
    s.connectNodes (f.node? src) (some node)
  | .loadItem dst _ type =>
    if type.isReference then
      let (pool, s) := s.itemPool type
      s.connectNodes (some pool) (f.node? dst)
    else s
  | .storeItem _ _ src type =>
    if type.isReference then
      let (pool, s) := s.itemPool type
      s.connectNodes (f.node? src) (some pool)
    else s
  | .cloneArray dst array => s.flow f array dst
  | .call dst? instance? callee args binding => s.call f dst? instance? callee args binding
  | .instanceTest _ _ tested => s.linkType tested
  | .initClass cls => s.initializeClass cls
  | .phi dst sources => sources.foldl (fun s src => s.flow f src dst) s
  | .enterMonitor object => s.linkMonitors (f.node? object)
  | .exitMonitor object => s.linkMonitors (f.node? object)
  | .jump _ => s
  | .branch _ _ _ => s
  | .ret value? => s.connectNodes (value?.bind f.node?) (some f.result)
  | .raise exception => s.connectNodes (f.node? exception) (some f.thrown)

/-- Applies a handler: its variable gets everything that the body may throw. -/
def transferHandler (s : Analysis) (f : Frame) (h : Handler) : Analysis :=
  let s := match h.catches with
    | some name => (s.linkClass name).2
    | none => s
  s.connectNodes (some f.thrown) (h.dst?.bind f.node?)

def transferBlock (s : Analysis) (f : Frame) (b : Block) : Analysis :=
  b.handlers.foldl (fun s h => s.transferHandler f h) (b.instrs.foldl (fun s i => s.transfer f i) s)

/-- Gives a body its local variables, of which the first ones receive the
parameters, and applies its blocks. -/
def processBody (s : Analysis) (id : MethodId) (r : MethodRecord) (body : Body) : Analysis :=
  let (nodes, g) := s.graph.newNodes body.locals
  let locals := nodes.toArray
  let s := { s with
    graph := g
    methods := s.methods.modify id fun r => { r with locals } }
  let s := (s.connectAll (r.params.zip nodes)).drain
  body.blocks.foldl (fun s b => s.transferBlock ⟨id, locals, r.result, r.thrown⟩ b) s

def processMethod (s : Analysis) (id : MethodId) : Analysis :=
  match s.methods[id]? with
  | none => s
  | some r =>
    if r.processed then s
    else
      let s := { s with
        methods := s.methods.modify id fun r => { r with processed := true }
        tally := { s.tally with methodsProcessed := s.tally.methodsProcessed + 1 } }
      let s := match r.definition.body? with
        | some body => s.processBody id r body
        | none => s
      if r.definition.isSynchronized then s.linkMonitors none else s

end Analysis

end TypeFlow
