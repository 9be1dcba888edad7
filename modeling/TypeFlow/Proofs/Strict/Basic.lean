import TypeFlow.Proofs.Analysis.Handles
import TypeFlow.Proofs.Analysis.Termination
import TypeFlow.Proofs.FlowGraph.Strict

/-!
# Sessions that look up strictly

An analysis goes on where a number leads nowhere, serves notices without
saying that it does, and leaves its loops when their turns are used up. Here
are its operations once more, without any of this: each lookup by number comes
to nothing when nothing is there, notices are served by whoever is not served
himself, under a mark that says so, and a loop whose turns are used up comes to
nothing as well. Beside the analysis a strict session keeps that mark and all
the notices that its listeners were told.

What does not look anything up by number is taken as it is: the linking of
classes, methods and fields, and the making of nodes and records.
-/

namespace TypeFlow

open Analysis

structure Session where
  state : Analysis
  serving : Bool := false
  /-- What listeners were told in this generation, oldest first. -/
  told : List Notice := []

/-- A part of a session, which may come to nothing. -/
abbrev Strict := StateT Session Option

def MethodRecord.holder? (r : MethodRecord) : Option MethodDef := do
  let i ← r.place?
  r.declaring.methods[i]?

namespace Strict

/-! ## Looking up -/

def stuck {α : Type} : Strict α := fun _ => none

def look {α : Type} (f : Analysis → α) : Strict α := fun x => some (f x.state, x)

def find {α : Type} (f : Analysis → Option α) : Strict α := fun x => (f x.state).map fun a => (a, x)

def run {α : Type} (f : Analysis → α × Analysis) : Strict α := fun x =>
  some ((f x.state).1, { x with state := (f x.state).2 })

def change (f : Analysis → Analysis) : Strict Unit := fun x => some ((), { x with state := f x.state })

def onGraph (f : FlowGraph → Option FlowGraph) : Strict Unit := fun x =>
  (f x.state.graph).map fun g => ((), { x with state := { x.state with graph := g } })

def takeNotice : Strict (Option Notice) := run fun s =>
  match s.graph.takeNotice with
  | some (d, g) => (some d, { s with graph := g })
  | none => (none, s)

def intern (t : ExactType) : Strict TypeId := run fun s =>
  ((s.graph.intern t).1, { s with graph := (s.graph.intern t).2 })

def newNodes (count : Nat) : Strict (List NodeId) := run fun s =>
  ((s.graph.newNodes count).1, { s with graph := (s.graph.newNodes count).2 })

/-! ## Serving notices -/

def callEdges? (r : MethodRecord) (site : CallSite) : Option (List (NodeId × NodeId)) := do
  let f ← r.holder?
  let receiver ← match f.isStatic, site.receiver? with
    | false, some node => do
      -- a receiver that is passed needs a parameter, while arguments pair up with those that there are
      let param ← r.params[0]?
      pure [(node, param)]
    | _, _ => pure []
  let args := (site.args.zip r.params.tail).filterMap fun (arg?, param) =>
    arg?.map fun node => (node, param)
  let result := site.result?.toList.map fun node => (r.result, node)
  pure (receiver ++ args ++ result ++ [(r.thrown, site.thrown)])

def connectEdges (edges : List (NodeId × NodeId)) : Strict Unit :=
  edges.forM fun e => onGraph fun g => g.strictConnect e.1 e.2

def connectCall (dispatch : Strict Unit) (site : CallSite) (callee : MethodId) : Strict Unit := do
  let r ← find fun s => s.methods[callee]?
  let edges ← find fun _ => callEdges? r site
  connectEdges edges
  dispatch

/-- Leaves the notices to the one who serves them already; within the service somebody does. -/
def leave : Strict Unit := do
  if (← get).serving then return () else stuck

def serve (id : SelectorId) (t : ExactType) : Strict Unit := do
  let sel ← find fun s => s.selectors[id]?
  match ← run fun s => s.pick sel t with
  | none => return ()
  | some target =>
    let sel ← find fun s => s.selectors[id]?
    if target ∈ sel.targets then return ()
    change fun s => s.withTarget id target
    match ← run fun s => s.linkMethod target with
    | none => return ()
    | some callee =>
      let sel ← find fun s => s.selectors[id]?
      sel.sites.forM fun site => connectCall leave site callee

def notify (listener : Listener) (i : TypeId) : Strict Unit := do
  let t ← find fun s => s.graph.type? i
  match listener with
  | .aggregation =>
    let node ← run fun s => s.aggregate t.toDecl
    onGraph fun g => g.strictAdd node i
  | .selector id => serve id t
  | .observer label => change fun s => { s with observations := s.observations ++ [(label, t)] }

def deliver (d : Notice) : Strict Unit := do
  let listener ← find fun s => s.listeners[d.listener]?
  modify fun x => { x with told := x.told ++ [d] }
  notify listener d.type

def serveAll : Nat → Strict Unit
  | 0 => stuck
  | turns + 1 => do
    match ← takeNotice with
    | none => return ()
    | some d =>
      deliver d
      serveAll turns

def dispatch : Strict Unit := do
  if (← get).serving then return ()
  modify fun x => { x with serving := true }
  let backlog ← look fun s => s.graph.backlog
  serveAll (backlog + 1)
  modify fun x => { x with serving := false }

/-! ## Flow -/

def bring (t : ExactType) (nodes : List NodeId) : Strict Unit := do
  let i ← intern t
  nodes.forM fun n => onGraph fun g => g.strictAdd n i
  dispatch

def addType (n : NodeId) (t : ExactType) : Strict Unit := bring t [n]

def connect (source target : NodeId) : Strict Unit := do
  onGraph fun g => g.strictConnect source target
  dispatch

def listen (n : NodeId) (l : ListenerId) : Strict Unit := do
  onGraph fun g => g.strictListen n l
  dispatch

def observe (n : NodeId) (label : String) : Strict Unit := do
  let l ← run fun s => s.register (.observer label)
  listen n l

def instantiate (n : NodeId) (t : ExactType) : Strict Unit := do
  change fun s => s.linkElement t
  bring t [n, root]

def wireSupertypes (t : DeclType) (n : NodeId) : Strict Unit := do
  let supers ← look fun s => directSupertypes s.hierarchy.lookup t
  change fun s => s.consult t
  if supers.isEmpty then connect n root
  else supers.forM fun super => do
    let target ← run fun s => s.aggregate super
    connect n target

def itemPool (component : DeclType) : Strict NodeId := do
  let key := ItemKey.ofType component
  let pool ← run fun s => s.poolNode key
  if pool.2 && key ≠ .object && key.carriesReferences then
    let object ← run fun s => s.poolNode .object
    connect pool.1 object.1
    connect object.1 pool.1
  return pool.1

def newSelector (key : SelectorKey) (receiver? : Option NodeId) : Strict SelectorId := do
  let id ← look fun s => s.selectors.size
  let listener ← look fun s => s.listeners.size
  change fun s => s.withSelector key
  match key, receiver? with
  | .shared declared, _ => change fun s => s.defer (.attach id declared.owner)
  | .perSite .., some node => listen node listener
  | .perSite .., none => pure ()
  return id

def selectorFor (receiver : Local) (declared : QualifiedMethod) (site : CallSite) : Strict SelectorId := do
  let key ← look fun s => s.selectorKey site.caller receiver declared
  match ← look fun s => s.selectorKeys.find? key with
  | some id => return id
  | none => newSelector key site.receiver?

def joinAll (site : CallSite) (targets : List QualifiedMethod) : Strict Unit :=
  targets.forM fun target => do
    match ← look fun s => s.methodId? target with
    | some callee => connectCall dispatch site callee
    | none => return ()

def linkDynamicCall (receiver : Local) (declared : QualifiedMethod) (site : CallSite) : Strict Unit := do
  let id ← selectorFor receiver declared site
  let _ ← find fun s => s.methods[site.caller]?
  let sel ← find fun s => s.selectors[id]?
  change fun s => s.withSite id ⟨receiver, declared.signature⟩ site
  joinAll site sel.targets.toList

def runTask : Task → Strict Unit
  | .wire t n => wireSupertypes t n
  | .attach id declared => do
    let n ← run fun s => s.aggregate (.object declared)
    let sel ← find fun s => s.selectors[id]?
    listen n sel.listener

/-! ## Bodies -/

def connectNodes : Option NodeId → Option NodeId → Strict Unit
  | some source, some target => connect source target
  | _, _ => pure ()

def flow (f : Frame) (source target : Local) : Strict Unit := connectNodes (f.node? source) (f.node? target)

def instantiateLocal (f : Frame) (dst : Local) (t : ExactType) : Strict Unit :=
  match f.node? dst with
  | some n => instantiate n t
  | none => pure ()

def allocateArrays (f : Frame) (dst : Local) (type : DeclType) (count : Nat) : Strict Unit :=
  match ExactType.ofDecl? type with
  | none => pure ()
  | some t => do
    instantiateLocal f dst t
    (innerArrays t count).forM fun inner => do
      let pool ← itemPool inner.toDecl
      instantiate pool inner

def linkMonitor (object? : Option NodeId) (m : QualifiedMethod) : Strict Unit := do
  match ← run fun s => s.linkMethod m with
  | none => return ()
  | some id =>
    let r ← find fun s => s.methods[id]?
    connectNodes object? r.params[1]?

def linkMonitors (object? : Option NodeId) : Strict Unit := do
  let ms ← look fun s => monitorMethods s.settings.asyncMonitors
  ms.forM fun m => linkMonitor object? m

def runMethod (callee : QualifiedMethod) (site : CallSite) : Strict Unit := do
  match ← run fun s => s.linkMethod callee with
  | some id => connectCall dispatch site id
  | none => return ()

def call (f : Frame) (dst? instance? : Option Local) (callee : QualifiedMethod) (args : List Local)
    (binding : Binding) : Strict Unit :=
  match binding.receiver?, instance? with
  | some owner, some receiver => linkDynamicCall receiver ⟨owner, callee.signature⟩ (f.site dst? instance? args)
  | _, _ => do
    if binding = .static then change fun s => s.initializeClass callee.owner
    runMethod callee (f.site dst? instance? args)

def transfer (f : Frame) : Instr → Strict Unit
  | .move dst src => flow f src dst
  | .cast dst src target => do
    change fun s => s.linkType target
    flow f src dst
  | .nullConst _ => pure ()
  | .textConst dst _ => instantiateLocal f dst (.ofClass stringClass)
  | .classConst dst constant => do
    change fun s => s.linkType constant
    instantiateLocal f dst (.ofClass classClass)
  | .new dst cls => instantiateLocal f dst (.ofClass cls)
  | .newArray dst item _ =>
    match ExactType.ofDecl? (.array item) with
    | some t => instantiateLocal f dst t
    | none => pure ()
  | .newMultiArray dst type lengths => allocateArrays f dst type lengths.length
  | .loadField dst instance? field _ => do
    let node ← run fun s => s.accessField instance? field
    connectNodes (some node) (f.node? dst)
  | .storeField instance? field src _ => do
    let node ← run fun s => s.accessField instance? field
    connectNodes (f.node? src) (some node)
  | .loadItem dst _ type =>
    if type.isReference then do
      let pool ← itemPool type
      connectNodes (some pool) (f.node? dst)
    else pure ()
  | .storeItem _ _ src type =>
    if type.isReference then do
      let pool ← itemPool type
      connectNodes (f.node? src) (some pool)
    else pure ()
  | .cloneArray dst array => flow f array dst
  | .call dst? instance? callee args binding => call f dst? instance? callee args binding
  | .instanceTest _ _ tested => change fun s => s.linkType tested
  | .initClass cls => change fun s => s.initializeClass cls
  | .phi dst sources => sources.forM fun src => flow f src dst
  | .enterMonitor object => linkMonitors (f.node? object)
  | .exitMonitor object => linkMonitors (f.node? object)
  | .jump _ => pure ()
  | .branch _ _ _ => pure ()
  | .ret value? => connectNodes (value?.bind f.node?) (some f.result)
  | .raise exception => connectNodes (f.node? exception) (some f.thrown)

def transferHandler (f : Frame) (h : Handler) : Strict Unit := do
  match h.catches with
  | some name => change fun s => (s.linkClass name).2
  | none => pure ()
  connectNodes (some f.thrown) (h.dst?.bind f.node?)

def transferBlock (f : Frame) (b : Block) : Strict Unit := do
  b.instrs.forM fun i => transfer f i
  b.handlers.forM fun h => transferHandler f h

def processBody (id : MethodId) (body : Body) : Strict Unit := do
  let nodes ← newNodes body.locals
  let r ← find fun s => s.methods[id]?
  change fun s => { s with methods := s.methods.modify id fun r => { r with locals := nodes.toArray } }
  connectEdges (r.params.zip nodes)
  dispatch
  -- the notices may have led back to the record, so it is looked up again
  let r ← find fun s => s.methods[id]?
  body.blocks.forM fun b => transferBlock ⟨id, r.locals, r.result, r.thrown⟩ b

def processMethod (id : MethodId) : Strict Unit := do
  let r ← find fun s => s.methods[id]?
  if r.processed then return ()
  change fun s => s.marked id
  let f ← find fun _ => r.holder?
  match f.body? with
  | some body => processBody id body
  | none => pure ()
  if f.isSynchronized then linkMonitors none

/-! ## Runs -/

def processMethods : Nat → Strict Unit
  | 0 => stuck
  | turns + 1 => do
    match ← look Analysis.worklist with
    | [] => return ()
    | id :: rest =>
      change fun s => { s with worklist := rest }
      processMethod id
      processMethods turns

def runTasks : Strict Unit := do
  let tasks ← look Analysis.deferred
  change fun s => { s with deferred := [] }
  tasks.forM fun t => do
    change fun s => { s with tally := { s.tally with tasksRun := s.tally.tasksRun + 1 } }
    runTask t

def runWaves (methods : Nat) : Nat → Strict Unit
  | 0 => stuck
  | turns + 1 => do
    change countWave
    processMethods methods
    if (← look Analysis.deferred).isEmpty then return ()
    runTasks
    runWaves methods turns

/-! ## Entry points -/

def addEntry (m : QualifiedMethod) : Strict (Except EntryError MethodId) := do
  match ← run fun s => s.linkMethod m with
  | none => return .error (.unresolved m)
  | some id =>
    let r ← find fun s => s.methods[id]?
    let f ← find fun _ => r.holder?
    if f.isStatic then change fun s => s.initializeClass r.reference.owner
    change fun s => { s with entries := s.entries.insertNew m [] }
    return .ok id

def seedParam (m : QualifiedMethod) (index : Nat) (t : ExactType) : Strict (Except EntryError Unit) := do
  match ← look fun s => s.methodId? m with
  | none => return .error (.unknownMethod m)
  | some id =>
    let r ← find fun s => s.methods[id]?
    match r.params[index]? with
    | none => return .error (.noParameter m index)
    | some n =>
      instantiate n t
      change fun s => s.noteSeed m (index, t)
      return .ok ()

def reseedParam (m : QualifiedMethod) (seed : Nat × ExactType) : Strict Unit := do
  match ← seedParam m seed.1 seed.2 with
  | .ok () => return ()
  | .error _ => change fun s => s.noteSeed m seed

def reseedEntry (m : QualifiedMethod) (seeds : List (Nat × ExactType)) : Strict Unit := do
  match ← addEntry m with
  | .error _ => change fun s => { s.report (.missingEntry m) with entries := s.entries.insert m seeds }
  | .ok _ => seeds.forM fun seed => reseedParam m seed

def reseedEntries : Strict Unit := do
  if ← look Analysis.reseed then
    let entries ← look fun s => s.entries.entries
    change fun s => { s with reseed := false, entries := ∅ }
    entries.forM fun e => reseedEntry e.1 e.2

def settle : Strict Unit := do
  reseedEntries
  let methods ← look methodBound
  let tasks ← look taskBound
  runWaves (methods + 1) (tasks + 1)

/-! ## Sessions -/

def start (s : Analysis) : Option Session :=
  (({} : FlowGraph).newNode.2.strictListen root aggregationListener).map fun g => { state := { s with graph := g } }

def evict (names : List ClassName) : Strict Unit := fun x =>
  (start (x.state.evict names).2).map fun x => ((), x)

def command : Command → Strict Unit
  | .entry m => do
    let _ ← addEntry m
    return ()
  | .seed m index t => do
    let _ ← seedParam m index t
    return ()
  | .world w => change fun s => s.setWorld w
  | .evict names => evict names
  | .settle => settle

def apply : Op → Strict Unit
  | .command c => command c
  | .linkClass name => change fun s => (s.linkClass name).2
  | .linkMethod m => change fun s => (s.linkMethod m).2
  | .linkField f => change fun s => (s.linkField f).2
  | .newNode => change fun s => s.newNode.2
  | .aggregate t => change fun s => (s.aggregate t).2
  | .addType n t => addType n t
  | .connect source target => connect source target
  | .observe n label => observe n label
  | .takeObservations => change fun s => s.takeObservations.2

/-- The session after whatever was asked of a new one, if every lookup found something and every loop ended. -/
def session (w : World) (settings : Settings) (ops : List Op) : Option Session := do
  let x ← start (Analysis.new w settings)
  let (_, x) ← ops.forM apply x
  pure x

/-! ## Results -/

def typesAt (n : NodeId) : Strict (List ExactType) := find fun s => (s.graph.held n).mapM s.graph.type?

def typesOfLocal (m : QualifiedMethod) (v : Local) : Strict (List ExactType) := do
  match ← look fun s => s.methodId? m with
  | none => return []
  | some id =>
    let r ← find fun s => s.methods[id]?
    match r.locals[v]? with
    | some n => typesAt n
    | none => return []

def callTargets (m : QualifiedMethod) (receiver : Local) (sig : Signature) : Strict (List QualifiedMethod) := do
  match ← look fun s => s.methodId? m with
  | none => return []
  | some id =>
    let r ← find fun s => s.methods[id]?
    let sels ← find fun s => (r.selectorsAt ⟨receiver, sig⟩).mapM fun id => s.selectors[id]?
    return (OrderedSet.ofList (sels.flatMap fun sel => sel.targets.toList)).toList

end Strict

end TypeFlow
