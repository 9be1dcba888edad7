import TypeFlow.Analysis.Link

/-!
# Notices

What happens when a listener is told of a type. An instantiated type joins
its aggregate; a selector picks the implementation for a receiver type and
connects every call that it serves; an observer notes the type.

Serving a notice never registers a listener and never brings up a type for the
first time, so the backlog of the graph falls by one with each notice, and the
queue runs empty.
-/

namespace TypeFlow

namespace Analysis

/-- The node that collects all instances of a declared type. Its connections
to the aggregates of the supertypes are left to a task. -/
def aggregate (s : Analysis) (t : DeclType) : NodeId × Analysis :=
  if t.isRoot then (root, s)
  else
    match s.aggregates.find? t with
    | some node => (node, s)
    | none =>
      let (node, s) := s.newNode
      (node, { s with aggregates := s.aggregates.insert t node }.defer (.wire t node))

/-- The edges between a call and the method that it may run: receiver and
arguments to the parameters, result and exceptions back. -/
def callEdges (callee : MethodRecord) (site : CallSite) : List (NodeId × NodeId) :=
  let receiver := match callee.definition.isStatic, site.receiver?, callee.params with
    | false, some node, param :: _ => [(node, param)]
    | _, _, _ => []
  let args := (site.args.zip callee.params.tail).filterMap fun (arg?, param) =>
    arg?.map fun node => (node, param)
  let result := site.result?.toList.map fun node => (callee.result, node)
  receiver ++ args ++ result ++ [(callee.thrown, site.thrown)]

def connectAll (s : Analysis) (edges : List (NodeId × NodeId)) : Analysis :=
  { s with graph := edges.foldl (fun g e => g.connect e.1 e.2) s.graph }

def connectCall (s : Analysis) (site : CallSite) (callee : MethodId) : Analysis :=
  match s.methods[callee]? with
  | some record => s.connectAll (callEdges record site)
  | none => s

def admits (s : Analysis) (sel : Selector) (t : ExactType) : Bool × Analysis :=
  match sel.filter? with
  | none => (true, s)
  | some declared =>
    let (ok, h) := s.hierarchy.isAssignable t declared
    (ok, { s with hierarchy := h })

/-- The implementation that a selector picks for a receiver type, if any. -/
def pick (s : Analysis) (sel : Selector) (t : ExactType) : Option QualifiedMethod × Analysis :=
  let (ok, s) := s.admits sel t
  if !ok then (none, s)
  else
    match t.dispatchClass? with
    | none => (none, s)
    | some receiver =>
      let (target?, h) := s.hierarchy.resolveImplementation receiver sel.declared.signature
      (target?, { s with hierarchy := h })

/-- Lets a selector serve a receiver type: a target that is new is linked and
connected to every call that the selector serves. -/
def serve (s : Analysis) (id : SelectorId) (t : ExactType) : Analysis :=
  match s.selectors[id]? with
  | none => s
  | some sel =>
    let (target?, s) := s.pick sel t
    match target? with
    | none => s
    | some target =>
      if target ∈ sel.targets then s
      else
        let s := { s with
          selectors := s.selectors.modify id fun sel => { sel with targets := sel.targets.insert target } }
        let (callee?, s) := s.linkMethod target
        match callee? with
        | none => s
        | some callee => sel.sites.foldl (fun s site => s.connectCall site callee) s

def deliver (s : Analysis) (notice : Notice) : Analysis :=
  match s.listeners[notice.listener]?, s.graph.type? notice.type with
  | some .aggregation, some t =>
    let (node, s) := s.aggregate t.toDecl
    { s with graph := (s.graph.add node notice.type).2 }
  | some (.selector id), some t => s.serve id t
  | some (.observer label), some t => { s with observations := s.observations ++ [(label, t)] }
  | _, _ => s

/-! ## The backlog while notices are served -/

theorem backlog_aggregate (s : Analysis) (t : DeclType) :
    (s.aggregate t).2.graph.backlog = s.graph.backlog := by
  unfold aggregate
  split
  · rfl
  · split
    · rfl
    · exact FlowGraph.backlog_newNode s.graph

theorem backlog_connectAll (s : Analysis) (edges : List (NodeId × NodeId)) :
    (s.connectAll edges).graph.backlog = s.graph.backlog := by
  unfold connectAll
  simp only []
  generalize s.graph = g
  induction edges generalizing g with
  | nil => rfl
  | cons e edges ih => rw [List.foldl_cons, ih, FlowGraph.backlog_connect]

theorem backlog_connectCall (s : Analysis) (site : CallSite) (callee : MethodId) :
    (s.connectCall site callee).graph.backlog = s.graph.backlog := by
  unfold connectCall
  split
  · exact backlog_connectAll _ _
  · rfl

theorem backlog_foldl_connectCall (sites : List CallSite) (callee : MethodId) (s : Analysis) :
    (sites.foldl (fun s site => s.connectCall site callee) s).graph.backlog = s.graph.backlog := by
  induction sites generalizing s with
  | nil => rfl
  | cons site sites ih => rw [List.foldl_cons, ih, backlog_connectCall]

theorem graph_admits (s : Analysis) (sel : Selector) (t : ExactType) :
    (s.admits sel t).2.graph = s.graph := by
  unfold admits
  split <;> rfl

theorem graph_pick (s : Analysis) (sel : Selector) (t : ExactType) :
    (s.pick sel t).2.graph = s.graph := by
  unfold pick
  simp only []
  split
  · exact graph_admits s sel t
  · split
    · exact graph_admits s sel t
    · exact graph_admits s sel t

theorem backlog_serve (s : Analysis) (id : SelectorId) (t : ExactType) :
    (s.serve id t).graph.backlog = s.graph.backlog := by
  unfold serve
  split
  · rfl
  · next sel _ =>
    simp only []
    split
    · rw [graph_pick]
    · split
      · rw [graph_pick]
      · split
        · rw [backlog_linkMethod]
          simp only [graph_pick]
        · rw [backlog_foldl_connectCall, backlog_linkMethod]
          simp only [graph_pick]

theorem backlog_deliver (s : Analysis) (notice : Notice) :
    (s.deliver notice).graph.backlog = s.graph.backlog := by
  unfold deliver
  split
  · simp only [FlowGraph.backlog_add]
    exact backlog_aggregate s _
  · exact backlog_serve s _ _
  · rfl
  · rfl

def drain (s : Analysis) : Analysis :=
  match _h : s.graph.takeNotice with
  | none => s
  | some (notice, g) => ({ s with graph := g }.deliver notice).drain
termination_by s.graph.backlog
decreasing_by
  rw [backlog_deliver]
  show g.backlog < s.graph.backlog
  have := FlowGraph.backlog_takeNotice _h
  omega

end Analysis

end TypeFlow
