import TypeFlow.Analysis.State

/-!
# Linking

Linking makes a class, method or field reachable. A class is linked together
with all its supertypes; a method or field is linked at the class that
declares it, whichever class named it. What cannot be found is reported.
-/

namespace TypeFlow

namespace Analysis

/-! ## Classes -/

def recordClass (s : Analysis) (name : ClassName) : Analysis :=
  let (found, h) := s.hierarchy.get name
  let s := { s with hierarchy := h, classes := s.classes.insert name ⟨found.isNone, false⟩ }
  if found.isNone then s.report (.missingClass name) else s

def isPresent (s : Analysis) (name : ClassName) : Bool := (s.classes.find? name).any fun r => !r.missing

/-- Links a class with all its supertypes; says whether the class is there. -/
def linkClass (s : Analysis) (name : ClassName) : Bool × Analysis :=
  if s.classes.contains name then (s.isPresent name, s)
  else
    let found := s.hierarchy.view.traverse .stack ClassDef.supertypes s.classes.keys [name]
    let s := found.foldl recordClass s
    (s.isPresent name, s)

/-! ## Methods -/

/-- Makes the record of a method, with a node for each parameter, the result
and the exceptions, and queues its body. -/
def recordMethod (s : Analysis) (reference : QualifiedMethod) (declaring : ClassDef)
    (definition : MethodDef) : MethodId × Analysis :=
  let (params, g) := s.graph.newNodes (reference.signature.params.length + 1)
  let (result, g) := g.newNode
  let (thrown, g) := g.newNode
  let id := s.methods.size
  (id, { s with
    graph := g
    methods := s.methods.push { reference, declaring, definition, params, result, thrown }
    worklist := s.worklist ++ [id] })

/-- Links the method that `m` names and says which it is. -/
def linkMethod (s : Analysis) (m : QualifiedMethod) : Option MethodId × Analysis :=
  match s.methodId? m with
  | some id => (some id, s)
  | none =>
    let (resolved?, h) := s.hierarchy.resolveMethod m
    let s := { s with hierarchy := h }
    match resolved? with
    | none =>
      let (present, s) := s.linkClass m.owner
      (none, if present then s.report (.missingMethod m) else s)
    | some resolved =>
      match s.declarationId? resolved with
      | some id => (some id, { s with aliases := s.aliases.insert m id })
      | none =>
        let (declaring?, h) := s.hierarchy.get resolved.owner
        let s := { s with hierarchy := h }
        match declaring?.bind fun d => (d.method? resolved.signature).map fun f => (d, f) with
        | none => (none, s)
        | some (declaring, definition) =>
          let (_, s) := s.linkClass resolved.owner
          let (id, s) := s.recordMethod resolved declaring definition
          (some id, if resolved = m then s else { s with aliases := s.aliases.insert m id })

/-! ## Initialisation -/

/-- Marks a class as initialised and links its initialiser, if it has one. -/
def markInitialized (s : Analysis) (name : ClassName) : Analysis :=
  let s := { s with classes := s.classes.adjust name fun r => { r with initialized := true } }
  let (found, h) := s.hierarchy.get name
  let s := { s with hierarchy := h }
  if s.settings.classInitializers && found.any fun d => (d.method? .classInitializer).isSome then
    (s.linkMethod ⟨name, .classInitializer⟩).2
  else s

/-- Initialises the classes of a chain up to the first that is missing or
initialised already. -/
def initializeAlong (s : Analysis) : List ClassName → Analysis
  | [] => s
  | name :: rest =>
    let (present, s) := s.linkClass name
    if !present || (s.classes.find? name).any ClassRecord.initialized then s
    else (s.markInitialized name).initializeAlong rest

def initializeClass (s : Analysis) (name : ClassName) : Analysis :=
  s.initializeAlong (s.hierarchy.view.superclasses [] name)

/-! ## Fields -/

/-- Links the field that `f` names and gives its node; the root stands for a
field that cannot be found. -/
def linkField (s : Analysis) (f : QualifiedField) : NodeId × Analysis :=
  match s.fields.find? f with
  | some record => (record.node, s)
  | none =>
    let (resolved?, h) := s.hierarchy.resolveField f
    let s := { s with hierarchy := h }
    match resolved? with
    | none =>
      let (present, s) := s.linkClass f.owner
      (root, if present then s.report (.missingField f) else s)
    | some resolved =>
      match s.fields.find? resolved with
      | some record =>
        (record.node, { s with fields := s.fields.insert f ⟨resolved, record.node⟩ })
      | none =>
        let (_, s) := s.linkClass resolved.owner
        let (node, s) := s.newNode
        let record := ⟨resolved, node⟩
        (node, { s with fields := (s.fields.insert resolved record).insert f record })

/-! ## The graph under linking

Linking makes nodes and leaves everything else in the graph alone. -/

theorem graph_report (s : Analysis) (p : Problem) : (s.report p).graph = s.graph := rfl

theorem graph_recordClass (s : Analysis) (name : ClassName) : (s.recordClass name).graph = s.graph := by
  unfold recordClass
  simp only []
  split <;> rfl

theorem graph_foldl_recordClass (names : List ClassName) (s : Analysis) :
    (names.foldl recordClass s).graph = s.graph := by
  induction names generalizing s with
  | nil => rfl
  | cons n names ih => rw [List.foldl_cons, ih, graph_recordClass]

theorem graph_linkClass (s : Analysis) (name : ClassName) : (s.linkClass name).2.graph = s.graph := by
  unfold linkClass
  split
  · rfl
  · exact graph_foldl_recordClass _ s

theorem backlog_recordMethod (s : Analysis) (m : QualifiedMethod) (d : ClassDef) (f : MethodDef) :
    (s.recordMethod m d f).2.graph.backlog = s.graph.backlog := by
  simp only [recordMethod, FlowGraph.backlog_newNode, FlowGraph.backlog_newNodes]

theorem backlog_linkMethod (s : Analysis) (m : QualifiedMethod) :
    (s.linkMethod m).2.graph.backlog = s.graph.backlog := by
  unfold linkMethod
  split
  · rfl
  · simp only []
    split
    · simp only []
      split
      · rw [graph_report, graph_linkClass]
      · rw [graph_linkClass]
    · split
      · rfl
      · split
        · rfl
        · simp only []
          split
          · rw [backlog_recordMethod, graph_linkClass]
          · simp only [backlog_recordMethod, graph_linkClass]

end Analysis

end TypeFlow
