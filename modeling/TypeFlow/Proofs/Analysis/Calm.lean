import TypeFlow.Analysis.Settle
import TypeFlow.Proofs.Analysis.Flow

/-!
# No notice is left behind

Every operation that queues notices serves them before it ends. So if none
waits when an operation starts, none waits when it ends.
-/

namespace TypeFlow

namespace Analysis

def Calm (s : Analysis) : Prop := s.graph.pending = []

variable {s s' : Analysis}

/-- Whether `s'` comes from `s` without anything that a listener has to be told of or that an observer notes. -/
structure Quiet (s s' : Analysis) : Prop where
  graph : s.graph.Quiet s'.graph
  listeners : Pointwise Eq s.listeners s'.listeners
  observations : s'.observations = s.observations

theorem Quiet.aside (hg : s.graph.Quiet s'.graph) (hl : s'.listeners = s.listeners)
    (ho : s'.observations = s.observations) : s.Quiet s' := ⟨hg, hl ▸ .refl (fun _ => rfl) _, ho⟩

theorem Quiet.register {l : Listener} (hg : s'.graph = s.graph) (hl : s'.listeners = s.listeners.push l)
    (ho : s'.observations = s.observations) : s.Quiet s' :=
  ⟨hg ▸ .refl _, hl ▸ .push (fun _ => rfl) _ l, ho⟩

theorem Quiet.refl (s : Analysis) : s.Quiet s := .aside (.refl _) rfl rfl

theorem Quiet.trans {s'' : Analysis} (h : s.Quiet s') (h' : s'.Quiet s'') : s.Quiet s'' :=
  ⟨h.graph.trans h'.graph, h.listeners.trans Eq.trans h'.listeners, h'.observations.trans h.observations⟩

theorem Calm.quiet (h : s.Calm) (hq : s.Quiet s') : s'.Calm := hq.graph.pending.trans h

theorem calm_foldl {α : Type} {op : Analysis → α → Analysis}
    (hop : ∀ (s : Analysis) (a : α), s.Calm → (op s a).Calm) (l : List α) (h : s.Calm) : (l.foldl op s).Calm := by
  induction l generalizing s with
  | nil => exact h
  | cons a l ih => exact ih (hop s a h)

/-! ## Linking

Linking makes nodes at the most, and no listener is told of a new node. -/

theorem quiet_linkClass (s : Analysis) (name : ClassName) : s.Quiet (s.linkClass name).2 := by
  obtain ⟨h, c, p, heq, -⟩ := s.linkClass_frame name
  rw [heq]
  exact .aside (.refl _) rfl rfl

/-- Looking something up before changes nothing that is said here. -/
theorem quiet_linkClass_with (s : Analysis) (h : Hierarchy) (name : ClassName) :
    s.Quiet ({ s with hierarchy := h }.linkClass name).2 := by
  have hlooked : s.Quiet { s with hierarchy := h } := .aside (.refl _) rfl rfl
  exact hlooked.trans (quiet_linkClass _ name)

theorem quiet_report (s : Analysis) (p : Problem) : s.Quiet (s.report p) := .aside (.refl _) rfl rfl

theorem quiet_recordMethod (s : Analysis) (m : QualifiedMethod) (d : ClassDef) (f : MethodDef) :
    s.Quiet (s.recordMethod m d f).2 :=
  .aside (((s.graph.quiet_newNodes (m.signature.params.length + 1)).trans (FlowGraph.quiet_newNode _)).trans
    (FlowGraph.quiet_newNode _)) rfl rfl

theorem quiet_linkMethod (s : Analysis) (m : QualifiedMethod) : s.Quiet (s.linkMethod m).2 := by
  unfold linkMethod
  split
  · exact .refl s
  · simp only []
    split
    · have hlink := quiet_linkClass_with s (s.hierarchy.resolveMethod m).2 m.owner
      split
      · exact hlink.trans (quiet_report _ _)
      · exact hlink
    · next resolved _ =>
      split
      · exact .aside (.refl _) rfl rfl
      · split
        · exact .aside (.refl _) rfl rfl
        · next d f _ =>
          have hlink := quiet_linkClass_with s ((s.hierarchy.resolveMethod m).2.get resolved.owner).2 resolved.owner
          have hrecord := hlink.trans (quiet_recordMethod _ resolved d f)
          split
          · exact hrecord
          · exact hrecord.trans (.aside (.refl _) rfl rfl)

theorem quiet_markInitialized (s : Analysis) (name : ClassName) : s.Quiet (s.markInitialized name) := by
  have hmark : s.Quiet { s with
      classes := s.classes.adjust name fun r => { r with initialized := true }
      hierarchy := (s.hierarchy.get name).2 } := .aside (.refl _) rfl rfl
  unfold markInitialized
  simp only []
  split
  · exact hmark.trans (quiet_linkMethod _ _)
  · exact hmark

theorem quiet_initializeAlong (s : Analysis) (names : List ClassName) : s.Quiet (s.initializeAlong names) := by
  induction names generalizing s with
  | nil => exact .refl s
  | cons name names ih =>
    have hlink := quiet_linkClass s name
    unfold initializeAlong
    simp only []
    split
    · exact hlink
    · exact (hlink.trans (quiet_markInitialized _ name)).trans (ih _)

theorem quiet_initializeClass (s : Analysis) (name : ClassName) : s.Quiet (s.initializeClass name) :=
  quiet_initializeAlong s _

theorem quiet_linkField (s : Analysis) (f : QualifiedField) : s.Quiet (s.linkField f).2 := by
  unfold linkField
  split
  · exact .refl s
  · simp only []
    split
    · have hlink := quiet_linkClass_with s (s.hierarchy.resolveField f).2 f.owner
      split
      · exact hlink.trans (quiet_report _ _)
      · exact hlink
    · next resolved _ =>
      split
      · exact .aside (.refl _) rfl rfl
      · exact (quiet_linkClass_with s (s.hierarchy.resolveField f).2 resolved.owner).trans
          (.aside (FlowGraph.quiet_newNode _) rfl rfl)

theorem quiet_linkType (s : Analysis) (t : DeclType) : s.Quiet (s.linkType t) := by
  unfold linkType
  split
  · exact quiet_linkClass s _
  · exact .refl s

theorem quiet_linkElement (s : Analysis) (t : ExactType) : s.Quiet (s.linkElement t) := by
  unfold linkElement
  split
  · exact quiet_linkClass s _
  · exact .refl s

theorem quiet_accessField (s : Analysis) (instance? : Option Local) (field : QualifiedField) :
    s.Quiet (s.accessField instance? field).2 := by
  unfold accessField
  simp only []
  split
  · exact (quiet_initializeClass s field.owner).trans (quiet_linkField _ field)
  · exact quiet_linkField s field

theorem quiet_aggregate (s : Analysis) (t : DeclType) : s.Quiet (s.aggregate t).2 := by
  unfold aggregate
  split
  · exact .refl s
  · split
    · exact .refl s
    · exact .aside s.graph.quiet_newNode rfl rfl

theorem quiet_poolNode (s : Analysis) (key : ItemKey) : s.Quiet (s.poolNode key).2 := by
  unfold poolNode
  split
  · exact .refl s
  · exact .aside s.graph.quiet_newNode rfl rfl

theorem quiet_consult (s : Analysis) (t : DeclType) : s.Quiet (s.consult t) := by
  unfold consult
  split
  · next name _ =>
    split
    · exact .refl s
    · simp only []
      split
      · exact quiet_linkClass_with s (s.hierarchy.get name).2 name
      · exact .aside (.refl _) rfl rfl
  · exact .refl s

/-! ## Flow -/

theorem calm_connect (s : Analysis) (a b : NodeId) : (s.connect a b).Calm := pending_drain _

theorem calm_instantiate (s : Analysis) (n : NodeId) (t : ExactType) : (s.instantiate n t).Calm := pending_drain _

theorem calm_wireSupertypes (h : s.Calm) (t : DeclType) (n : NodeId) : (s.wireSupertypes t n).Calm := by
  unfold wireSupertypes
  simp only []
  split
  · exact calm_connect _ _ _
  · exact calm_foldl (fun _ _ _ => calm_connect _ _ _) _ (h.quiet (quiet_consult s t))

theorem calm_itemPool (h : s.Calm) (component : DeclType) : (s.itemPool component).2.Calm := by
  unfold itemPool
  simp only []
  split
  · exact calm_connect _ _ _
  · exact h.quiet (quiet_poolNode s _)

theorem calm_newSelector (h : s.Calm) (key : SelectorKey) (declared : QualifiedMethod) (receiver? : Option NodeId) :
    (s.newSelector key declared receiver?).2.Calm := by
  cases key with
  | shared m => exact h
  | perSite caller receiver m =>
    cases receiver? with
    | some n => exact pending_drain _
    | none => exact h

theorem calm_linkDynamicCall (h : s.Calm) (receiver : Local) (declared : QualifiedMethod) (site : CallSite) :
    (s.linkDynamicCall receiver declared site).Calm := by
  have hselect : (s.selectorFor receiver declared site).2.Calm := by
    unfold selectorFor
    split
    · exact h
    · exact calm_newSelector h _ _ _
  refine calm_foldl (fun s target h => ?_) _ hselect
  split
  · exact pending_drain _
  · exact h

theorem calm_runTask (h : s.Calm) (t : Task) : (s.runTask t).Calm := by
  cases t with
  | wire t n => exact calm_wireSupertypes h t n
  | attach id declared =>
    unfold runTask
    simp only []
    split
    · exact pending_drain _
    · exact h.quiet (quiet_aggregate s _)

/-! ## Bodies -/

theorem calm_connectNodes (h : s.Calm) (source? target? : Option NodeId) :
    (s.connectNodes source? target?).Calm := by
  unfold connectNodes
  split
  · exact calm_connect _ _ _
  · exact h

theorem calm_instantiateLocal (h : s.Calm) (f : Frame) (dst : Local) (t : ExactType) :
    (s.instantiateLocal f dst t).Calm := by
  unfold instantiateLocal
  split
  · exact calm_instantiate _ _ _
  · exact h

theorem calm_allocateArrays (h : s.Calm) (f : Frame) (dst : Local) (type : DeclType) (count : Nat) :
    (s.allocateArrays f dst type count).Calm := by
  unfold allocateArrays
  split
  · exact h
  · exact calm_foldl (fun _ _ _ => calm_instantiate _ _ _) _ (calm_instantiateLocal h f dst _)

theorem calm_linkMonitors (h : s.Calm) (object? : Option NodeId) : (s.linkMonitors object?).Calm := by
  refine calm_foldl (fun s m h => ?_) _ h
  simp only []
  split
  · exact h.quiet (quiet_linkMethod s m)
  · exact calm_connectNodes (h.quiet (quiet_linkMethod s m)) _ _

theorem calm_call (h : s.Calm) (f : Frame) (dst? instance? : Option Local) (callee : QualifiedMethod)
    (args : List Local) (binding : Binding) : (s.call f dst? instance? callee args binding).Calm := by
  have hinit : (if binding = .static then s.initializeClass callee.owner else s).Calm := by
    split
    · exact h.quiet (quiet_initializeClass s callee.owner)
    · exact h
  unfold call
  simp only []
  split
  · exact calm_linkDynamicCall h _ _ _
  · split
    · exact pending_drain _
    · exact hinit.quiet (quiet_linkMethod _ callee)

theorem calm_transfer (h : s.Calm) (f : Frame) (i : Instr) : (s.transfer f i).Calm := by
  cases i with
  | move dst src => exact calm_connectNodes h _ _
  | cast dst src target => exact calm_connectNodes (h.quiet (quiet_linkType s target)) _ _
  | nullConst dst => exact h
  | textConst dst value => exact calm_instantiateLocal h f dst _
  | classConst dst constant => exact calm_instantiateLocal (h.quiet (quiet_linkType s constant)) f dst _
  | new dst cls => exact calm_instantiateLocal h f dst _
  | newArray dst item length =>
    simp only [transfer]
    split
    · exact calm_instantiateLocal h f dst _
    · exact h
  | newMultiArray dst type lengths => exact calm_allocateArrays h f dst type _
  | loadField dst instance? field type =>
    exact calm_connectNodes (h.quiet (quiet_accessField s instance? field)) _ _
  | storeField instance? field src type =>
    exact calm_connectNodes (h.quiet (quiet_accessField s instance? field)) _ _
  | loadItem dst array type =>
    simp only [transfer]
    split
    · exact calm_connectNodes (calm_itemPool h type) _ _
    · exact h
  | storeItem array index src type =>
    simp only [transfer]
    split
    · exact calm_connectNodes (calm_itemPool h type) _ _
    · exact h
  | cloneArray dst array => exact calm_connectNodes h _ _
  | call dst? instance? callee args binding => exact calm_call h f dst? instance? callee args binding
  | instanceTest dst src tested => exact h.quiet (quiet_linkType s tested)
  | initClass cls => exact h.quiet (quiet_initializeClass s cls)
  | phi dst sources => exact calm_foldl (fun _ _ h => calm_connectNodes h _ _) sources h
  | enterMonitor object => exact calm_linkMonitors h _
  | exitMonitor object => exact calm_linkMonitors h _
  | jump target => exact h
  | branch condition thenBlock elseBlock => exact h
  | ret value? => exact calm_connectNodes h _ _
  | raise exception => exact calm_connectNodes h _ _

theorem calm_transferHandler (h : s.Calm) (f : Frame) (x : Handler) : (s.transferHandler f x).Calm := by
  unfold transferHandler
  simp only []
  split
  · exact calm_connectNodes (h.quiet (quiet_linkClass s _)) _ _
  · exact calm_connectNodes h _ _

theorem calm_transferBlock (h : s.Calm) (f : Frame) (b : Block) : (s.transferBlock f b).Calm :=
  calm_foldl (fun _ x h => calm_transferHandler h f x) b.handlers
    (calm_foldl (fun _ i h => calm_transfer h f i) b.instrs h)

theorem calm_processBody (s : Analysis) (id : MethodId) (r : MethodRecord) (body : Body) :
    (s.processBody id r body).Calm :=
  calm_foldl (fun _ b h => calm_transferBlock h _ b) body.blocks (pending_drain _)

theorem calm_runBody (h : s.Calm) (id : MethodId) (r : MethodRecord) :
    (match r.definition.body? with
      | some body => s.processBody id r body
      | none => s).Calm := by
  split
  · exact calm_processBody s id r _
  · exact h

theorem calm_processMethod (h : s.Calm) (id : MethodId) : (s.processMethod id).Calm := by
  unfold processMethod
  split
  · exact h
  · next r _ =>
    split
    · exact h
    · have hmarked : (s.marked id).Calm := h
      have hbody := calm_runBody hmarked id r
      simp only []
      split
      · exact calm_linkMonitors hbody none
      · exact hbody

/-! ## Runs -/

theorem calm_processMethods (h : s.Calm) (fuel : Nat) : (processMethods fuel s).Calm := by
  induction fuel generalizing s with
  | zero => exact h
  | succ fuel ih =>
    unfold processMethods
    split
    · exact h
    · refine ih (calm_processMethod ?_ _)
      exact h

theorem calm_runTasks (h : s.Calm) : s.runTasks.Calm := by
  refine calm_foldl (fun s t h => calm_runTask ?_ t) s.deferred ?_
  · exact h
  · exact h

theorem calm_runWaves (h : s.Calm) (methods fuel : Nat) : (runWaves methods fuel s).Calm := by
  induction fuel generalizing s with
  | zero => exact h
  | succ fuel ih =>
    have hmethods : (processMethods methods
        { s with tally := { s.tally with waves := s.tally.waves + 1 } }).Calm := by
      refine calm_processMethods ?_ methods
      exact h
    unfold runWaves
    simp only []
    split
    · exact hmethods
    · exact ih (calm_runTasks hmethods)

theorem Calm.withEntries (h : s.Calm) (entries : Table QualifiedMethod (List (Nat × ExactType))) :
    Calm { s with entries := entries } := h

theorem calm_addEntry (h : s.Calm) (m : QualifiedMethod) : (s.addEntry m).2.Calm := by
  have hlink := h.quiet (quiet_linkMethod s m)
  unfold addEntry
  simp only []
  split
  · exact hlink
  · split
    · split
      · exact (hlink.quiet (quiet_initializeClass _ _)).withEntries _
      · exact hlink.withEntries _
    · exact hlink.withEntries _

theorem calm_seedParam {s' : Analysis} {m : QualifiedMethod} {index : Nat} {t : ExactType}
    (h : s.seedParam m index t = .ok s') : s'.Calm := by
  unfold seedParam at h
  split at h
  · cases h
  · split at h
    · cases h
    · cases h
      exact calm_instantiate _ _ _

theorem calm_reseedEntry (h : s.Calm) (m : QualifiedMethod) (seeds : List (Nat × ExactType)) :
    (s.reseedEntry m seeds).Calm := by
  have hadd := calm_addEntry h m
  unfold reseedEntry
  split
  · next heq =>
    rw [heq] at hadd
    exact hadd
  · next heq =>
    rw [heq] at hadd
    refine calm_foldl (fun s seed h => ?_) seeds hadd
    split
    · next hok => exact calm_seedParam hok
    · exact h

theorem calm_reseedEntries (h : s.Calm) : s.reseedEntries.Calm := by
  unfold reseedEntries
  split
  · exact calm_foldl (fun _ e h => calm_reseedEntry h e.1 e.2) _ h
  · exact h

theorem calm_settle (h : s.Calm) : s.settle.Calm := calm_runWaves (calm_reseedEntries h) _ _

end Analysis

end TypeFlow
