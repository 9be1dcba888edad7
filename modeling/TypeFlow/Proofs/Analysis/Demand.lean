import TypeFlow.Proofs.Analysis.Growth

/-!
# What a body demands

Each instruction demands that types flow between nodes, that types appear at
nodes and that methods and fields are linked. Flow may be read as edges, which
last while an analysis grows (`edges`), or as inclusion between the sets of
types at the nodes (`contents`); in a valid graph the first gives the second.
-/

namespace TypeFlow

/-- The sense in which the demands of a body are meant. -/
structure Sense where
  flows : NodeId → NodeId → Prop
  holds : NodeId → ExactType → Prop
  method : QualifiedMethod → Option QualifiedMethod → Prop
  field : QualifiedField → Option QualifiedField → Prop

namespace Sense

def between (R : Sense) (source? target? : Option NodeId) : Prop :=
  ∀ a b, source? = some a → target? = some b → R.flows a b

def appears (R : Sense) (node? : Option NodeId) (t : ExactType) : Prop :=
  ∀ n, node? = some n → R.holds n t ∧ R.holds Analysis.root t

structure Imp (R R' : Sense) : Prop where
  flows : ∀ {a b}, R.flows a b → R'.flows a b
  holds : ∀ {n t}, R.holds n t → R'.holds n t
  method : ∀ {m a}, R.method m a → R'.method m a
  field : ∀ {f a}, R.field f a → R'.field f a

variable {R R' : Sense}

theorem between.mono {source? target? : Option NodeId} (h : R.between source? target?) (hi : R.Imp R') :
    R'.between source? target? := fun a b ha hb => hi.flows (h a b ha hb)

theorem appears.mono {node? : Option NodeId} {t : ExactType} (h : R.appears node? t) (hi : R.Imp R') :
    R'.appears node? t := fun n hn => ⟨hi.holds (h n hn).1, hi.holds (h n hn).2⟩

end Sense

def Frame.site (f : Frame) (dst? instance? : Option Local) (args : List Local) : CallSite :=
  { caller := f.caller
    receiver? := instance?.bind f.node?
    args := args.map f.node?
    result? := dst?.bind f.node?
    thrown := f.thrown }

/-- Whether an allocation of type `outer` with `count` lengths makes arrays of type `inner` inside others: some
levels down, where as many dimensions are gone, but never all. -/
def ExactType.InnerOf (inner outer : ExactType) (count : Nat) : Prop :=
  inner.element = outer.element ∧ 1 ≤ inner.dims ∧
    ∃ level, 1 ≤ level ∧ level < count ∧ inner.dims + level = outer.dims

namespace Analysis

def aggregate? (s : Analysis) (t : DeclType) : Option NodeId := if t.isRoot then some root else s.aggregates.find? t

def Linked (s : Analysis) (m : QualifiedMethod) (r : MethodRecord) : Prop :=
  r.reference = m ∧ ∃ id : Nat, s.methods[id]? = some r

def edges (s : Analysis) : Sense where
  flows := s.graph.Flows
  holds n t := t ∈ s.graph.typesAt n
  method m a := s.hierarchy.Decides (fun c => c.resolveMethod m) a
  field f a := s.hierarchy.Decides (fun c => c.resolveField f) a

def contents (s : Analysis) : Sense where
  flows a b := ∀ t ∈ s.graph.typesAt a, t ∈ s.graph.typesAt b
  holds n t := t ∈ s.graph.typesAt n
  method m a := s.hierarchy.view.resolveMethod m = a
  field f a := s.hierarchy.view.resolveField f = a

/-- The method that `m` resolves to is linked, with flow along some edges; there may be no such method. -/
def Runs (s : Analysis) (R : Sense) (m : QualifiedMethod) (flow : MethodRecord → List (NodeId × NodeId)) : Prop :=
  ∃ target?, R.method m target? ∧
    ∀ target, target? = some target → ∃ r, s.Linked target r ∧ ∀ e ∈ flow r, R.flows e.1 e.2

/-- The node of the field that `f` resolves to; the root when there is none. -/
def FieldAt (s : Analysis) (R : Sense) (f : QualifiedField) (node : NodeId) : Prop :=
  ∃ resolved?, R.field f resolved? ∧
    match resolved? with
    | none => node = root
    | some resolved => ∃ record, s.fields.find? resolved = some record ∧ record.node = node

def PoolAt (s : Analysis) (component : DeclType) (node : NodeId) : Prop :=
  s.itemPools.find? (ItemKey.ofType component) = some node

/-- The selector for calls of `declared` on a local variable serves a call and is noted at the caller. -/
def Registered (s : Analysis) (receiver : Local) (declared : QualifiedMethod) (site : CallSite) : Prop :=
  ∃ id sel r, s.selectorKeys.find? (s.selectorKey site.caller receiver declared) = some id ∧
    s.selectors[id]? = some sel ∧ site ∈ sel.sites ∧
    s.methods[site.caller]? = some r ∧ id ∈ r.selectorsAt ⟨receiver, declared.signature⟩

def monitorEdges (object? : Option NodeId) (r : MethodRecord) : List (NodeId × NodeId) :=
  match object?, r.params[1]? with
  | some object, some param => [(object, param)]
  | _, _ => []

/-- A call with a declared receiver class and a receiver is registered, any other one runs its method. -/
def CallDemands (s : Analysis) (R : Sense) (callee : QualifiedMethod) (owner? : Option ClassName)
    (receiver? : Option Local) (site : CallSite) : Prop :=
  match owner?, receiver? with
  | some owner, some receiver => s.Registered receiver ⟨owner, callee.signature⟩ site
  | _, _ => s.Runs R callee fun r => callEdges r site

def Demands (s : Analysis) (R : Sense) (f : Frame) : Instr → Prop
  | .move dst src => R.between (f.node? src) (f.node? dst)
  | .cast dst src _ => R.between (f.node? src) (f.node? dst)
  | .textConst dst _ => R.appears (f.node? dst) (.ofClass stringClass)
  | .classConst dst _ => R.appears (f.node? dst) (.ofClass classClass)
  | .new dst cls => R.appears (f.node? dst) (.ofClass cls)
  | .newArray dst item _ => ∀ t, ExactType.ofDecl? (.array item) = some t → R.appears (f.node? dst) t
  | .newMultiArray dst type lengths => ∀ t, ExactType.ofDecl? type = some t →
      R.appears (f.node? dst) t ∧
        ∀ inner : ExactType, inner.InnerOf t lengths.length →
          ∃ pool, s.PoolAt inner.toDecl pool ∧ R.appears (some pool) inner
  | .loadField dst _ field _ => ∃ node, s.FieldAt R field node ∧ R.between (some node) (f.node? dst)
  | .storeField _ field src _ => ∃ node, s.FieldAt R field node ∧ R.between (f.node? src) (some node)
  | .loadItem dst _ type =>
      type.isReference = true → ∃ pool, s.PoolAt type pool ∧ R.between (some pool) (f.node? dst)
  | .storeItem _ _ src type =>
      type.isReference = true → ∃ pool, s.PoolAt type pool ∧ R.between (f.node? src) (some pool)
  | .cloneArray dst array => R.between (f.node? array) (f.node? dst)
  | .call dst? instance? callee args binding =>
      s.CallDemands R callee binding.receiver? instance? (f.site dst? instance? args)
  | .phi dst sources => ∀ src ∈ sources, R.between (f.node? src) (f.node? dst)
  | .enterMonitor object =>
      ∀ m ∈ monitorMethods s.settings.asyncMonitors, s.Runs R m (monitorEdges (f.node? object))
  | .exitMonitor object =>
      ∀ m ∈ monitorMethods s.settings.asyncMonitors, s.Runs R m (monitorEdges (f.node? object))
  | .ret value? => R.between (value?.bind f.node?) (some f.result)
  | .raise exception => R.between (f.node? exception) (some f.thrown)
  | _ => True

structure Obeys (s : Analysis) (R : Sense) (f : Frame) (params : List NodeId) (body : Body) : Prop where
  locals : f.locals.size = body.locals
  params : ∀ {i : Nat} {p v}, params[i]? = some p → f.locals[i]? = some v → R.flows p v
  instrs : ∀ i ∈ body.instrs, s.Demands R f i
  handlers : ∀ h ∈ body.handlers, R.between (some f.thrown) (h.dst?.bind f.node?)

/-! ## Demands while an analysis grows -/

section
variable {s s' : Analysis} {R R' : Sense}

theorem Grows.edges (h : s.Grows s') : s.edges.Imp s'.edges where
  flows := h.graph.flows
  holds := h.graph.mem_typesAt
  method := h.decides
  field := h.decides

theorem edges_imp_contents (h : s.graph.Valid) : s.edges.Imp s.contents where
  flows hf _ ht := h.typesAt_of_flows hf ht
  holds := id
  method := Hierarchy.Decides.view
  field := Hierarchy.Decides.view

theorem Grows.selectorKey (h : s.Grows s') (caller : MethodId) (receiver : Local) (declared : QualifiedMethod) :
    s'.selectorKey caller receiver declared = s.selectorKey caller receiver declared := by
  unfold Analysis.selectorKey
  rw [h.settings]

theorem Grows.aggregate? (h : s.Grows s') {t : DeclType} {n : NodeId} (ha : s.aggregate? t = some n) :
    s'.aggregate? t = some n := by
  unfold Analysis.aggregate? at ha ⊢
  split
  · next ht => rwa [if_pos ht] at ha
  · next ht =>
    rw [if_neg ht] at ha
    exact h.aggregates _ _ ha

theorem callEdges_of_grows {r r' : MethodRecord} (h : r.Grows r') (site : CallSite) :
    callEdges r' site = callEdges r site := by
  unfold callEdges
  rw [h.definition, h.params, h.result, h.thrown]

theorem monitorEdges_of_grows {r r' : MethodRecord} (h : r.Grows r') (object? : Option NodeId) :
    monitorEdges object? r' = monitorEdges object? r := by
  unfold monitorEdges
  rw [h.params]

theorem Grows.linked (h : s.Grows s') {m : QualifiedMethod} {r : MethodRecord} (hl : s.Linked m r) :
    ∃ r', s'.Linked m r' ∧ r.Grows r' := by
  obtain ⟨hr, id, hid⟩ := hl
  obtain ⟨r', hid', hg⟩ := h.methods id r hid
  exact ⟨r', ⟨hg.reference.trans hr, id, hid'⟩, hg⟩

theorem Runs.mono {m : QualifiedMethod} {flow : MethodRecord → List (NodeId × NodeId)} (hr : s.Runs R m flow)
    (h : s.Grows s') (hi : R.Imp R') (hflow : ∀ {r r'}, r.Grows r' → flow r' = flow r) : s'.Runs R' m flow := by
  obtain ⟨target?, hm, hall⟩ := hr
  refine ⟨target?, hi.method hm, fun target ht => ?_⟩
  obtain ⟨r, hl, he⟩ := hall target ht
  obtain ⟨r', hl', hg⟩ := h.linked hl
  refine ⟨r', hl', fun e hmem => ?_⟩
  rw [hflow hg] at hmem
  exact hi.flows (he e hmem)

theorem FieldAt.mono {f : QualifiedField} {node : NodeId} (hf : s.FieldAt R f node) (h : s.Grows s')
    (hi : R.Imp R') : s'.FieldAt R' f node := by
  obtain ⟨resolved?, hr, hn⟩ := hf
  refine ⟨resolved?, hi.field hr, ?_⟩
  cases resolved? with
  | none => exact hn
  | some resolved =>
    obtain ⟨record, hrec, hnode⟩ := hn
    exact ⟨record, h.fields _ _ hrec, hnode⟩

theorem PoolAt.mono {component : DeclType} {node : NodeId} (hp : s.PoolAt component node) (h : s.Grows s') :
    s'.PoolAt component node := h.itemPools _ _ hp

theorem Registered.mono {receiver : Local} {declared : QualifiedMethod} {site : CallSite}
    (hr : s.Registered receiver declared site) (h : s.Grows s') : s'.Registered receiver declared site := by
  obtain ⟨id, sel, r, hkey, hsel, hsite, hcaller, hid⟩ := hr
  obtain ⟨sel', hsel', hgs⟩ := h.selectors id sel hsel
  obtain ⟨r', hcaller', hgr⟩ := h.methods _ r hcaller
  refine ⟨id, sel', r', ?_, hsel', hgs.sites.subset hsite, hcaller', (hgr.calls _).subset hid⟩
  rw [h.selectorKey]
  exact h.selectorKeys _ _ hkey

theorem CallDemands.mono {callee : QualifiedMethod} {owner? : Option ClassName} {receiver? : Option Local}
    {site : CallSite} (hd : s.CallDemands R callee owner? receiver? site) (h : s.Grows s') (hi : R.Imp R') :
    s'.CallDemands R' callee owner? receiver? site := by
  unfold CallDemands at hd ⊢
  cases owner? with
  | none => exact Runs.mono hd h hi fun hg => callEdges_of_grows hg site
  | some owner =>
    cases receiver? with
    | none => exact Runs.mono hd h hi fun hg => callEdges_of_grows hg site
    | some receiver => exact Registered.mono hd h

theorem Demands.mono {f : Frame} {i : Instr} (hd : s.Demands R f i) (h : s.Grows s') (hi : R.Imp R') :
    s'.Demands R' f i := by
  cases i with
  | move dst src => exact Sense.between.mono hd hi
  | cast dst src target => exact Sense.between.mono hd hi
  | textConst dst value => exact Sense.appears.mono hd hi
  | classConst dst constant => exact Sense.appears.mono hd hi
  | new dst cls => exact Sense.appears.mono hd hi
  | newArray dst item length => exact fun t ht => (hd t ht).mono hi
  | newMultiArray dst type lengths =>
    intro t ht
    obtain ⟨hnode, hinner⟩ := hd t ht
    refine ⟨hnode.mono hi, fun inner hmem => ?_⟩
    obtain ⟨pool, hpool, happ⟩ := hinner inner hmem
    exact ⟨pool, hpool.mono h, happ.mono hi⟩
  | loadField dst instance? field type =>
    obtain ⟨node, hf, hb⟩ := hd
    exact ⟨node, hf.mono h hi, hb.mono hi⟩
  | storeField instance? field src type =>
    obtain ⟨node, hf, hb⟩ := hd
    exact ⟨node, hf.mono h hi, hb.mono hi⟩
  | loadItem dst array type =>
    intro ht
    obtain ⟨pool, hp, hb⟩ := hd ht
    exact ⟨pool, hp.mono h, hb.mono hi⟩
  | storeItem array index src type =>
    intro ht
    obtain ⟨pool, hp, hb⟩ := hd ht
    exact ⟨pool, hp.mono h, hb.mono hi⟩
  | cloneArray dst array => exact Sense.between.mono hd hi
  | call dst? instance? callee args binding => exact CallDemands.mono hd h hi
  | phi dst sources => exact fun src hsrc => (hd src hsrc).mono hi
  | enterMonitor object =>
    intro m hm
    rw [h.settings] at hm
    exact (hd m hm).mono h hi fun hg => monitorEdges_of_grows hg _
  | exitMonitor object =>
    intro m hm
    rw [h.settings] at hm
    exact (hd m hm).mono h hi fun hg => monitorEdges_of_grows hg _
  | ret value? => exact Sense.between.mono hd hi
  | raise exception => exact Sense.between.mono hd hi
  | nullConst => trivial
  | instanceTest => trivial
  | initClass => trivial
  | jump => trivial
  | branch => trivial

theorem Obeys.mono {f : Frame} {params : List NodeId} {body : Body} (ho : s.Obeys R f params body)
    (h : s.Grows s') (hi : R.Imp R') : s'.Obeys R' f params body where
  locals := ho.locals
  params hp hv := hi.flows (ho.params hp hv)
  instrs i hmem := (ho.instrs i hmem).mono h hi
  handlers x hmem := (ho.handlers x hmem).mono hi

end

end Analysis

end TypeFlow
