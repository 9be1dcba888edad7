import TypeFlow.Proofs.Analysis.Flow

/-!
# Transfer by steps

Applying an instruction meets its demands, and all later steps keep them met.
So a method that was processed has a body all of whose demands are met.
-/

namespace TypeFlow

namespace Analysis

variable {w : Actor} {s s' : Analysis} {γ : List Duty} {f : Frame} {body : Body}

def Framed (s : Analysis) (f : Frame) (body : Body) : Prop :=
  ∃ r, s.methods[f.caller]? = some r ∧ r.processed = true ∧ r.definition.body? = some body ∧
    r.locals = f.locals ∧ r.result = f.result ∧ r.thrown = f.thrown

theorem Grows.framed (h : s.Grows s') (hf : s.Framed f body) : s'.Framed f body := by
  obtain ⟨r, hr, hp, hb, hl, hres, hth⟩ := hf
  obtain ⟨r', hr', hg⟩ := h.methods _ r hr
  exact ⟨r', hr', hg.processed hp, hg.definition ▸ hb, (hg.settled hp).trans hl, hg.result.trans hres,
    hg.thrown.trans hth⟩

structure FrameValid (s : Analysis) (f : Frame) : Prop where
  node : ∀ {v : Local} {n : Nat}, f.node? v = some n → s.Plain n
  result : s.Plain f.result
  thrown : s.Plain f.thrown

theorem Framed.valid (hf : s.Framed f body) (hv : s.Valid) : s.FrameValid f := by
  obtain ⟨r, hr, _, _, hl, hres, hth⟩ := hf
  have hvr := hv.methods.record hr
  refine ⟨fun {v n} hn => ?_, hres ▸ hvr.result, hth ▸ hvr.thrown⟩
  have hv' : r.locals[v]? = some n := hl ▸ hn
  exact hvr.locals hv'

theorem FrameValid.grow (hf : s.FrameValid f) (h : s.Grows s') : s'.FrameValid f :=
  ⟨fun hn => h.plain (hf.node hn), h.plain hf.result, h.plain hf.thrown⟩

theorem FrameValid.bind (hf : s.FrameValid f) {v? : Option Local} {n : Nat} (hn : v?.bind f.node? = some n) :
    s.Plain n := by
  obtain ⟨v, _, hv⟩ := Option.bind_eq_some_iff.1 hn
  exact hf.node hv

theorem FrameValid.site (hf : s.FrameValid f) (dst? instance? : Option Local) (args : List Local) :
    ∀ n ∈ (f.site dst? instance? args).nodes, s.Plain n := by
  intro n hn
  simp only [CallSite.nodes, Frame.site, List.mem_append, List.mem_singleton, Option.mem_toList] at hn
  rcases hn with ((hn | hn) | hn) | rfl
  · exact hf.bind hn
  · obtain ⟨arg?, harg, hmem⟩ := List.mem_flatMap.1 hn
    obtain ⟨v, _, rfl⟩ := List.mem_map.1 harg
    exact hf.node (Option.mem_toList.1 hmem)
  · exact hf.bind hn
  · exact hf.thrown

/-! ## Edges between the nodes of a frame -/

theorem moves_connectNodes (hv : s.Valid) (source? target? : Option NodeId)
    (ha : ∀ a, source? = some a → s.Plain a) (hb : ∀ b, target? = some b → s.Plain b) (γ : List Duty) :
    Moves w s γ (s.connectNodes source? target?) γ ∧
      (s.connectNodes source? target?).edges.between source? target? := by
  cases source? with
  | none => exact ⟨.refl s γ, fun _ _ h => nomatch h⟩
  | some a =>
    cases target? with
    | none => exact ⟨.refl s γ, fun _ _ _ h => nomatch h⟩
    | some b =>
      obtain ⟨hmoves, hflow⟩ := moves_connectPlain (w := w) hv (ha a rfl) (hb b rfl) γ
      refine ⟨hmoves, fun a' b' ha' hb' => ?_⟩
      cases ha'
      cases hb'
      exact hflow

theorem moves_flow (hv : s.Valid) (hf : s.FrameValid f) (source target : Local) (γ : List Duty) :
    Moves w s γ (s.flow f source target) γ ∧
      (s.flow f source target).edges.between (f.node? source) (f.node? target) :=
  moves_connectNodes hv _ _ (fun _ hn => hf.node hn) (fun _ hn => hf.node hn) γ

theorem moves_flowAll (hv : s.Valid) (hf : s.FrameValid f) (sources : List Local) (target : Local) (γ : List Duty) :
    Moves w s γ (sources.foldl (fun s src => s.flow f src target) s) γ ∧ ∀ src ∈ sources,
      (sources.foldl (fun s src => s.flow f src target) s).edges.between (f.node? src) (f.node? target) := by
  refine moves_foldl _ sources (I := fun s => s.Valid ∧ s.FrameValid f)
    (G := fun s src => s.edges.between (f.node? src) (f.node? target)) (fun h hi => ?_)
    (fun h hb => hb.mono h.grows.edges) (fun _ hi => moves_flow hi.1 hi.2 _ target γ) ⟨hv, hf⟩
  exact ⟨h.valid hi.1, hi.2.grow h.grows⟩

/-! ## Instances -/

theorem mem_innerArrays_iff {t inner : ExactType} {count : Nat} :
    inner ∈ innerArrays t count ↔ inner.InnerOf t count := by
  unfold innerArrays
  rw [List.mem_map]
  constructor
  · rintro ⟨level, hlevel, rfl⟩
    have hlt := List.mem_range.1 hlevel
    exact ⟨rfl, Nat.le_sub_of_add_le (by omega), level + 1, Nat.le_add_left 1 level, by omega,
      Nat.sub_add_cancel (by omega)⟩
  · rintro ⟨helement, hdims, level, hlow, hhigh, hsum⟩
    refine ⟨level - 1, List.mem_range.2 (by omega), ?_⟩
    obtain ⟨element, dims⟩ := inner
    cases helement
    congr
    simp only [] at hsum
    omega

theorem moves_instantiateLocal (hv : s.Valid) (hf : s.FrameValid f) (dst : Local) {t : ExactType}
    (hb : w = .analysis → s.InBody fun i => t ∈ i.brings) (γ : List Duty) :
    Moves w s γ (s.instantiateLocal f dst t) γ ∧ (s.instantiateLocal f dst t).edges.appears (f.node? dst) t := by
  unfold instantiateLocal
  cases hn : f.node? dst with
  | none => exact ⟨.refl s γ, fun _ h => nomatch h⟩
  | some n => exact moves_instantiate hv (hf.node hn) hb γ

theorem moves_linkType (s : Analysis) (t : DeclType) (γ : List Duty) : Moves w s γ (s.linkType t) γ := by
  unfold linkType
  cases t.className? with
  | none => exact .refl s γ
  | some name => exact moves_linkClass s γ name

theorem moves_allocateInner (hv : s.Valid) (inners : List ExactType)
    (hb : w = .analysis → ∀ t ∈ inners, s.InBody fun i => t ∈ i.brings) (γ : List Duty) :
    Moves w s γ (inners.foldl (fun s inner =>
        (s.itemPool inner.toDecl).2.instantiate (s.itemPool inner.toDecl).1 inner) s) γ ∧
      ∀ inner ∈ inners, ∃ pool,
        Analysis.PoolAt (inners.foldl (fun s inner =>
          (s.itemPool inner.toDecl).2.instantiate (s.itemPool inner.toDecl).1 inner) s) inner.toDecl pool ∧
        (Analysis.edges (inners.foldl (fun s inner =>
          (s.itemPool inner.toDecl).2.instantiate (s.itemPool inner.toDecl).1 inner) s)).appears
            (some pool) inner := by
  refine moves_foldl _ inners
    (I := fun s => s.Valid ∧ (w = .analysis → ∀ t ∈ inners, s.InBody fun i => t ∈ i.brings))
    (G := fun s inner => ∃ pool, s.PoolAt inner.toDecl pool ∧ s.edges.appears (some pool) inner)
    (fun h hi => ?_) (fun h hg => ?_) (fun hmem hi => ?_) ⟨hv, hb⟩
  · exact ⟨h.valid hi.1, fun hw t ht => h.grows.inBody (hi.2 hw t ht)⟩
  · obtain ⟨pool, hat, happ⟩ := hg
    exact ⟨pool, hat.mono h.grows, happ.mono h.grows.edges⟩
  · obtain ⟨hpool, hat, hn⟩ := moves_itemPool (w := w) hi.1 (ExactType.toDecl _) γ
    obtain ⟨hinst, happ⟩ := moves_instantiate (w := w) (hpool.valid hi.1) hn
      (fun hw => hpool.grows.inBody (hi.2 hw _ hmem)) γ
    exact ⟨hpool.trans hinst, _, hat.mono hinst.grows, happ⟩

theorem moves_allocateArrays (hv : s.Valid) (hf : s.FrameValid f) (dst : Local) (type : DeclType)
    (lengths : List Local) (hb : w = .analysis → s.InBody fun i => i = .newMultiArray dst type lengths)
    (γ : List Duty) :
    Moves w s γ (s.allocateArrays f dst type lengths.length) γ ∧
      (s.allocateArrays f dst type lengths.length).Demands (s.allocateArrays f dst type lengths.length).edges f
        (.newMultiArray dst type lengths) := by
  unfold allocateArrays
  cases ht : ExactType.ofDecl? type with
  | none => exact ⟨.refl s γ, fun t h => nomatch ht.symm.trans h⟩
  | some t =>
    have hbrings : (Instr.newMultiArray dst type lengths).brings = t :: innerArrays t lengths.length := by
      simp only [Instr.brings, ht]
    have hbody : ∀ u ∈ t :: innerArrays t lengths.length, w = .analysis → s.InBody fun i => u ∈ i.brings := by
      intro u hu hw
      obtain ⟨id, r, body, hr, hbody, i, hi, rfl⟩ := hb hw
      refine ⟨id, r, body, hr, hbody, _, hi, ?_⟩
      show u ∈ (Instr.newMultiArray dst type lengths).brings
      rw [hbrings]
      exact hu
    obtain ⟨hinst, happ⟩ := moves_instantiateLocal (w := w) hv hf dst (hbody t List.mem_cons_self) γ
    obtain ⟨hmoves, hall⟩ := moves_allocateInner (w := w) (hinst.valid hv) (innerArrays t lengths.length)
      (fun hw u hu => hinst.grows.inBody (hbody u (List.mem_cons_of_mem _ hu) hw)) γ
    refine ⟨hinst.trans hmoves, fun t' ht' => ?_⟩
    obtain rfl : t = t' := Option.some.inj (ht.symm.trans ht')
    exact ⟨happ.mono hmoves.grows.edges, fun inner hinner => hall inner (mem_innerArrays_iff.2 hinner)⟩

/-! ## Fields and item pools -/

theorem moves_accessField (hv : s.Valid) (instance? : Option Local) (field : QualifiedField) (γ : List Duty) :
    Moves w s γ (s.accessField instance? field).2 γ ∧
      (s.accessField instance? field).2.FieldAt (s.accessField instance? field).2.edges field
        (s.accessField instance? field).1 := by
  unfold accessField
  simp only []
  split
  · obtain ⟨hinit, -⟩ := moves_initializeClass (w := w) hv γ field.owner
    obtain ⟨hlink, hat⟩ := moves_linkField (w := w) (hinit.valid hv) γ field
    exact ⟨hinit.trans hlink, hat⟩
  · exact moves_linkField hv γ field

theorem moves_loadField (hv : s.Valid) (hf : s.FrameValid f) (dst : Local) (instance? : Option Local)
    (field : QualifiedField) (type : DeclType) (γ : List Duty) :
    Moves w s γ (s.transfer f (.loadField dst instance? field type)) γ ∧
      (s.transfer f (.loadField dst instance? field type)).Demands
        (s.transfer f (.loadField dst instance? field type)).edges f (.loadField dst instance? field type) := by
  obtain ⟨haccess, hat⟩ := moves_accessField (w := w) hv instance? field γ
  have hv₁ := haccess.valid hv
  have hf₁ := hf.grow haccess.grows
  obtain ⟨hconnect, hbetween⟩ := moves_connectNodes (w := w) hv₁ (some (s.accessField instance? field).1)
    (f.node? dst) (fun a ha => Option.some.inj ha ▸ hv₁.fieldAt_plain hat) (fun _ hn => hf₁.node hn) γ
  exact ⟨haccess.trans hconnect, _, hat.mono hconnect.grows hconnect.grows.edges, hbetween⟩

theorem moves_storeField (hv : s.Valid) (hf : s.FrameValid f) (instance? : Option Local) (field : QualifiedField)
    (src : Local) (type : DeclType) (γ : List Duty) :
    Moves w s γ (s.transfer f (.storeField instance? field src type)) γ ∧
      (s.transfer f (.storeField instance? field src type)).Demands
        (s.transfer f (.storeField instance? field src type)).edges f (.storeField instance? field src type) := by
  obtain ⟨haccess, hat⟩ := moves_accessField (w := w) hv instance? field γ
  have hv₁ := haccess.valid hv
  have hf₁ := hf.grow haccess.grows
  obtain ⟨hconnect, hbetween⟩ := moves_connectNodes (w := w) hv₁ (f.node? src)
    (some (s.accessField instance? field).1) (fun _ hn => hf₁.node hn)
    (fun a ha => Option.some.inj ha ▸ hv₁.fieldAt_plain hat) γ
  exact ⟨haccess.trans hconnect, _, hat.mono hconnect.grows hconnect.grows.edges, hbetween⟩

theorem moves_loadItem (hv : s.Valid) (hf : s.FrameValid f) (dst array : Local) (type : DeclType) (γ : List Duty) :
    Moves w s γ (s.transfer f (.loadItem dst array type)) γ ∧
      (s.transfer f (.loadItem dst array type)).Demands (s.transfer f (.loadItem dst array type)).edges f
        (.loadItem dst array type) := by
  by_cases ht : type.isReference = true
  · obtain ⟨hpool, hat, hn⟩ := moves_itemPool (w := w) hv type γ
    have hf₁ := hf.grow hpool.grows
    obtain ⟨hconnect, hbetween⟩ := moves_connectNodes (w := w) (hpool.valid hv) (some (s.itemPool type).1)
      (f.node? dst) (fun a ha => Option.some.inj ha ▸ hn) (fun _ hn => hf₁.node hn) γ
    simp only [transfer, ht, if_true]
    exact ⟨hpool.trans hconnect, fun _ => ⟨_, hat.mono hconnect.grows, hbetween⟩⟩
  · simp only [transfer, ht]
    exact ⟨.refl s γ, fun h => absurd h ht⟩

theorem moves_storeItem (hv : s.Valid) (hf : s.FrameValid f) (array index src : Local) (type : DeclType)
    (γ : List Duty) :
    Moves w s γ (s.transfer f (.storeItem array index src type)) γ ∧
      (s.transfer f (.storeItem array index src type)).Demands
        (s.transfer f (.storeItem array index src type)).edges f (.storeItem array index src type) := by
  by_cases ht : type.isReference = true
  · obtain ⟨hpool, hat, hn⟩ := moves_itemPool (w := w) hv type γ
    have hf₁ := hf.grow hpool.grows
    obtain ⟨hconnect, hbetween⟩ := moves_connectNodes (w := w) (hpool.valid hv) (f.node? src)
      (some (s.itemPool type).1) (fun _ hn => hf₁.node hn) (fun a ha => Option.some.inj ha ▸ hn) γ
    simp only [transfer, ht, if_true]
    exact ⟨hpool.trans hconnect, fun _ => ⟨_, hat.mono hconnect.grows, hbetween⟩⟩
  · simp only [transfer, ht]
    exact ⟨.refl s γ, fun h => absurd h ht⟩

/-! ## Calls that run one method -/

theorem moves_enter (hv : s.Valid) {object? : Option NodeId} (ho : ∀ n, object? = some n → s.Plain n)
    {m : QualifiedMethod} {id : Nat} (hn : s.Names m (some id)) (γ : List Duty) :
    Moves w s γ (s.connectNodes object? ((s.methods[id]?).bind fun r => r.params[1]?)) γ ∧
      (s.connectNodes object? ((s.methods[id]?).bind fun r => r.params[1]?)).Runs
        (s.connectNodes object? ((s.methods[id]?).bind fun r => r.params[1]?)).edges m (monitorEdges object?) := by
  obtain ⟨r, hr, hd⟩ := hn
  have hparam : (s.methods[id]?).bind (fun r => r.params[1]?) = r.params[1]? := by rw [hr, Option.bind_some]
  rw [hparam]
  obtain ⟨hconnect, hbetween⟩ := moves_connectNodes (w := w) hv object? r.params[1]? ho
    (fun p hp => (hv.methods.record hr).params p (List.mem_of_getElem? hp)) γ
  obtain ⟨r', hr', hg⟩ := hconnect.grows.methods id r hr
  refine ⟨hconnect, Runs.of_names hr' (hg.reference ▸ hconnect.grows.decides hd) fun e he => ?_⟩
  rw [monitorEdges_of_grows hg] at he
  unfold monitorEdges at he
  split at he
  · next _ _ object param hparam =>
    rw [List.mem_singleton] at he
    exact he ▸ hbetween object param rfl hparam
  · cases he

def linkMonitor (object? : Option NodeId) (s : Analysis) (m : QualifiedMethod) : Analysis :=
  match (s.linkMethod m).1 with
  | none => (s.linkMethod m).2
  | some id => (s.linkMethod m).2.connectNodes object?
      (((s.linkMethod m).2.methods[id]?).bind fun r => r.params[1]?)

theorem moves_linkMonitor (hv : s.Valid) {object? : Option NodeId}
    (ho : ∀ n, object? = some n → s.Plain n) (m : QualifiedMethod) (γ : List Duty) :
    Moves w s γ (s.linkMonitor object? m) γ ∧
      (s.linkMonitor object? m).Runs (s.linkMonitor object? m).edges m (monitorEdges object?) := by
  obtain ⟨hlink, hnames⟩ := moves_linkMethod (w := w) hv γ m
  unfold linkMonitor
  cases hid : (s.linkMethod m).1 with
  | none =>
    rw [hid] at hnames
    exact ⟨hlink, none, hnames, fun _ h => nomatch h⟩
  | some id =>
    rw [hid] at hnames
    obtain ⟨henter, hruns⟩ := moves_enter (w := w) (hlink.valid hv)
      (fun n hn => hlink.grows.plain (ho n hn)) hnames γ
    exact ⟨hlink.trans henter, hruns⟩

theorem moves_linkMonitors (hv : s.Valid) (object? : Option NodeId)
    (ho : ∀ n, object? = some n → s.Plain n) (γ : List Duty) :
    Moves w s γ (s.linkMonitors object?) γ ∧ ∀ m ∈ monitorMethods (s.linkMonitors object?).settings.asyncMonitors,
      (s.linkMonitors object?).Runs (s.linkMonitors object?).edges m (monitorEdges object?) := by
  have heq : s.linkMonitors object?
      = (monitorMethods s.settings.asyncMonitors).foldl (linkMonitor object?) s := rfl
  obtain ⟨hmoves, hall⟩ := moves_foldl (w := w) (γ := γ) (linkMonitor object?)
    (monitorMethods s.settings.asyncMonitors)
    (I := fun s => s.Valid ∧ ∀ n, object? = some n → s.Plain n)
    (G := fun s m => s.Runs s.edges m (monitorEdges object?))
    (fun h hi => ⟨h.valid hi.1, fun n hn => h.grows.plain (hi.2 n hn)⟩)
    (fun h hr => hr.mono h.grows h.grows.edges fun hg => monitorEdges_of_grows hg object?)
    (fun _ hi => moves_linkMonitor hi.1 hi.2 _ γ) ⟨hv, ho⟩
  rw [heq]
  refine ⟨hmoves, fun m hm => hall m ?_⟩
  rw [hmoves.grows.settings] at hm
  exact hm

/-- A call that is not resolved at run time. -/
def runMethod (s : Analysis) (callee : QualifiedMethod) (site : CallSite) : Analysis :=
  match (s.linkMethod callee).1 with
  | some id => ((s.linkMethod callee).2.connectCall site id).drain
  | none => (s.linkMethod callee).2

theorem moves_runMethod (hv : s.Valid) (callee : QualifiedMethod) {site : CallSite}
    (hn : ∀ n ∈ site.nodes, s.Plain n) (γ : List Duty) :
    Moves w s γ (s.runMethod callee site) γ ∧
      (s.runMethod callee site).Runs (s.runMethod callee site).edges callee fun r => callEdges r site := by
  obtain ⟨hlink, hnames⟩ := moves_linkMethod (w := w) hv γ callee
  unfold runMethod
  cases hid : (s.linkMethod callee).1 with
  | none =>
    rw [hid] at hnames
    exact ⟨hlink, none, hnames, fun _ h => nomatch h⟩
  | some id =>
    rw [hid] at hnames
    obtain ⟨r, hr, hd⟩ := hnames
    have hv₁ := hlink.valid hv
    obtain ⟨hconnect, hflows⟩ := moves_connectCall (w := w) hv₁ hr (fun n hmem => hlink.grows.plain (hn n hmem)) γ
    have hdrain := moves_drain (w := w) (hconnect.valid hv₁) γ
    have hgrows := (hconnect.trans hdrain).grows
    obtain ⟨r', hr', hg⟩ := hgrows.methods id r hr
    refine ⟨hlink.trans (hconnect.trans hdrain),
      Runs.of_names hr' (hg.reference ▸ hgrows.decides hd) fun e he => ?_⟩
    rw [callEdges_of_grows hg] at he
    exact hdrain.grows.graph.flows (hflows e he)

/-! ## Instructions -/

theorem moves_call (hv : s.Valid) (hc : s.Covered γ) (hγ : ∀ m, .link m ∉ γ) (hf : s.Framed f body)
    (dst? instance? : Option Local) (callee : QualifiedMethod) (args : List Local) (binding : Binding)
    (hi : .call dst? instance? callee args binding ∈ body.instrs) :
    Moves w s γ (s.call f dst? instance? callee args binding) γ ∧
      (s.call f dst? instance? callee args binding).CallDemands
        (s.call f dst? instance? callee args binding).edges callee binding.receiver? instance?
        (f.site dst? instance? args) := by
  have hsite := (hf.valid hv).site dst? instance? args
  -- the method may be found without a receiver, or with a receiver that does not choose it
  have hdirect : Moves w s γ ((if binding = .static then s.initializeClass callee.owner else s).runMethod callee
      (f.site dst? instance? args)) γ ∧
      Runs ((if binding = .static then s.initializeClass callee.owner else s).runMethod callee
        (f.site dst? instance? args)) (Analysis.edges ((if binding = .static then s.initializeClass callee.owner
          else s).runMethod callee (f.site dst? instance? args))) callee
        fun r => callEdges r (f.site dst? instance? args) := by
    have hinit : Moves w s γ (if binding = .static then s.initializeClass callee.owner else s) γ := by
      split
      · exact (moves_initializeClass hv γ callee.owner).1
      · exact .refl s γ
    obtain ⟨hmoves, hruns⟩ := moves_runMethod (w := w) (hinit.valid hv) callee
      (fun n hn => hinit.grows.plain (hsite n hn)) γ
    exact ⟨hinit.trans hmoves, hruns⟩
  unfold call CallDemands
  cases howner : binding.receiver? with
  | none => exact hdirect
  | some owner =>
    cases instance? with
    | none => exact hdirect
    | some receiver =>
      obtain ⟨r, hr, hp, hbody, hl, _, _⟩ := hf
      refine moves_linkDynamicCall hv hc hγ (.of_mem hbody howner hi) hr hp ?_ hsite
      show (some receiver).bind f.node? = r.locals[receiver]?
      rw [hl]
      rfl

theorem moves_transfer (hv : s.Valid) (hc : s.Covered γ) (hγ : ∀ m, .link m ∉ γ) (hf : s.Framed f body) {i : Instr}
    (hi : i ∈ body.instrs) :
    Moves w s γ (s.transfer f i) γ ∧ (s.transfer f i).Demands (s.transfer f i).edges f i := by
  have hfv := hf.valid hv
  have hin : ∀ p : Instr → Prop, p i → s.InBody p := by
    obtain ⟨r, hr, _, hbody, _⟩ := hf
    exact fun p hp => ⟨f.caller, r, body, hr, hbody, i, hi, hp⟩
  cases i with
  | move dst src => exact moves_flow hv hfv src dst γ
  | cast dst src target =>
    have hlink := moves_linkType (w := w) s target γ
    obtain ⟨hflow, hbetween⟩ := moves_flow (w := w) (hlink.valid hv) (hfv.grow hlink.grows) src dst γ
    exact ⟨hlink.trans hflow, hbetween⟩
  | nullConst dst => exact ⟨.refl s γ, trivial⟩
  | textConst dst value => exact moves_instantiateLocal hv hfv dst (fun _ => hin _ List.mem_cons_self) γ
  | classConst dst constant =>
    have hlink := moves_linkType (w := w) s constant γ
    obtain ⟨hinst, happ⟩ := moves_instantiateLocal (w := w) (hlink.valid hv) (hfv.grow hlink.grows) dst
      (fun _ => hlink.grows.inBody (hin _ List.mem_cons_self)) γ
    exact ⟨hlink.trans hinst, happ⟩
  | new dst cls => exact moves_instantiateLocal hv hfv dst (fun _ => hin _ List.mem_cons_self) γ
  | newArray dst item length =>
    cases ht : ExactType.ofDecl? (.array item) with
    | none =>
      simp only [transfer, ht]
      exact ⟨.refl s γ, fun t h => nomatch ht.symm.trans h⟩
    | some t =>
      have hbrings : t ∈ (Instr.newArray dst item length).brings := by
        simp only [Instr.brings, ht, Option.toList_some, List.mem_singleton]
      obtain ⟨hinst, happ⟩ := moves_instantiateLocal (w := w) hv hfv dst (fun _ => hin _ hbrings) γ
      simp only [transfer, ht]
      refine ⟨hinst, fun t' ht' => ?_⟩
      obtain rfl : t = t' := Option.some.inj (ht.symm.trans ht')
      exact happ
  | newMultiArray dst type lengths => exact moves_allocateArrays hv hfv dst type lengths (fun _ => hin _ rfl) γ
  | loadField dst instance? field type => exact moves_loadField hv hfv dst instance? field type γ
  | storeField instance? field src type => exact moves_storeField hv hfv instance? field src type γ
  | loadItem dst array type => exact moves_loadItem hv hfv dst array type γ
  | storeItem array index src type => exact moves_storeItem hv hfv array index src type γ
  | cloneArray dst array => exact moves_flow hv hfv array dst γ
  | call dst? instance? callee args binding => exact moves_call hv hc hγ hf dst? instance? callee args binding hi
  | instanceTest dst src tested => exact ⟨moves_linkType s tested γ, trivial⟩
  | initClass cls => exact ⟨(moves_initializeClass hv γ cls).1, trivial⟩
  | phi dst sources => exact moves_flowAll hv hfv sources dst γ
  | enterMonitor object => exact moves_linkMonitors hv _ (fun _ hn => hfv.node hn) γ
  | exitMonitor object => exact moves_linkMonitors hv _ (fun _ hn => hfv.node hn) γ
  | jump target => exact ⟨.refl s γ, trivial⟩
  | branch condition thenBlock elseBlock => exact ⟨.refl s γ, trivial⟩
  | ret value? =>
    exact moves_connectNodes hv _ _ (fun _ hn => hfv.bind hn) (fun _ hn => Option.some.inj hn ▸ hfv.result) γ
  | raise exception =>
    exact moves_connectNodes hv _ _ (fun _ hn => hfv.node hn) (fun _ hn => Option.some.inj hn ▸ hfv.thrown) γ

end Analysis

end TypeFlow
