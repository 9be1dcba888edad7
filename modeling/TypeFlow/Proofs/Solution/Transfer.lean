import TypeFlow.Proofs.Analysis.Process
import TypeFlow.Proofs.Solution.Extend

/-!
# What bodies bring

Applying an instruction brings the facts that it entails, and processing a
method brings those of its body. The nodes of a frame stand for the slots of
its scene.
-/

namespace TypeFlow

namespace Analysis

variable {w : World} {o : Settings} {K : Fact → Prop} {Γ : List Fact} {s s' : Analysis} {L : NodeId → Slot}
  {f : Frame} {body : Body} {b : Scene}

/-! ## Frames and scenes -/

/-- Whether `f` is the frame of a processed method with this body, and `b` its scene. -/
structure Staged (s : Analysis) (f : Frame) (body : Body) (b : Scene) : Prop where
  framed : s.Framed f body
  caller : ∃ r, s.methods[f.caller]? = some r ∧ r.reference = b.caller
  count : f.locals.size = b.locals

theorem Staged.leads (h : s.Staged f body b) (hl : s.Leads s') : s'.Staged f body b where
  framed := hl.grows.framed h.framed
  caller := by
    obtain ⟨r, hr, hm⟩ := h.caller
    obtain ⟨r', hr', hg⟩ := hl.grows.methods _ r hr
    exact ⟨r', hr', hg.reference.trans hm⟩
  count := h.count

theorem Staged.linked (h : s.Staged f body b) :
    ∃ r, s.Linked b.caller r ∧ r.locals = f.locals ∧ r.result = f.result ∧ r.thrown = f.thrown := by
  obtain ⟨r, hr, -, -, hl, hres, hth⟩ := h.framed
  obtain ⟨r', hr', hm⟩ := h.caller
  obtain rfl := Option.some.inj (hr.symm.trans hr')
  exact ⟨r, ⟨hm, _, hr⟩, hl, hres, hth⟩

theorem Staged.node (h : s.Staged f body b) (v : Local) : Option.Rel s.StandsFor (f.node? v) (b.slot? v) := by
  unfold Frame.node? Scene.slot?
  by_cases hv : v < b.locals
  · obtain ⟨r, hr, hl, -⟩ := h.linked
    have hlt : v < f.locals.size := lt_of_lt_of_eq hv h.count.symm
    rw [if_pos hv, Array.getElem?_eq_getElem hlt]
    exact .some ⟨r, hr, by rw [hl, Array.getElem?_eq_getElem hlt]⟩
  · rw [if_neg hv, Array.getElem?_eq_none (le_of_eq_of_le h.count (Nat.le_of_not_lt hv))]
    exact .none

theorem Staged.node_bind (h : s.Staged f body b) (v? : Option Local) :
    Option.Rel s.StandsFor (v?.bind f.node?) (v?.bind b.slot?) := by
  cases v? with
  | none => exact .none
  | some v => exact h.node v

theorem Staged.result (h : s.Staged f body b) : s.StandsFor f.result (.result b.caller) := by
  obtain ⟨r, hr, -, hres, -⟩ := h.linked
  exact ⟨r, hr, hres⟩

theorem Staged.thrown (h : s.Staged f body b) : s.StandsFor f.thrown (.thrown b.caller) := by
  obtain ⟨r, hr, -, -, hth⟩ := h.linked
  exact ⟨r, hr, hth⟩

theorem Staged.siteAt (h : s.Staged f body b) (dst? instance? : Option Local) (args : List Local) :
    s.SiteAt (f.site dst? instance? args) (b.site dst? instance? args) where
  receiver? := h.node_bind instance?
  args := List.forall₂_map_left_iff.2 (List.forall₂_map_right_iff.2 (List.forall₂_same.2 fun v _ => h.node v))
  result? := h.node_bind dst?
  thrown := h.thrown

/-! ## Edges between slots -/

theorem Grounded.connectNodes (h : Grounded w o K Γ s) (hK : w.catalog.Closed o K) {a? b? : Option NodeId}
    {x? y? : Option Slot} (ha : Option.Rel s.StandsFor a? x?) (hb : Option.Rel s.StandsFor b? y?)
    (hf : ∀ φ ∈ Fact.between x? y?, K φ) : Brings w o K Γ (Fact.between x? y?) s (s.connectNodes a? b?) := by
  cases ha with
  | none => exact .refl h
  | some ha =>
    cases hb with
    | none => exact .refl h
    | some hb => exact h.connect hK ha hb (hf _ List.mem_cons_self)

theorem Grounded.flow (h : Grounded w o K Γ s) (hK : w.catalog.Closed o K) (hs : s.Staged f body b)
    {source target : Local} (hf : ∀ φ ∈ Fact.between (b.slot? source) (b.slot? target), K φ) :
    Brings w o K Γ (Fact.between (b.slot? source) (b.slot? target)) s (s.flow f source target) :=
  h.connectNodes hK (hs.node source) (hs.node target) hf

theorem Grounded.flowAll (h : Grounded w o K Γ s) (hK : w.catalog.Closed o K) (hs : s.Staged f body b)
    {sources : List Local} {target : Local}
    (hf : ∀ φ ∈ sources.flatMap fun src => Fact.between (b.slot? src) (b.slot? target), K φ) :
    Brings w o K Γ (sources.flatMap fun src => Fact.between (b.slot? src) (b.slot? target)) s
      (sources.foldl (fun s src => s.flow f src target) s) :=
  .foldl (P := fun s => s.Staged f body b) (fun hl hs => hs.leads hl) sources h hs
    fun hmem h hs => h.flow hK hs fun φ hφ => hf φ (List.mem_flatMap.2 ⟨_, hmem, hφ⟩)

/-! ## Instances -/

theorem Grounded.instantiateLocal (h : Grounded w o K Γ s) (hK : w.catalog.Closed o K) (hs : s.Staged f body b)
    {dst : Local} {t : ExactType} (ht : ∀ φ ∈ Fact.appear (b.slot? dst) t, K φ) :
    Brings w o K Γ (Fact.appear (b.slot? dst) t) s (s.instantiateLocal f dst t) := by
  have hnode := hs.node dst
  unfold Analysis.instantiateLocal
  generalize f.node? dst = n?, b.slot? dst = x? at hnode ht
  cases hnode with
  | none => exact .refl h
  | some hn => exact h.instantiate hK hn ht

theorem Grounded.linkType (h : Grounded w o K Γ s) (hK : w.catalog.Closed o K) {t : DeclType}
    (ht : ∀ φ ∈ Fact.naming t, K φ) : Brings w o K Γ (Fact.naming t) s (s.linkType t) := by
  unfold Analysis.linkType
  unfold Fact.naming at ht ⊢
  cases hn : t.className? with
  | none => exact .refl h
  | some n =>
    rw [hn] at ht
    exact (h.linkClass hK (ht _ List.mem_cons_self)).1

theorem Grounded.allocateArrays (h : Grounded w o K Γ s) (hK : w.catalog.Closed o K) (hs : s.Staged f body b)
    {dst : Local} {type : DeclType} {lengths : List Local}
    (hf : ∀ φ ∈ w.catalog.entails o b (.newMultiArray dst type lengths), K φ) :
    Brings w o K Γ (w.catalog.entails o b (.newMultiArray dst type lengths)) s
      (s.allocateArrays f dst type lengths.length) := by
  unfold Analysis.allocateArrays
  simp only [Catalog.entails] at hf ⊢
  generalize ExactType.ofDecl? type = t? at hf ⊢
  cases t? with
  | none => exact .refl h
  | some t =>
    simp only [Option.toList_some, List.flatMap_cons, List.flatMap_nil, List.append_nil] at hf ⊢
    have hfirst : Brings w o K Γ (Fact.appear (b.slot? dst) t) s (s.instantiateLocal f dst t) :=
      h.instantiateLocal hK hs fun φ hφ => hf φ (List.mem_append_left _ hφ)
    refine hfirst.append (.foldl (P := fun _ => True) (fun _ _ => trivial) _ hfirst.grounded trivial
      fun {s inner} hmem h _ => ?_)
    have hinner : ∀ φ ∈ Fact.pool (.ofType inner.toDecl) ::
        Fact.appear (some (.pool (.ofType inner.toDecl))) inner, K φ := fun φ hφ =>
      hf φ (List.mem_append_right _ (List.mem_flatMap.2 ⟨inner, hmem, hφ⟩))
    obtain ⟨hpool, hnode⟩ := h.itemPool hK (hinner _ List.mem_cons_self)
    exact hpool.append (hpool.grounded.instantiate hK hnode fun φ hφ => hinner φ (List.mem_cons_of_mem _ hφ))

/-! ## Fields and item pools -/

theorem Grounded.accessField (h : Grounded w o K Γ s) (hK : w.catalog.Closed o K) {instance? : Option Local}
    {field : QualifiedField} (hf : ∀ φ ∈ w.catalog.fieldAccess instance? field, K φ) :
    Brings w o K Γ (w.catalog.fieldAccess instance? field) s (s.accessField instance? field).2 ∧
      (s.accessField instance? field).2.StandsFor (s.accessField instance? field).1
        (w.catalog.fieldSlot field) := by
  unfold Analysis.accessField
  unfold Catalog.fieldAccess at hf ⊢
  cases instance? with
  | none =>
    have hinit := h.initializeClass hK fun φ hφ => hf φ (List.mem_append_left _ hφ)
    obtain ⟨hlink, hnode⟩ := hinit.grounded.linkField hK fun φ hφ => hf φ (List.mem_append_right _ hφ)
    exact ⟨hinit.append hlink, hnode⟩
  | some v => exact h.linkField hK hf

theorem Grounded.loadField (h : Grounded w o K Γ s) (hK : w.catalog.Closed o K) (hs : s.Staged f body b)
    {dst : Local} {instance? : Option Local} {field : QualifiedField} {type : DeclType}
    (hf : ∀ φ ∈ w.catalog.entails o b (.loadField dst instance? field type), K φ) :
    Brings w o K Γ (w.catalog.entails o b (.loadField dst instance? field type)) s
      (s.transfer f (.loadField dst instance? field type)) := by
  obtain ⟨haccess, hnode⟩ := h.accessField hK fun φ hφ => hf φ (List.mem_append_left _ hφ)
  exact haccess.append (haccess.grounded.connectNodes hK (.some hnode) ((hs.leads haccess.leads).node dst)
    fun φ hφ => hf φ (List.mem_append_right _ hφ))

theorem Grounded.storeField (h : Grounded w o K Γ s) (hK : w.catalog.Closed o K) (hs : s.Staged f body b)
    {instance? : Option Local} {field : QualifiedField} {src : Local} {type : DeclType}
    (hf : ∀ φ ∈ w.catalog.entails o b (.storeField instance? field src type), K φ) :
    Brings w o K Γ (w.catalog.entails o b (.storeField instance? field src type)) s
      (s.transfer f (.storeField instance? field src type)) := by
  obtain ⟨haccess, hnode⟩ := h.accessField hK fun φ hφ => hf φ (List.mem_append_left _ hφ)
  exact haccess.append (haccess.grounded.connectNodes hK ((hs.leads haccess.leads).node src) (.some hnode)
    fun φ hφ => hf φ (List.mem_append_right _ hφ))

theorem Grounded.loadItem (h : Grounded w o K Γ s) (hK : w.catalog.Closed o K) (hs : s.Staged f body b)
    {dst array : Local} {type : DeclType} (hf : ∀ φ ∈ w.catalog.entails o b (.loadItem dst array type), K φ) :
    Brings w o K Γ (w.catalog.entails o b (.loadItem dst array type)) s
      (s.transfer f (.loadItem dst array type)) := by
  simp only [Analysis.transfer]
  simp only [Catalog.entails] at hf ⊢
  split at hf
  · next ht =>
    rw [if_pos ht, if_pos ht]
    obtain ⟨hpool, hnode⟩ := h.itemPool hK (hf _ List.mem_cons_self)
    exact hpool.append (hpool.grounded.connectNodes hK (.some hnode) ((hs.leads hpool.leads).node dst)
      fun φ hφ => hf φ (List.mem_cons_of_mem _ hφ))
  · next ht =>
    rw [if_neg ht, if_neg ht]
    exact .refl h

theorem Grounded.storeItem (h : Grounded w o K Γ s) (hK : w.catalog.Closed o K) (hs : s.Staged f body b)
    {array index src : Local} {type : DeclType}
    (hf : ∀ φ ∈ w.catalog.entails o b (.storeItem array index src type), K φ) :
    Brings w o K Γ (w.catalog.entails o b (.storeItem array index src type)) s
      (s.transfer f (.storeItem array index src type)) := by
  simp only [Analysis.transfer]
  simp only [Catalog.entails] at hf ⊢
  split at hf
  · next ht =>
    rw [if_pos ht, if_pos ht]
    obtain ⟨hpool, hnode⟩ := h.itemPool hK (hf _ List.mem_cons_self)
    exact hpool.append (hpool.grounded.connectNodes hK ((hs.leads hpool.leads).node src) (.some hnode)
      fun φ hφ => hf φ (List.mem_cons_of_mem _ hφ))
  · next ht =>
    rw [if_neg ht, if_neg ht]
    exact .refl h

/-! ## Calls that run one method -/

theorem Grounded.param (h : Grounded w o K Γ s) {id : Nat} {r : MethodRecord} (hr : s.methods[id]? = some r)
    (i : Nat) : Option.Rel s.StandsFor r.params[i]? (Slot.params r.reference)[i]? := by
  obtain ⟨L, hL⟩ := h.labelled
  rw [← hL.params h.valid hr, List.getElem?_map]
  cases hp : r.params[i]? with
  | none => exact .none
  | some p => exact .some (hL.slot ((h.valid.methods.record hr).params p (List.mem_of_getElem? hp)).1)

theorem Grounded.linkMonitor (h : Grounded w o K Γ s) (hK : w.catalog.Closed o K) {object? : Option NodeId}
    {x? : Option Slot} (hx : Option.Rel s.StandsFor object? x?) {m : QualifiedMethod}
    (hf : ∀ φ ∈ w.catalog.entering x? m, K φ) :
    Brings w o K Γ (w.catalog.entering x? m) s (s.linkMonitor object? m) := by
  have hlink := h.linkMethod hK fun φ hφ => hf φ (List.mem_append_left _ hφ)
  have hnames := (moves_linkMethod (w := .client) h.valid [] m).2
  unfold Analysis.linkMonitor
  cases hid : (s.linkMethod m).1 with
  | none =>
    rw [hid] at hnames
    have hnone := hlink.grounded.resolveMethod_of_names_none hnames
    simpa only [Catalog.entering, hnone, List.append_nil] using hlink
  | some id =>
    rw [hid] at hnames
    obtain ⟨r, hr, hres⟩ := hlink.grounded.resolveMethod_of_names hnames
    unfold Catalog.entering at hf ⊢
    simp only [hres, hr, Option.bind_some] at hf ⊢
    exact hlink.append (hlink.grounded.connectNodes hK (hlink.leads.grows.optStandsFor hx)
      (hlink.grounded.param hr 1) fun φ hφ => hf φ (List.mem_append_right _ hφ))

theorem Grounded.linkMonitors (h : Grounded w o K Γ s) (hK : w.catalog.Closed o K) {object? : Option NodeId}
    {x? : Option Slot} (hx : Option.Rel s.StandsFor object? x?) (hf : ∀ φ ∈ w.catalog.monitoring o x?, K φ) :
    Brings w o K Γ (w.catalog.monitoring o x?) s (s.linkMonitors object?) := by
  have heq : s.linkMonitors object? = (monitorMethods s.settings.asyncMonitors).foldl
      (Analysis.linkMonitor object?) s :=
    rfl
  rw [heq, h.settings]
  exact .foldl (P := fun s => Option.Rel s.StandsFor object? x?) (fun hl hx => hl.grows.optStandsFor hx) _ h hx
    fun hmem h hx => h.linkMonitor hK hx fun φ hφ => hf φ (List.mem_flatMap.2 ⟨_, hmem, hφ⟩)

theorem Grounded.runMethod (h : Grounded w o K Γ s) (hK : w.catalog.Closed o K) {callee : QualifiedMethod}
    {site : CallSite} {σ : SlotSite} (hσ : s.SiteAt site σ) (hn : ∀ n ∈ site.nodes, s.Plain n)
    (hf : ∀ φ ∈ w.catalog.calling callee σ, K φ) :
    Brings w o K Γ (w.catalog.calling callee σ) s (s.runMethod callee site) := by
  have hlink := h.linkMethod hK fun φ hφ => hf φ (List.mem_append_left _ hφ)
  have hnames := (moves_linkMethod (w := .client) h.valid [] callee).2
  unfold Analysis.runMethod
  cases hid : (s.linkMethod callee).1 with
  | none =>
    rw [hid] at hnames
    have hnone := hlink.grounded.resolveMethod_of_names_none hnames
    simpa only [Catalog.calling, hnone, List.append_nil] using hlink
  | some id =>
    rw [hid] at hnames
    obtain ⟨r, hr, hres⟩ := hlink.grounded.resolveMethod_of_names hnames
    unfold Catalog.calling at hf ⊢
    simp only [hres] at hf ⊢
    have hconnect := hlink.grounded.connectCall hK hr (hlink.leads.grows.siteAt hσ)
      (fun n hmem => hlink.leads.grows.plain (hn n hmem)) fun φ hφ => hf φ (List.mem_append_right _ hφ)
    exact hlink.append (hconnect.before (hconnect.grounded.drain hK))

theorem Grounded.call (h : Grounded w o K Γ s) (hK : w.catalog.Closed o K) (hs : s.Staged f body b)
    {dst? instance? : Option Local} {callee : QualifiedMethod} {args : List Local} {binding : Binding}
    (hi : .call dst? instance? callee args binding ∈ body.instrs)
    (hf : ∀ φ ∈ w.catalog.call o b dst? instance? callee args binding, K φ) :
    Brings w o K Γ (w.catalog.call o b dst? instance? callee args binding) s
      (s.call f dst? instance? callee args binding) := by
  have hnodes := (hs.framed.valid h.valid).site dst? instance? args
  have hsite := hs.siteAt dst? instance? args
  have hdirect : (∀ φ ∈ (if binding = .static then w.catalog.initializing callee.owner else [])
        ++ w.catalog.calling callee (b.site dst? instance? args), K φ) →
      Brings w o K Γ ((if binding = .static then w.catalog.initializing callee.owner else [])
        ++ w.catalog.calling callee (b.site dst? instance? args)) s
        ((if binding = .static then s.initializeClass callee.owner else s).runMethod callee
          (f.site dst? instance? args)) := by
    intro hf
    have hinit : Brings w o K Γ (if binding = .static then w.catalog.initializing callee.owner else []) s
        (if binding = .static then s.initializeClass callee.owner else s) := by
      split at hf
      · next hb =>
        simp only [hb, if_true]
        exact h.initializeClass hK fun φ hφ => hf φ (List.mem_append_left _ hφ)
      · next hb =>
        simp only [hb, if_false]
        exact .refl h
    exact hinit.append (hinit.grounded.runMethod hK (hinit.leads.grows.siteAt hsite)
      (fun n hmem => hinit.leads.grows.plain (hnodes n hmem)) fun φ hφ => hf φ (List.mem_append_right _ hφ))
  unfold Analysis.call
  unfold Catalog.call at hf ⊢
  cases howner : binding.receiver? with
  | none =>
    rw [howner] at hf
    exact hdirect hf
  | some owner =>
    rw [howner] at hf
    cases instance? with
    | none => exact hdirect hf
    | some receiver =>
      obtain ⟨r, hr, hp, hbody, hl, -, -⟩ := hs.framed
      obtain ⟨r', hr', hm⟩ := hs.caller
      obtain rfl := Option.some.inj (hr.symm.trans hr')
      simp only [← hm] at hf ⊢
      refine h.linkDynamicCall hK (.of_mem hbody howner hi) hr hp ?_ hnodes hsite
        (hf _ (List.mem_cons_of_mem _ List.mem_cons_self)) (hf _ List.mem_cons_self)
      show (some receiver).bind f.node? = r.locals[receiver]?
      rw [hl]
      rfl

/-! ## Bodies -/

theorem Grounded.transfer (h : Grounded w o K Γ s) (hK : w.catalog.Closed o K) (hs : s.Staged f body b) {i : Instr}
    (hi : i ∈ body.instrs) (hf : ∀ φ ∈ w.catalog.entails o b i, K φ) :
    Brings w o K Γ (w.catalog.entails o b i) s (s.transfer f i) := by
  cases i with
  | move dst src => exact h.flow hK hs hf
  | cast dst src target =>
    have hlink := h.linkType hK fun φ hφ => hf φ (List.mem_append_left _ hφ)
    exact hlink.append (hlink.grounded.flow hK (hs.leads hlink.leads) fun φ hφ => hf φ (List.mem_append_right _ hφ))
  | nullConst dst => exact .refl h
  | textConst dst value => exact h.instantiateLocal hK hs hf
  | classConst dst constant =>
    have hlink := h.linkType hK fun φ hφ => hf φ (List.mem_append_left _ hφ)
    exact hlink.append (hlink.grounded.instantiateLocal hK (hs.leads hlink.leads)
      fun φ hφ => hf φ (List.mem_append_right _ hφ))
  | new dst cls => exact h.instantiateLocal hK hs hf
  | newArray dst item length =>
    simp only [Analysis.transfer]
    simp only [Catalog.entails] at hf ⊢
    generalize ExactType.ofDecl? (.array item) = t? at hf ⊢
    cases t? with
    | none => exact .refl h
    | some t =>
      simp only [Option.toList_some, List.flatMap_cons, List.flatMap_nil, List.append_nil] at hf ⊢
      exact h.instantiateLocal hK hs hf
  | newMultiArray dst type lengths => exact h.allocateArrays hK hs hf
  | loadField dst instance? field type => exact h.loadField hK hs hf
  | storeField instance? field src type => exact h.storeField hK hs hf
  | loadItem dst array type => exact h.loadItem hK hs hf
  | storeItem array index src type => exact h.storeItem hK hs hf
  | cloneArray dst array => exact h.flow hK hs hf
  | call dst? instance? callee args binding => exact h.call hK hs hi hf
  | instanceTest dst src tested => exact h.linkType hK hf
  | initClass cls => exact h.initializeClass hK hf
  | phi dst sources => exact h.flowAll hK hs hf
  | enterMonitor object => exact h.linkMonitors hK (hs.node object) hf
  | exitMonitor object => exact h.linkMonitors hK (hs.node object) hf
  | jump target => exact .refl h
  | branch condition thenBlock elseBlock => exact .refl h
  | ret value? => exact h.connectNodes hK (hs.node_bind value?) (.some hs.result) hf
  | raise exception => exact h.connectNodes hK (hs.node exception) (.some hs.thrown) hf

theorem Grounded.linkCaught (h : Grounded w o K Γ s) (hK : w.catalog.Closed o K) (name? : Option ClassName) :
    (∀ name ∈ name?, K (.cls name)) → Brings w o K Γ (name?.toList.map .cls) s
      (match name? with
        | some name => (s.linkClass name).2
        | none => s) := by
  intro hf
  cases name? with
  | some name => exact (h.linkClass hK (hf name rfl)).1
  | none => exact .refl h

theorem Grounded.transferHandler (h : Grounded w o K Γ s) (hK : w.catalog.Closed o K) (hs : s.Staged f body b)
    {handler : Handler} (hf : ∀ φ ∈ Catalog.handling b handler, K φ) :
    Brings w o K Γ (Catalog.handling b handler) s (s.transferHandler f handler) := by
  have hcaught := h.linkCaught hK handler.catches fun name hname =>
    hf _ (List.mem_append_left _ (List.mem_map_of_mem (Option.mem_toList.2 hname)))
  exact hcaught.append (hcaught.grounded.connectNodes hK (.some (hs.leads hcaught.leads).thrown)
    ((hs.leads hcaught.leads).node_bind handler.dst?) fun φ hφ => hf φ (List.mem_append_right _ hφ))

theorem Grounded.transferBlock (h : Grounded w o K Γ s) (hK : w.catalog.Closed o K) (hs : s.Staged f body b)
    {block : Block} (hb : block ∈ body.blocks) (hf : ∀ φ ∈ w.catalog.blockFacts o b block, K φ) :
    Brings w o K Γ (w.catalog.blockFacts o b block) s (s.transferBlock f block) := by
  have hinstrs : Brings w o K Γ (block.instrs.flatMap (w.catalog.entails o b)) s
      (block.instrs.foldl (fun s i => s.transfer f i) s) :=
    .foldl (P := fun s => s.Staged f body b) (fun hl hs => hs.leads hl) _ h hs fun hmem h hs =>
      h.transfer hK hs (List.mem_flatMap.2 ⟨block, hb, hmem⟩) fun φ hφ =>
        hf φ (List.mem_append_left _ (List.mem_flatMap.2 ⟨_, hmem, hφ⟩))
  exact hinstrs.append (.foldl (P := fun s => s.Staged f body b) (fun hl hs => hs.leads hl) _ hinstrs.grounded
    (hs.leads hinstrs.leads) fun hmem h hs => h.transferHandler hK hs fun φ hφ =>
      hf φ (List.mem_append_right _ (List.mem_flatMap.2 ⟨_, hmem, hφ⟩)))

theorem Labelled.locals (hL : s.Labelled K L) {m : QualifiedMethod} {r : MethodRecord} (hr : s.Linked m r) :
    r.locals.toList.map L = Slot.vars m r.locals.size := by
  refine List.ext_getElem? fun v => ?_
  unfold Slot.vars
  rw [List.getElem?_map, List.getElem?_map, Array.getElem?_toList]
  by_cases hv : v < r.locals.size
  · rw [Array.getElem?_eq_getElem hv, List.getElem?_range hv]
    exact congrArg some (hL.only ⟨r, hr, Array.getElem?_eq_getElem hv⟩)
  · rw [Array.getElem?_eq_none (Nat.le_of_not_lt hv),
      List.getElem?_eq_none (by rw [List.length_range]; exact Nat.le_of_not_lt hv)]
    rfl

theorem Grounded.runBody (h : Grounded w o K Γ s) (hK : w.catalog.Closed o K) {m : QualifiedMethod}
    (hs : s.Staged f body ⟨m, body.locals⟩) {r : MethodRecord} (hr : s.methods[f.caller]? = some r)
    (hf : ∀ φ ∈ w.catalog.bodyFacts o m body, K φ) :
    Brings w o K Γ (w.catalog.bodyFacts o m body) s (s.runBody f r.params body) := by
  have hends : List.Forall₂ (fun e x => s.StandsFor e.1 x.1 ∧ s.StandsFor e.2 x.2) (r.params.zip f.locals.toList)
      ((Slot.params m).zip (Slot.vars m body.locals)) := by
    obtain ⟨L, hL⟩ := h.labelled
    obtain ⟨r', hr', hm⟩ := hs.caller
    obtain rfl := Option.some.inj (hr.symm.trans hr')
    have hlt : ∀ e ∈ r.params.zip f.locals.toList, s.Plain e.1 ∧ s.Plain e.2 := by
      intro e he
      obtain ⟨hparam, hlocal⟩ := List.of_mem_zip he
      obtain ⟨v, hv⟩ := List.getElem?_of_mem hlocal
      exact ⟨(h.valid.methods.record hr).params _ hparam,
        (hs.framed.valid h.valid).node (v := v) (Array.getElem?_toList.symm.trans hv)⟩
    have hzip : (r.params.zip f.locals.toList).map (Prod.map L L)
        = (Slot.params m).zip (Slot.vars m body.locals) := by
      obtain ⟨r₁, hlinked, hl, -⟩ := hs.linked
      have hcount : r₁.locals.size = body.locals := (congrArg Array.size hl).trans hs.count
      rw [← List.zip_map, hL.params h.valid hr, hm, ← hl, hL.locals hlinked, hcount]
    exact hzip ▸ hL.edges hlt
  have hconnect := h.connectAll hK hends fun φ hφ => hf φ (List.mem_append_left _ hφ)
  have hparams := hconnect.before (hconnect.grounded.drain hK)
  exact hparams.append (.foldl (P := fun s => s.Staged f body ⟨m, body.locals⟩) (fun hl hs => hs.leads hl) _
    hparams.grounded (hs.leads hparams.leads) fun hmem h hs => h.transferBlock hK hs hmem fun φ hφ =>
      hf φ (List.mem_append_right _ (List.mem_flatMap.2 ⟨_, hmem, hφ⟩)))

/-! ## Methods -/

/-- Opening a body gives the method its local variables, which no slot stood for before. -/
theorem Grounded.opened (h : Grounded w o K Γ s) {id : Nat} {r : MethodRecord} (hr : s.methods[id]? = some r)
    (hp : r.processed = false) (hl : r.locals = #[]) (hw : id ∉ s.worklist) :
    Brings w o K Γ [] s (s.opened id r) := by
  have hstep : Step .client s [] (s.opened id r) [] := .openBody hr hp hl hw
  have hleads : s.Leads (s.opened id r) := .of_grows hstep.grows
  have hmodify : (s.opened id r).methods = s.methods.modify id fun r' =>
      { r' with processed := true, locals := (s.graph.newNodes r.localCount).1.toArray } := rfl
  have hanswers : ∀ {k κ}, (s.opened id r).Answers k κ → s.Answers k κ :=
    fun hκ => h.valid.answers_of_same hstep.grows rfl hκ
  obtain ⟨L, hL⟩ := h.labelled
  have hL' := hL.extend h.valid hstep.grows rfl rfl
    (fun n => FlowGraph.typesAt_congr (FlowGraph.held_newNodes _ _ _) (FlowGraph.types_newNodes _ _))
    (fun n => FlowGraph.newNodes_keeps _ (fun g => g.out n) (fun g => FlowGraph.out_newNode g n) _)
    (fun n => .var r.reference (n - s.graph.nodes.size)) (fun {n} hle hn => ?_) (fun {n x} hx => ?_)
  · refine .of_leads (h.aside hstep hleads rfl
      { h.sourced with methods := ?_, selectors := ?_, noted := ?_, calls := ?_ } rfl ?_ rfl rfl rfl rfl
      (fun _ hφ => hφ.same hstep.grows rfl rfl) ⟨_, hL'⟩) hleads
    · intro i r' hr'
      rcases getElem?_modify_cases hr' with ⟨-, hr'⟩ | ⟨rfl, r₀, hr₀, rfl⟩
      · exact h.sourced.methods hr'
      · obtain ⟨hmethod, hnamed, -⟩ := h.sourced.methods hr₀
        obtain rfl := Option.some.inj (hr.symm.trans hr₀)
        exact ⟨hmethod, hnamed, fun _ => FlowGraph.length_newNodes _ _⟩
    · exact fun hκ => h.sourced.selectors (hanswers hκ)
    · intro i r' key k hr' hk'
      rcases getElem?_modify_cases hr' with ⟨-, hr'⟩ | ⟨rfl, r₀, hr₀, rfl⟩
      · exact h.sourced.noted hr' hk'
      · have hold := h.sourced.noted hr₀ hk'
        exact hold
    · intro i r' key k κ hr' hk' hκ
      rcases getElem?_modify_cases hr' with ⟨-, hr'⟩ | ⟨rfl, r₀, hr₀, rfl⟩
      · exact h.sourced.calls hr' hk' (hanswers hκ)
      · have hold := h.sourced.calls hr₀ hk' (hanswers hκ)
        exact hold
    · rintro m ⟨r', hr'⟩
      obtain ⟨r₀, hr₀, -⟩ := linked_modify hmodify (fun _ => rfl) hr'
      exact ⟨r₀, hr₀⟩
  · have hlt : n - s.graph.nodes.size < r.localCount := by
      have hsize : n < s.graph.nodes.size + r.localCount := lt_of_lt_of_eq hn (FlowGraph.size_newNodes _ _)
      omega
    refine ⟨{ r with processed := true, locals := (s.graph.newNodes r.localCount).1.toArray },
      ⟨rfl, id, getElem?_modify_self hr _⟩, ?_⟩
    show (s.graph.newNodes r.localCount).1.toArray[n - s.graph.nodes.size]? = some n
    rw [List.getElem?_toArray, FlowGraph.newNodes_getElem? hlt, Nat.add_sub_cancel' hle]
  · rcases standsFor_modify hmodify (fun _ => ⟨rfl, rfl, rfl, rfl⟩) rfl rfl rfl hx with hx | ⟨r₀, v, hr₀, rfl, hn⟩
    · exact Or.inl hx
    · obtain rfl := Option.some.inj (hr.symm.trans hr₀)
      rw [List.getElem?_toArray] at hn
      obtain ⟨-, rfl⟩ := FlowGraph.getElem?_newNodes hn
      exact Or.inr ⟨Nat.le_add_right _ _, by rw [Nat.add_sub_cancel_left]⟩

/-- A method in hand is processed: its facts are there afterwards. -/
theorem Grounded.processMethod {id : Nat} {r : MethodRecord} (h : Grounded w o K (.method r.reference :: Γ) s)
    (hK : w.catalog.Closed o K) (hr : s.methods[id]? = some r) (hp : r.processed = false) (hw : id ∉ s.worklist) :
    Brings w o K Γ [] s (s.processMethod id) := by
  have hl := (h.valid.methods.record hr).unopened hp
  have hfacts : w.catalog.methodFacts o r.reference =
      r.definition.body?.toList.flatMap (w.catalog.bodyFacts o r.reference)
        ++ if r.definition.isSynchronized then w.catalog.monitoring o none else [] := by
    unfold Catalog.methodFacts
    rw [h.method? hr]
  have hf : ∀ φ ∈ w.catalog.methodFacts o r.reference, K φ := fun φ hφ => hK.follows (h.sourced.methods hr).1 hφ
  have hopen := h.opened hr hp hl hw
  have hr₁ : (s.opened id r).methods[id]? = some
      { r with processed := true, locals := (s.graph.newNodes r.localCount).1.toArray } :=
    getElem?_modify_self hr _
  rw [hfacts] at hf
  have hrun : Brings w o K (.method r.reference :: Γ)
      (r.definition.body?.toList.flatMap (w.catalog.bodyFacts o r.reference)) s (s.openAndRun id r) := by
    unfold Analysis.openAndRun
    cases hb : r.definition.body? with
    | none => exact hopen
    | some body =>
      have hcount : (s.openedFrame id r).locals.size = body.locals := by
        simp only [openedFrame, List.size_toArray, FlowGraph.length_newNodes, MethodRecord.localCount_of_body hb]
      have hstaged : (s.opened id r).Staged (s.openedFrame id r) body ⟨r.reference, body.locals⟩ :=
        ⟨⟨_, hr₁, rfl, hb, rfl, rfl, rfl⟩, ⟨_, hr₁, rfl⟩, hcount⟩
      rw [hb] at hf
      simp only [Option.toList_some, List.flatMap_cons, List.flatMap_nil, List.append_nil] at hf ⊢
      have hbody := hopen.grounded.runBody hK hstaged hr₁ fun φ hφ => hf φ (List.mem_append_left _ hφ)
      exact .after hopen.leads hbody
  have hall : Brings w o K (.method r.reference :: Γ) (w.catalog.methodFacts o r.reference) s
      (s.processMethod id) := by
    rw [processMethod_eq hr hp hl, hfacts]
    split at hf
    · next hs =>
      rw [if_pos hs, if_pos hs]
      exact hrun.append (hrun.grounded.linkMonitors hK .none fun φ hφ => hf φ (List.mem_append_right _ hφ))
    · next hs =>
      rw [if_neg hs, if_neg hs, List.append_nil]
      exact hrun
  exact .of_leads (hall.grounded.release hall.has) hall.leads

end Analysis

end TypeFlow
