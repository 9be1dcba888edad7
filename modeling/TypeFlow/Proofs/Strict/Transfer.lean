import TypeFlow.Proofs.Strict.Flow

/-!
# Strict transfer

Applying a body looks nothing up in vain: its local variables have nodes, and
the records of the methods that it names are there once these are linked.
-/

namespace TypeFlow

open Analysis

namespace Strict

variable {s s' : Analysis} {γ : List Duty} {f : Frame} {body : Body}

/-! ## Between the nodes of a frame -/

theorem gives_connectNodes (hv : s.Valid) {source? target? : Option NodeId}
    (ha : ∀ a, source? = some a → s.Plain a) (hb : ∀ b, target? = some b → s.Plain b) :
    Gives false (connectNodes source? target?) s () (s.connectNodes source? target?) := by
  cases source? with
  | none => exact .pure ()
  | some a =>
    cases target? with
    | none => exact .pure ()
    | some b => exact gives_connect hv (ha a rfl).1 (hb b rfl).1

theorem gives_flow (hv : s.Valid) (hf : s.FrameValid f) (source target : Local) :
    Gives false (flow f source target) s () (s.flow f source target) :=
  gives_connectNodes hv (fun _ hn => hf.node hn) fun _ hn => hf.node hn

theorem gives_instantiateLocal (hv : s.Valid) (hf : s.FrameValid f) (dst : Local) (t : ExactType) :
    Gives false (instantiateLocal f dst t) s () (s.instantiateLocal f dst t) := by
  unfold instantiateLocal Analysis.instantiateLocal
  cases hn : f.node? dst with
  | none => exact .pure ()
  | some n => exact gives_instantiate hv (hf.node hn).1 t

theorem gives_allocateArrays (hv : s.Valid) (hf : s.FrameValid f) (dst : Local) (type : DeclType) (count : Nat) :
    Gives false (allocateArrays f dst type count) s () (s.allocateArrays f dst type count) := by
  unfold allocateArrays Analysis.allocateArrays
  cases ExactType.ofDecl? type with
  | none => exact .pure ()
  | some t =>
    have hinst := (moves_instantiateLocal (w := .client) (t := t) hv hf dst nofun []).1
    have hv₁ := hinst.valid hv
    refine (gives_instantiateLocal hv hf dst t).bind ?_
    refine (gives_forM (fun s' => Moves .client (s.instantiateLocal f dst t) [] s' []) _
      (fun inner _ {s'} hmoves => ?_) (.refl _ _)).1
    obtain ⟨hpool, -, hn⟩ := moves_itemPool (w := .client) (hmoves.valid hv₁) inner.toDecl []
    have hlater := hmoves.trans hpool
    have hv₂ := hlater.valid hv₁
    constructor
    · exact (gives_itemPool (hmoves.valid hv₁) inner.toDecl).bind (gives_instantiate hv₂ hn.1 inner)
    · exact hlater.trans (moves_instantiate (w := .client) (t := inner) hv₂ hn nofun []).1

/-! ## Calls that run one method -/

theorem gives_linkMonitor (hv : s.Valid) {object? : Option NodeId} (ho : ∀ n, object? = some n → s.Plain n)
    (m : QualifiedMethod) : Gives false (linkMonitor object? m) s () (s.linkMonitor object? m) := by
  obtain ⟨hlink, hnames⟩ := moves_linkMethod (w := .client) hv [] m
  have hv₁ := hlink.valid hv
  unfold linkMonitor Analysis.linkMonitor
  refine (gives_run (f := fun s => s.linkMethod m) (quiet_linkMethod s m)).bind ?_
  cases hid : (s.linkMethod m).1 with
  | none => exact .pure ()
  | some id =>
    rw [hid] at hnames
    obtain ⟨r, hr, -⟩ := hnames
    simp only [hr, Option.bind_some]
    refine (gives_find hr).bind (gives_connectNodes hv₁ (fun n hn => hlink.grows.plain (ho n hn)) fun p hp => ?_)
    exact (hv₁.methods.record hr).params p (List.mem_of_getElem? hp)

theorem gives_linkMonitors (hv : s.Valid) {object? : Option NodeId} (ho : ∀ n, object? = some n → s.Plain n) :
    Gives false (linkMonitors object?) s () (s.linkMonitors object?) := by
  unfold linkMonitors
  refine (gives_look _).bind ?_
  refine (gives_forM (f := Analysis.linkMonitor object?) (fun s' => Moves .client s [] s' []) _
    (fun m _ {s'} hmoves => ?_) (.refl s [])).1
  have ho' : ∀ n, object? = some n → s'.Plain n := fun n hn => hmoves.grows.plain (ho n hn)
  have hv' := hmoves.valid hv
  exact ⟨gives_linkMonitor hv' ho' m, hmoves.trans (moves_linkMonitor hv' ho' m []).1⟩

theorem gives_runMethod (hv : s.Valid) (callee : QualifiedMethod) {site : CallSite}
    (hn : ∀ n ∈ site.nodes, s.Plain n) : Gives false (runMethod callee site) s () (s.runMethod callee site) := by
  obtain ⟨hlink, hnames⟩ := moves_linkMethod (w := .client) hv [] callee
  have hv₁ := hlink.valid hv
  unfold runMethod Analysis.runMethod
  refine (gives_run (f := fun s => s.linkMethod callee) (quiet_linkMethod s callee)).bind ?_
  cases hid : (s.linkMethod callee).1 with
  | none => exact .pure ()
  | some id =>
    rw [hid] at hnames
    obtain ⟨r, hr, -⟩ := hnames
    have hn₁ : ∀ n ∈ site.nodes, (s.linkMethod callee).2.Plain n := fun n hmem => hlink.grows.plain (hn n hmem)
    have hconnect := (moves_connectCall (w := .client) hv₁ hr hn₁ []).1
    exact gives_connectCall hv₁ hr hn₁ (gives_dispatch (hconnect.valid hv₁))

/-! ## Instructions -/

theorem gives_call (hv : s.Valid) (hf : s.Framed f body) (dst? instance? : Option Local) (callee : QualifiedMethod)
    (args : List Local) (binding : Binding) (hi : .call dst? instance? callee args binding ∈ body.instrs) :
    Gives false (call f dst? instance? callee args binding) s () (s.call f dst? instance? callee args binding) := by
  have hsite := (hf.valid hv).site dst? instance? args
  have hdirect : Gives false (do
        if binding = .static then change fun s => s.initializeClass callee.owner
        runMethod callee (f.site dst? instance? args)) s ()
      ((if binding = .static then s.initializeClass callee.owner else s).runMethod callee
        (f.site dst? instance? args)) := by
    by_cases hstatic : binding = .static
    · obtain ⟨hinit, -⟩ := moves_initializeClass (w := .client) hv [] callee.owner
      simp only [hstatic, if_true]
      refine (gives_change (f := fun s => s.initializeClass callee.owner)
        (quiet_initializeClass s callee.owner)).bind ?_
      exact gives_runMethod (hinit.valid hv) callee fun n hn => hinit.grows.plain (hsite n hn)
    · simp only [hstatic, if_false]
      exact gives_runMethod hv callee hsite
  unfold call Analysis.call
  cases howner : binding.receiver? with
  | none => exact hdirect
  | some owner =>
    cases instance? with
    | none => exact hdirect
    | some receiver =>
      obtain ⟨r, hr, hp, hbody, hl, -, -⟩ := hf
      refine gives_linkDynamicCall hv (.of_mem hbody howner hi) hr hp ?_ hsite
      show (some receiver).bind f.node? = r.locals[receiver]?
      rw [hl]
      rfl

theorem gives_transfer (hv : s.Valid) (hf : s.Framed f body) {i : Instr} (hi : i ∈ body.instrs) :
    Gives false (transfer f i) s () (s.transfer f i) := by
  have hfv := hf.valid hv
  cases i with
  | move dst src => exact gives_flow hv hfv src dst
  | cast dst src target =>
    have hlink := moves_linkType (w := .client) s target []
    refine (gives_change (f := fun s => s.linkType target) (quiet_linkType s target)).bind ?_
    exact gives_flow (hlink.valid hv) (hfv.grow hlink.grows) src dst
  | nullConst dst => exact .pure ()
  | textConst dst value => exact gives_instantiateLocal hv hfv dst _
  | classConst dst constant =>
    have hlink := moves_linkType (w := .client) s constant []
    refine (gives_change (f := fun s => s.linkType constant) (quiet_linkType s constant)).bind ?_
    exact gives_instantiateLocal (hlink.valid hv) (hfv.grow hlink.grows) dst _
  | new dst cls => exact gives_instantiateLocal hv hfv dst _
  | newArray dst item length =>
    simp only [transfer, Analysis.transfer]
    cases ExactType.ofDecl? (.array item) with
    | none => exact .pure ()
    | some t => exact gives_instantiateLocal hv hfv dst t
  | newMultiArray dst type lengths => exact gives_allocateArrays hv hfv dst type lengths.length
  | loadField dst instance? field type =>
    obtain ⟨haccess, hat⟩ := moves_accessField (w := .client) hv instance? field []
    have hv₁ := haccess.valid hv
    refine (gives_run (f := fun s => s.accessField instance? field) (quiet_accessField s instance? field)).bind ?_
    exact gives_connectNodes hv₁ (fun a ha => Option.some.inj ha ▸ hv₁.fieldAt_plain hat)
      fun _ hn => (hfv.grow haccess.grows).node hn
  | storeField instance? field src type =>
    obtain ⟨haccess, hat⟩ := moves_accessField (w := .client) hv instance? field []
    have hv₁ := haccess.valid hv
    refine (gives_run (f := fun s => s.accessField instance? field) (quiet_accessField s instance? field)).bind ?_
    exact gives_connectNodes hv₁ (fun _ hn => (hfv.grow haccess.grows).node hn)
      fun a ha => Option.some.inj ha ▸ hv₁.fieldAt_plain hat
  | loadItem dst array type =>
    by_cases ht : type.isReference = true
    · obtain ⟨hpool, -, hn⟩ := moves_itemPool (w := .client) hv type []
      simp only [transfer, Analysis.transfer, ht, if_true]
      refine (gives_itemPool hv type).bind ?_
      apply gives_connectNodes (hpool.valid hv)
      · exact fun a ha => Option.some.inj ha ▸ hn
      · exact fun _ hn => (hfv.grow hpool.grows).node hn
    · simp only [transfer, Analysis.transfer, ht]
      exact .pure ()
  | storeItem array index src type =>
    by_cases ht : type.isReference = true
    · obtain ⟨hpool, -, hn⟩ := moves_itemPool (w := .client) hv type []
      simp only [transfer, Analysis.transfer, ht, if_true]
      refine (gives_itemPool hv type).bind ?_
      apply gives_connectNodes (hpool.valid hv)
      · exact fun _ hn => (hfv.grow hpool.grows).node hn
      · exact fun a ha => Option.some.inj ha ▸ hn
    · simp only [transfer, Analysis.transfer, ht]
      exact .pure ()
  | cloneArray dst array => exact gives_flow hv hfv array dst
  | call dst? instance? callee args binding => exact gives_call hv hf dst? instance? callee args binding hi
  | instanceTest dst src tested => exact gives_change (f := fun s => s.linkType tested) (quiet_linkType s tested)
  | initClass cls => exact gives_change (f := fun s => s.initializeClass cls) (quiet_initializeClass s cls)
  | phi dst sources =>
    refine (gives_forM (fun s' => Moves .client s [] s' []) sources (fun src _ {s'} hmoves => ?_) (.refl s [])).1
    have hfv' := hfv.grow hmoves.grows
    have hv' := hmoves.valid hv
    exact ⟨gives_flow hv' hfv' src dst, hmoves.trans (moves_flow hv' hfv' src dst []).1⟩
  | enterMonitor object => exact gives_linkMonitors hv fun _ hn => hfv.node hn
  | exitMonitor object => exact gives_linkMonitors hv fun _ hn => hfv.node hn
  | jump target => exact .pure ()
  | branch condition thenBlock elseBlock => exact .pure ()
  | ret value? =>
    exact gives_connectNodes hv (fun _ hn => hfv.bind hn) fun _ hn => Option.some.inj hn ▸ hfv.result
  | raise exception =>
    exact gives_connectNodes hv (fun _ hn => hfv.node hn) fun _ hn => Option.some.inj hn ▸ hfv.thrown

/-! ## Blocks -/

theorem gives_transferHandler (hv : s.Valid) (hf : s.FrameValid f) (h : Handler) :
    Gives false (transferHandler f h) s () (s.transferHandler f h) := by
  unfold transferHandler Analysis.transferHandler
  cases h.catches with
  | none =>
    exact gives_connectNodes hv (fun _ hn => Option.some.inj hn ▸ hf.thrown) fun _ hn => hf.bind hn
  | some name =>
    have hlink := moves_linkClass (w := .client) s [] name
    have hf₁ := hf.grow hlink.grows
    refine (gives_change (f := fun s => (s.linkClass name).2) (quiet_linkClass s name)).bind ?_
    exact gives_connectNodes (hlink.valid hv) (fun _ hn => Option.some.inj hn ▸ hf₁.thrown) fun _ hn => hf₁.bind hn

theorem gives_transferBlock (hw : s.Working γ f body) (hγ : ∀ m, .link m ∉ γ) {b : Block} (hb : b ∈ body.blocks) :
    Gives false (transferBlock f b) s () (s.transferBlock f b) := by
  have hinstr : ∀ i ∈ b.instrs, ∀ {s : Analysis}, s.Working γ f body →
      Gives false (transfer f i) s () (s.transfer f i) ∧ (s.transfer f i).Working γ f body := by
    intro i hi s hw
    have hi' : i ∈ body.instrs := List.mem_flatMap.2 ⟨b, hb, hi⟩
    have hmoves := (moves_transfer (w := .client) hw.valid hw.covered hγ hw.framed hi').1
    exact ⟨gives_transfer hw.valid hw.framed hi', hw.moves hmoves⟩
  have hhandler : ∀ h ∈ b.handlers, ∀ {s : Analysis}, s.Working γ f body →
      Gives false (transferHandler f h) s () (s.transferHandler f h) ∧
        (s.transferHandler f h).Working γ f body := by
    intro h _ s hw
    have hfv := hw.framed.valid hw.valid
    exact ⟨gives_transferHandler hw.valid hfv h, hw.moves (moves_transferHandler (w := .client) hw.valid hfv h γ).1⟩
  obtain ⟨hinstrs, hw₁⟩ := gives_forM _ b.instrs hinstr hw
  exact hinstrs.bind (gives_forM _ b.handlers hhandler hw₁).1

/-! ## Methods -/

theorem gives_runBody (hw : s.Working γ f body) (hγ : ∀ m, .link m ∉ γ) :
    Gives false (body.blocks.forM fun b => transferBlock f b) s ()
      (body.blocks.foldl (fun s b => s.transferBlock f b) s) :=
  (gives_forM (fun s' => s'.Working γ f body) body.blocks (fun _ hb {_} hw' =>
    ⟨gives_transferBlock hw' hγ hb, hw'.moves (moves_transferBlock (w := .client) hw' hγ hb).1⟩) hw).1

theorem gives_processBody (hv : s.Valid) (hc : s.Covered γ) (hγ : ∀ m, .link m ∉ γ) {id : Nat} {r : MethodRecord}
    (hr : s.methods[id]? = some r) (hp : r.processed = false) (hw : id ∉ s.worklist)
    (hb : r.definition.body? = some body) :
    Gives false (processBody id body) (s.marked id) () (s.openAndRun id r) := by
  have hvr := hv.methods.record hr
  have hopen : Moves .client s γ (s.opened id r) γ := (Step.openBody hr hp (hvr.unopened hp) hw).moves
  have hv₁ := hopen.valid hv
  have hmarked : (s.marked id).methods[id]? = some { r with processed := true } := getElem?_modify_self hr _
  have hr₁ : (s.opened id r).methods[id]? = some
      { r with processed := true, locals := (s.graph.newNodes r.localCount).1.toArray } := getElem?_modify_self hr _
  have hcount := MethodRecord.localCount_of_body hb
  have hframed : (s.opened id r).Framed (s.openedFrame id r) body := ⟨_, hr₁, rfl, hb, rfl, rfl, rfl⟩
  have hflows : ∀ e ∈ r.params.zip (s.graph.newNodes body.locals).1,
      (s.opened id r).Plain e.1 ∧ (s.opened id r).Plain e.2 := by
    intro e he
    obtain ⟨hparam, hlocal⟩ := List.of_mem_zip he
    obtain ⟨v, hv⟩ := List.getElem?_of_mem hlocal
    refine ⟨hopen.grows.plain (hvr.params _ hparam), (hframed.valid hv₁).node (v := v) ?_⟩
    show (s.graph.newNodes r.localCount).1.toArray[v]? = some e.2
    rw [hcount, List.getElem?_toArray]
    exact hv
  obtain ⟨hconnect, -⟩ := moves_connectAll (w := .client) _ γ hflows
  have hdrain := hconnect.trans (moves_drain (hconnect.valid hv₁) γ)
  obtain ⟨r₂, hr₂, hg⟩ := hdrain.grows.methods id _ hr₁
  have hw₂ : Working _ γ ⟨id, r₂.locals, r₂.result, r₂.thrown⟩ body :=
    ⟨hdrain.valid hv₁, hdrain.covered (hopen.covered hc), r₂, hr₂, hg.processed rfl,
      hg.definition ▸ hb, rfl, rfl, rfl⟩
  have hframe : s.openedFrame id r = ⟨id, r₂.locals, r₂.result, r₂.thrown⟩ := by
    rw [hg.settled rfl, hg.result, hg.thrown]
    rfl
  have hlocals : (s.openedFrame id r).locals.toList = (s.graph.newNodes body.locals).1 := by
    rw [openedFrame, hcount]
  unfold openAndRun processBody
  simp only [hb, Analysis.runBody, hlocals]
  rw [hframe]
  refine (gives_newNodes body.locals).bind ((gives_find hmarked).bind ((gives_note rfl rfl rfl).bind ?_))
  change Gives false _ { s.marked id with
    graph := (s.graph.newNodes body.locals).2
    methods := (s.marked id).methods.modify id fun r =>
      { r with locals := (s.graph.newNodes body.locals).1.toArray } } () _
  rw [opened_of_body hb]
  refine (gives_connectEdges hv₁.graph fun e he => ⟨(hflows e he).1.1, (hflows e he).2.1⟩).bind ?_
  exact (gives_dispatch (hconnect.valid hv₁)).bind ((gives_find hr₂).bind (gives_runBody hw₂ hγ))

theorem gives_processMethod (hv : s.Valid) (hc : s.Covered γ) (hγ : ∀ m, .link m ∉ γ) {id : Nat} {r : MethodRecord}
    (hr : s.methods[id]? = some r) (hp : r.processed = false) (hw : id ∉ s.worklist) :
    Gives false (processMethod id) s () (s.processMethod id) := by
  have hvr := hv.methods.record hr
  have hl := hvr.unopened hp
  have hrun := (moves_openAndRun (w := .client) hv hc hγ hr hp hw).1
  have hmonitors : Gives false (if r.definition.isSynchronized then linkMonitors none else pure ())
      (s.openAndRun id r) () (s.processMethod id) := by
    rw [processMethod_eq hr hp hl]
    split
    · exact gives_linkMonitors (hrun.valid hv) nofun
    · exact .pure ()
  unfold processMethod
  refine (gives_find hr).bind ?_
  rw [hp]
  refine (gives_note (f := fun s => s.marked id) rfl rfl rfl).bind ((gives_find (holder?_eq hvr)).bind ?_)
  cases hb : r.definition.body? with
  | some body => exact (gives_processBody hv hc hγ hr hp hw hb).bind hmonitors
  | none =>
    have heq : s.openAndRun id r = s.marked id := by
      simp only [openAndRun, hb, opened_of_bodiless hr hl hb]
    rw [heq] at hmonitors
    exact hmonitors

end Strict

end TypeFlow
