import TypeFlow.Proofs.Analysis.Leaving

/-!
# Processing by steps

Processing a method opens its body, which gives it its local variables, and
applies its blocks. Afterwards all demands of the body are met, all names in it
are followed, and each instruction has left what it leaves.
-/

namespace TypeFlow

namespace Analysis

variable {w : Actor} {s s' : Analysis} {γ : List Duty} {f : Frame} {body : Body}

/-! ## Blocks -/

theorem moves_transferHandler (hv : s.Valid) (hf : s.FrameValid f) (h : Handler) (γ : List Duty) :
    Moves w s γ (s.transferHandler f h) γ ∧
      (s.transferHandler f h).edges.between (some f.thrown) (h.dst?.bind f.node?) := by
  obtain ⟨s₁, hlink, heq⟩ : ∃ s₁, Moves w s γ s₁ γ ∧
      s.transferHandler f h = s₁.connectNodes (some f.thrown) (h.dst?.bind f.node?) := by
    unfold transferHandler
    cases h.catches with
    | some name => exact ⟨_, moves_linkClass s γ name, rfl⟩
    | none => exact ⟨s, .refl s γ, rfl⟩
  have hf₁ := hf.grow hlink.grows
  obtain ⟨hconnect, hbetween⟩ := moves_connectNodes (w := w) (hlink.valid hv) (some f.thrown)
    (h.dst?.bind f.node?) (fun _ hn => Option.some.inj hn ▸ hf₁.thrown) (fun _ hn => hf₁.bind hn) γ
  rw [heq]
  exact ⟨hlink.trans hconnect, hbetween⟩

structure Working (s : Analysis) (γ : List Duty) (f : Frame) (body : Body) : Prop where
  valid : s.Valid
  covered : s.Covered γ
  framed : s.Framed f body

theorem Working.moves (hw : s.Working γ f body) (h : Moves w s γ s' γ) : s'.Working γ f body :=
  ⟨h.valid hw.valid, h.covered hw.covered, h.grows.framed hw.framed⟩

structure MeetsInstr (s : Analysis) (f : Frame) (i : Instr) : Prop where
  demands : s.Demands s.edges f i
  follows : ∀ x ∈ i.namings f.locals.size, s.Follows x
  leaves : s.Leaves i

structure MeetsHandler (s : Analysis) (f : Frame) (h : Handler) : Prop where
  flows : s.edges.between (some f.thrown) (h.dst?.bind f.node?)
  follows : ∀ x ∈ h.namings, s.Follows x

structure MeetsBlock (s : Analysis) (f : Frame) (b : Block) : Prop where
  instrs : ∀ i ∈ b.instrs, s.MeetsInstr f i
  handlers : ∀ h ∈ b.handlers, s.MeetsHandler f h

theorem Grows.meetsInstr (h : s.Grows s') {i : Instr} (hi : s.MeetsInstr f i) : s'.MeetsInstr f i :=
  ⟨hi.demands.mono h h.edges, fun x hx => h.follows (hi.follows x hx), h.leaves hi.leaves⟩

theorem Grows.meetsHandler (h : s.Grows s') {c : Handler} (hc : s.MeetsHandler f c) : s'.MeetsHandler f c :=
  ⟨hc.flows.mono h.edges, fun x hx => h.follows (hc.follows x hx)⟩

theorem Grows.meetsBlock (h : s.Grows s') {b : Block} (hb : s.MeetsBlock f b) : s'.MeetsBlock f b :=
  ⟨fun i hi => h.meetsInstr (hb.instrs i hi), fun c hc => h.meetsHandler (hb.handlers c hc)⟩

theorem moves_transferBlock (hw : s.Working γ f body) (hγ : ∀ m, .link m ∉ γ) {b : Block} (hb : b ∈ body.blocks) :
    Moves w s γ (s.transferBlock f b) γ ∧ (s.transferBlock f b).MeetsBlock f b := by
  obtain ⟨hinstrs, hmeets⟩ := moves_foldl (w := w) (γ := γ) (fun s i => s.transfer f i) b.instrs
    (I := fun s => s.Working γ f body) (G := fun s i => s.MeetsInstr f i)
    (fun h hw => hw.moves h) (fun h hi => h.grows.meetsInstr hi)
    (fun {s i} hi hw => by
      obtain ⟨hmoves, hdemands⟩ := moves_transfer (w := w) hw.valid hw.covered hγ hw.framed
        (List.mem_flatMap.2 ⟨b, hb, hi⟩)
      have hfv := hw.framed.valid hw.valid
      exact ⟨hmoves, hdemands, fun x hx => follows_transfer hw.valid hfv i hx, leaves_transfer hw.valid hfv i⟩) hw
  obtain ⟨hhandlers, hmeets'⟩ := moves_foldl (w := w) (γ := γ) (fun s h => s.transferHandler f h) b.handlers
    (I := fun s => s.Working γ f body) (G := fun s h => s.MeetsHandler f h)
    (fun h hw => hw.moves h) (fun h hc => h.grows.meetsHandler hc)
    (fun {s c} _ hw => by
      have hfv := hw.framed.valid hw.valid
      obtain ⟨hmoves, hflows⟩ := moves_transferHandler (w := w) hw.valid hfv c γ
      exact ⟨hmoves, hflows, fun x hx => follows_transferHandler hw.valid hfv c hx⟩) (hw.moves hinstrs)
  exact ⟨hinstrs.trans hhandlers, fun i hi => hhandlers.grows.meetsInstr (hmeets i hi), hmeets'⟩

def runBody (s : Analysis) (f : Frame) (params : List NodeId) (body : Body) : Analysis :=
  body.blocks.foldl (fun s b => s.transferBlock f b) (s.connectAll (params.zip f.locals.toList)).drain

theorem moves_runBody (hw : s.Working γ f body) (hγ : ∀ m, .link m ∉ γ) {params : List NodeId}
    (hp : ∀ p ∈ params, s.Plain p) (hl : f.locals.size = body.locals) :
    Moves w s γ (s.runBody f params body) γ ∧
      (s.runBody f params body).Obeys (s.runBody f params body).edges f params body ∧
      (∀ x ∈ body.namings, (s.runBody f params body).Follows x) ∧
      ∀ i ∈ body.instrs, (s.runBody f params body).Leaves i := by
  obtain ⟨hconnect, hflows⟩ := moves_connectAll (w := w) (s := s) (params.zip f.locals.toList) γ fun e he => by
    obtain ⟨hparam, hlocal⟩ := List.of_mem_zip he
    obtain ⟨v, hv⟩ := List.getElem?_of_mem hlocal
    exact ⟨hp _ hparam, (hw.framed.valid hw.valid).node (v := v) (Array.getElem?_toList.symm.trans hv)⟩
  have hparams := hconnect.trans (moves_drain (hconnect.valid hw.valid) γ)
  obtain ⟨hblocks, hall⟩ := moves_foldl (w := w) (γ := γ) (fun s b => s.transferBlock f b) body.blocks
    (I := fun s => s.Working γ f body) (G := fun s b => s.MeetsBlock f b)
    (fun h hw => hw.moves h) (fun h hb => h.grows.meetsBlock hb) (fun hb hw => moves_transferBlock hw hγ hb)
    (hw.moves hparams)
  have hlater := ((moves_drain (w := w) (hconnect.valid hw.valid) γ).trans hblocks).grows
  refine ⟨hparams.trans hblocks, ⟨hl, fun {i p v} hi hv => ?_, fun i hi => ?_, fun h hh => ?_⟩, fun x hx => ?_,
    fun i hi => ?_⟩
  · refine hlater.graph.flows (hflows (p, v) (List.mem_iff_getElem?.2 ⟨i, ?_⟩))
    rw [List.getElem?_zip_eq_some]
    exact ⟨hi, Array.getElem?_toList.trans hv⟩
  · obtain ⟨b, hb, hi⟩ := List.mem_flatMap.1 hi
    exact ((hall b hb).instrs i hi).demands
  · obtain ⟨b, hb, hh⟩ := List.mem_flatMap.1 hh
    exact ((hall b hb).handlers h hh).flows
  · rcases List.mem_append.1 hx with hx | hx
    · obtain ⟨i, hi, hx⟩ := List.mem_flatMap.1 hx
      obtain ⟨b, hb, hi⟩ := List.mem_flatMap.1 hi
      exact ((hall b hb).instrs i hi).follows x (hl ▸ hx)
    · obtain ⟨h, hh, hx⟩ := List.mem_flatMap.1 hx
      obtain ⟨b, hb, hh⟩ := List.mem_flatMap.1 hh
      exact ((hall b hb).handlers h hh).follows x hx
  · obtain ⟨b, hb, hi⟩ := List.mem_flatMap.1 hi
    exact ((hall b hb).instrs i hi).leaves

/-! ## Methods -/

theorem modify_modify {α : Type} (a : Array α) (i : Nat) (g h : α → α) :
    (a.modify i g).modify i h = a.modify i fun x => h (g x) := by
  apply Array.ext_getElem?
  intro j
  simp only [Array.getElem?_modify]
  split
  · rw [Option.map_map]
    rfl
  · rfl

theorem modify_congr {α : Type} {a : Array α} {i : Nat} {g h : α → α} (hgh : ∀ x, a[i]? = some x → g x = h x) :
    a.modify i g = a.modify i h := by
  apply Array.ext_getElem?
  intro j
  simp only [Array.getElem?_modify]
  split
  · next hij =>
    subst hij
    cases hx : a[i]? with
    | none => rfl
    | some x => exact congrArg some (hgh x hx)
  · rfl

def openedFrame (s : Analysis) (id : MethodId) (r : MethodRecord) : Frame :=
  ⟨id, (s.graph.newNodes r.localCount).1.toArray, r.result, r.thrown⟩

def openAndRun (s : Analysis) (id : MethodId) (r : MethodRecord) : Analysis :=
  match r.definition.body? with
  | some body => (s.opened id r).runBody (s.openedFrame id r) r.params body
  | none => s.opened id r

theorem opened_of_body {id : MethodId} {r : MethodRecord} (hb : r.definition.body? = some body) :
    { s.marked id with
      graph := (s.graph.newNodes body.locals).2
      methods := (s.marked id).methods.modify id fun r =>
        { r with locals := (s.graph.newNodes body.locals).1.toArray } } = s.opened id r := by
  simp only [marked, opened, MethodRecord.localCount_of_body hb, modify_modify]

theorem opened_of_bodiless {id : MethodId} {r : MethodRecord} (hr : s.methods[id]? = some r) (hl : r.locals = #[])
    (hb : r.definition.body? = none) : s.marked id = s.opened id r := by
  have hcount : r.localCount = 0 := by
    simp only [MethodRecord.localCount, hb]
    rfl
  have hsame : (s.methods.modify id fun r => { r with processed := true })
      = s.methods.modify id fun r => { r with processed := true, locals := #[] } := by
    refine modify_congr fun x hx => ?_
    obtain rfl : x = r := Option.some.inj (hx.symm.trans hr)
    rw [← hl]
  simp only [marked, opened, hcount, hsame]
  rfl

theorem processMethod_eq {id : MethodId} {r : MethodRecord} (hr : s.methods[id]? = some r)
    (hp : r.processed = false) (hl : r.locals = #[]) :
    s.processMethod id =
      if r.definition.isSynchronized then (s.openAndRun id r).linkMonitors none else s.openAndRun id r := by
  have hbody : (match r.definition.body? with
      | some body => (s.marked id).processBody id r body
      | none => s.marked id) = s.openAndRun id r := by
    unfold openAndRun
    cases hb : r.definition.body? with
    | none => exact opened_of_bodiless hr hl hb
    | some body =>
      simp only [runBody, ← opened_of_body hb, openedFrame, MethodRecord.localCount_of_body hb]
      rfl
  unfold processMethod
  simp only [hr, hp]
  exact congrArg (fun s : Analysis => if r.definition.isSynchronized then s.linkMonitors none else s) hbody

theorem moves_openAndRun (hv : s.Valid) (hc : s.Covered γ) (hγ : ∀ m, .link m ∉ γ) {id : Nat} {r : MethodRecord}
    (hr : s.methods[id]? = some r) (hp : r.processed = false) (hw : id ∉ s.worklist) :
    Moves w s γ (s.openAndRun id r) γ ∧ (s.openAndRun id r).Done (.body id) := by
  have hvr := hv.methods.record hr
  have hopen : Moves w s γ (s.opened id r) γ := (Step.openBody hr hp (hvr.unopened hp) hw).moves
  have hr₁ : (s.opened id r).methods[id]? = some
      { r with processed := true, locals := (s.graph.newNodes r.localCount).1.toArray } :=
    getElem?_modify_self hr _
  unfold openAndRun
  cases hb : r.definition.body? with
  | none => exact ⟨hopen, _, hr₁, rfl, fun body h => nomatch hb.symm.trans h⟩
  | some body =>
    have hframed : (s.opened id r).Framed (s.openedFrame id r) body := ⟨_, hr₁, rfl, hb, rfl, rfl, rfl⟩
    have hcount : (s.openedFrame id r).locals.size = body.locals := by
      simp only [openedFrame, List.size_toArray, FlowGraph.length_newNodes, MethodRecord.localCount_of_body hb]
    obtain ⟨hbody, hobeys, hnamed, hleaves⟩ := moves_runBody (w := w) ⟨hopen.valid hv, hopen.covered hc, hframed⟩ hγ
      (fun p hmem => hopen.grows.plain (hvr.params p hmem)) hcount
    obtain ⟨r₂, hr₂, hg⟩ := hbody.grows.methods id _ hr₁
    refine ⟨hopen.trans hbody, r₂, hr₂, hg.processed rfl, fun body' hb' => ?_⟩
    obtain rfl : body = body' := Option.some.inj ((hg.definition ▸ hb).symm.trans hb')
    rw [hg.settled rfl, hg.result, hg.thrown, hg.params]
    exact ⟨hobeys, hnamed, hleaves⟩

theorem moves_processMethod (hv : s.Valid) (hc : s.Covered γ) (hγ : ∀ m, .link m ∉ γ) {id : Nat} {r : MethodRecord}
    (hr : s.methods[id]? = some r) (hp : r.processed = false) (hw : id ∉ s.worklist) :
    Moves w s γ (s.processMethod id) γ ∧ (s.processMethod id).Done (.body id) := by
  obtain ⟨hrun, hdone⟩ := moves_openAndRun (w := w) hv hc hγ hr hp hw
  rw [processMethod_eq hr hp ((hv.methods.record hr).unopened hp)]
  split
  · have hmonitor := (moves_linkMonitors (w := w) (hrun.valid hv) none nofun γ).1
    exact ⟨hrun.trans hmonitor, hmonitor.grows.done hdone⟩
  · exact ⟨hrun, hdone⟩

end Analysis

end TypeFlow
