import TypeFlow.Proofs.Strict.Serve

/-!
# Strict flow

The operations of the flow graph give what they give without strict lookups:
every node and selector that they are asked about is there.
-/

namespace TypeFlow

open Analysis

namespace Strict

variable {s s' : Analysis} {γ : List Duty}

/-! ## Edges, types and listeners -/

theorem gives_connect (hv : s.Valid) {n m : Nat} (hn : n < s.graph.nodes.size) (hm : m < s.graph.nodes.size) :
    Gives false (connect n m) s () (s.connect n m) := by
  have hstep : Moves .client s [] { s with graph := s.graph.connect n m } [] :=
    (Step.connect hn hm (Or.inl rfl)).moves
  exact (gives_edge hv.graph hn hm).bind (gives_dispatch (hstep.valid hv))

theorem gives_bring (hv : s.Valid) (t : ExactType) {nodes : List NodeId}
    (hn : ∀ n ∈ nodes, n < s.graph.nodes.size) : Gives false (bring t nodes) s () (s.withType t nodes).drain := by
  have hnodes : ∀ n ∈ nodes, n < (s.graph.intern t).2.nodes.size := by
    rw [FlowGraph.nodes_intern]
    exact hn
  have hi := FlowGraph.lt_types_of_type? (s.graph.type?_intern t)
  refine (gives_run (.aside (s.graph.quiet_intern t) rfl rfl)).bind ?_
  refine (gives_addAll (s := { s with graph := (s.graph.intern t).2 }) (hv.graph.intern t) hi hnodes).bind ?_
  exact gives_dispatch (valid_withType hv t hn).1

theorem gives_addType (hv : s.Valid) {n : Nat} (hn : n < s.graph.nodes.size) (t : ExactType) :
    Gives false (addType n t) s () (s.addType n t) := by
  refine gives_bring hv t fun m hm => ?_
  rw [List.mem_singleton] at hm
  exact hm ▸ hn

theorem gives_instantiate (hv : s.Valid) {n : Nat} (hn : n < s.graph.nodes.size) (t : ExactType) :
    Gives false (instantiate n t) s () (s.instantiate n t) := by
  have hlink := moves_linkElement (w := .client) s t []
  have hv₁ := hlink.valid hv
  rw [instantiate_eq]
  have hnodes := lt_size_of_mem_pair hv₁ (hlink.grows.lt_size hn)
  exact (gives_change (f := fun s => s.linkElement t) (quiet_linkElement s t)).bind (gives_bring hv₁ t hnodes)

theorem gives_listen {n : Nat} (hn : n < s.graph.nodes.size) {l : ListenerId}
    (hv : Valid { s with graph := s.graph.listen n l }) : Gives false (listen n l) s () (s.listen n l) :=
  (gives_attach hn l).bind (gives_dispatch hv)

theorem gives_observe (hv : s.Valid) {n : Nat} (hn : n < s.graph.nodes.size) (label : String) :
    Gives false (observe n label) s () (s.observe n label) := by
  have hobserve : Moves .client s [] { s with
      listeners := s.listeners.push (.observer label)
      graph := s.graph.listen n s.listeners.size } [] := (Step.observe rfl hn).moves
  refine (gives_run (f := fun s => s.register (.observer label)) (.register rfl rfl rfl)).bind ?_
  exact gives_listen (s := { s with listeners := s.listeners.push (.observer label) }) hn (hobserve.valid hv)

/-! ## Supertypes and item pools -/

theorem gives_wireSupertypes (hv : s.Valid) {n : Nat} (hn : n < s.graph.nodes.size) (t : DeclType) :
    Gives false (wireSupertypes t n) s () (s.wireSupertypes t n) := by
  have hconsult := (moves_consult (w := .client) s t []).1
  have hv₁ := hconsult.valid hv
  have hn₁ := hconsult.grows.lt_size hn
  unfold wireSupertypes Analysis.wireSupertypes
  refine (gives_look _).bind ((gives_change (f := fun s => s.consult t) (quiet_consult s t)).bind ?_)
  simp only []
  split
  · exact gives_connect hv₁ hn₁ hv₁.root
  · refine (gives_forM (fun s' => Moves .client (s.consult t) [] s' []) _
      (fun super _ {s'} hmoves => ?_) (.refl _ _)).1
    obtain ⟨hagg, hget⟩ := moves_aggregate (w := .client) (s := s') (t := super) (Or.inl rfl) []
    have hlater := hmoves.trans hagg
    have hv₂ := hlater.valid hv₁
    have hn₂ := hlater.grows.lt_size hn₁
    have htarget := hv₂.aggregate?_lt hget
    constructor
    · exact (gives_run (f := fun s => s.aggregate super) (quiet_aggregate s' super)).bind
        (gives_connect hv₂ hn₂ htarget)
    · exact hlater.trans (moves_connect hv₂ hn₂ htarget (Or.inl rfl) []).1

theorem gives_itemPool (hv : s.Valid) (component : DeclType) :
    Gives false (itemPool component) s (s.itemPool component).1 (s.itemPool component).2 := by
  obtain ⟨hpool, -, hn⟩ := moves_poolNode (w := .client) hv (.ofType component) []
  have hv₁ := hpool.valid hv
  unfold itemPool Analysis.itemPool
  refine (gives_run (f := fun s => s.poolNode (.ofType component)) (quiet_poolNode s _)).bind ?_
  simp only []
  split
  · obtain ⟨hobject, -, hn'⟩ := moves_poolNode (w := .client) hv₁ .object []
    have hv₂ := hobject.valid hv₁
    have hn₂ := hobject.grows.plain hn
    have hconnect := (moves_connectPlain (w := .client) hv₂ hn₂ hn' []).1
    refine (gives_run (f := fun s => s.poolNode .object) (quiet_poolNode _ _)).bind ?_
    refine (gives_connect hv₂ hn₂.1 hn'.1).bind ((gives_connect (hconnect.valid hv₂) ?_ ?_).bind (.pure _))
    · exact hconnect.grows.lt_size hn'.1
    · exact hconnect.grows.lt_size hn₂.1
  · exact .pure _

/-! ## Dynamic calls -/

theorem gives_newSelector (hv : s.Valid) {caller : Nat} {receiver : Local} {declared : QualifiedMethod}
    {r : MethodRecord} (hk : s.selectorKeys.find? (s.selectorKey caller receiver declared) = none)
    (hb : s.InBody fun i => declared ∈ i.selects) (hr : s.methods[caller]? = some r) (hp : r.processed = true) :
    Gives false (newSelector (s.selectorKey caller receiver declared) r.locals[receiver]?) s
      (s.newSelector (s.selectorKey caller receiver declared) declared r.locals[receiver]?).1
      (s.newSelector (s.selectorKey caller receiver declared) declared r.locals[receiver]?).2 := by
  unfold selectorKey at hk ⊢
  unfold newSelector
  refine (gives_look _).bind ((gives_look _).bind ?_)
  refine (gives_change (f := fun s => s.withSelector _) (.register rfl rfl rfl)).bind ?_
  cases hprec : s.settings.precision with
  | fast => exact (gives_note (f := fun s => s.defer _) rfl rfl rfl).bind (.pure _)
  | precise =>
    rw [hprec] at hk
    have hstep := (Step.newPerSite (w := .client) (γ := []) hk hprec hb hr hp).valid hv
    cases hn : r.locals[receiver]? with
    | none => exact .pure _
    | some n =>
      rw [hn] at hstep
      refine (gives_listen (s := s.withSelector (.perSite caller receiver declared)) ?_ hstep).bind (.pure _)
      exact ((hv.methods.record hr).locals hn).1

theorem gives_selectorFor (hv : s.Valid) {receiver : Local} {declared : QualifiedMethod} {site : CallSite}
    {r : MethodRecord} (hb : s.InBody fun i => declared ∈ i.selects) (hr : s.methods[site.caller]? = some r)
    (hp : r.processed = true) (hrec : site.receiver? = r.locals[receiver]?) :
    Gives false (selectorFor receiver declared site) s (s.selectorFor receiver declared site).1
      (s.selectorFor receiver declared site).2 := by
  unfold selectorFor Analysis.selectorFor
  refine (gives_look _).bind ((gives_look _).bind ?_)
  cases hk : s.selectorKeys.find? (s.selectorKey site.caller receiver declared) with
  | some id => exact .pure id
  | none =>
    rw [hrec]
    exact gives_newSelector hv hk hb hr hp

theorem gives_joinAll (hv : s.Valid) {site : CallSite} (hn : ∀ n ∈ site.nodes, s.Plain n)
    (targets : List QualifiedMethod) : Gives false (joinAll site targets) s () (s.joinAll site targets) := by
  refine (gives_forM (fun s' => Moves .client s [] s' []) targets (fun target _ {s'} hmoves => ?_) (.refl s [])).1
  have hv₁ := hmoves.valid hv
  cases hid : s'.methodId? target with
  | none =>
    refine ⟨(gives_look fun s => s.methodId? target).bind ?_, hmoves⟩
    rw [hid]
    exact .pure ()
  | some callee =>
    obtain ⟨r, hr, -⟩ := hv₁.methods.names_of_methodId? hid
    have hn₁ : ∀ n ∈ site.nodes, s'.Plain n := fun n hmem => hmoves.grows.plain (hn n hmem)
    have hconnect := (moves_connectCall (w := .client) hv₁ hr hn₁ []).1
    have hv₂ := hconnect.valid hv₁
    refine ⟨(gives_look fun s => s.methodId? target).bind ?_, (hmoves.trans hconnect).trans (moves_drain hv₂ [])⟩
    rw [hid]
    exact gives_connectCall hv₁ hr hn₁ (gives_dispatch hv₂)

theorem gives_linkDynamicCall (hv : s.Valid) {receiver : Local} {declared : QualifiedMethod} {site : CallSite}
    {r : MethodRecord} (hd : r.Calls receiver declared) (hr : s.methods[site.caller]? = some r)
    (hp : r.processed = true) (hrec : site.receiver? = r.locals[receiver]?) (hn : ∀ n ∈ site.nodes, s.Plain n) :
    Gives false (linkDynamicCall receiver declared site) s () (s.linkDynamicCall receiver declared site) := by
  have hb := InBody.of_calls hr hd
  obtain ⟨hselect, hkey⟩ := moves_selectorFor (w := .client) hv hb hr hp hrec []
  obtain ⟨sel, hsel, -⟩ := (hselect.valid hv).selectors.selector hkey
  obtain ⟨r₁, hr₁, hg₁⟩ := hselect.grows.methods _ r hr
  rw [linkDynamicCall_eq, targetsOf_withSite hsel]
  refine (gives_selectorFor hv hb hr hp hrec).bind ((gives_find hr₁).bind ((gives_find hsel).bind ?_))
  rw [← hselect.grows.selectorKey] at hkey
  have hn₁ : ∀ n ∈ site.nodes, (s.selectorFor receiver declared site).2.Plain n :=
    fun n hmem => hselect.grows.plain (hn n hmem)
  have hstep := (Step.site (w := .client) (γ := []) hsel hkey hr₁ (hg₁.processed hp) hn₁ (hd.grow hg₁)).moves
  refine (gives_note (f := fun s => s.withSite _ ⟨receiver, declared.signature⟩ site) rfl rfl rfl).bind ?_
  exact gives_joinAll (hstep.valid (hselect.valid hv)) (fun n hmem => hstep.grows.plain (hn₁ n hmem)) _

/-! ## Tasks -/

theorem gives_runTask (hv : s.Valid) {t : Task} (ho : s.Owes (.task t)) :
    Gives false (runTask t) s () (s.runTask t) := by
  cases t with
  | wire t n => exact gives_wireSupertypes hv (hv.nodes.aggregate ho).1 t
  | attach id owner =>
    obtain ⟨declared, hk, rfl⟩ := ho
    obtain ⟨sel, hsel, -⟩ := hv.selectors.selector hk
    obtain ⟨hagg, hget⟩ := moves_aggregate (w := .client) (s := s) (t := .object declared.owner) (Or.inl rfl) []
    obtain ⟨sel₁, hsel₁, -⟩ := hagg.grows.selectors id sel hsel
    have hv₁ := hagg.valid hv
    have hattach := (Step.attach (w := .client) (γ := []) (hagg.grows.selectorKeys _ _ hk) hsel₁ hget).valid hv₁
    have heq : s.runTask (.attach id declared.owner)
        = (s.aggregate (.object declared.owner)).2.listen
          (s.aggregate (.object declared.owner)).1 sel₁.listener := by
      simp only [Analysis.runTask, hsel₁]
    rw [heq]
    refine (gives_run (f := fun s => s.aggregate (.object declared.owner)) (quiet_aggregate s _)).bind ?_
    exact (gives_find hsel₁).bind (gives_listen (hv₁.aggregate?_lt hget) hattach)

end Strict

end TypeFlow
