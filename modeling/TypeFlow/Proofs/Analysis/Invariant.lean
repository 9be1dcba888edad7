import TypeFlow.Proofs.Analysis.Valid

/-!
# Every step keeps an analysis valid

One case for each step. A step that only changes the graph keeps all records;
one that changes records has to show that the new ones are valid.
-/

namespace TypeFlow

namespace Analysis

variable {s s' : Analysis}

/-! ## Linked methods by name -/

theorem exists_of_declarationId? {m : QualifiedMethod} {id : Nat} (h : s.declarationId? m = some id) :
    ∃ r, s.methods[id]? = some r ∧ r.reference = m := by
  obtain ⟨hlt, hp, _⟩ := Array.findIdx?_eq_some_iff_getElem.1 h
  exact ⟨_, Array.getElem?_eq_getElem hlt, of_decide_eq_true hp⟩

theorem reference_ne_of_declarationId? {m : QualifiedMethod} (h : s.declarationId? m = none) {id : Nat}
    {r : MethodRecord} (hr : s.methods[id]? = some r) : r.reference ≠ m := by
  have := Array.findIdx?_eq_none_iff.1 h r (Array.mem_of_getElem? hr)
  exact of_decide_eq_false this

theorem MethodsValid.declarationId? (hv : s.MethodsValid) {id : Nat} {r : MethodRecord}
    (hr : s.methods[id]? = some r) : s.declarationId? r.reference = some id := by
  cases hd : s.declarationId? r.reference with
  | none => exact absurd rfl (reference_ne_of_declarationId? hd hr)
  | some j =>
    obtain ⟨r', hr', href⟩ := exists_of_declarationId? hd
    rw [hv.unique hr' hr href]

/-! ## Changed records -/

theorem MethodsValid.modify (hv : s.MethodsValid) (h : s.Grows s') {id : Nat} {f : MethodRecord → MethodRecord}
    (hm : s'.methods = s.methods.modify id f) (ha : s'.aliases = s.aliases)
    (hf : ∀ r, s.methods[id]? = some r → s'.RecordValid r → s'.RecordValid (f r)) : s'.MethodsValid where
  record := by
    intro i r hr
    rw [hm] at hr
    rcases getElem?_modify_cases hr with ⟨_, hr⟩ | ⟨rfl, r₀, hr₀, rfl⟩
    · exact (hv.record hr).grow h
    · exact hf r₀ hr₀ ((hv.record hr₀).grow h)
  unique := by
    -- a record has the reference of the one at its place before
    have hold : ∀ {i : Nat} {r}, s'.methods[i]? = some r →
        ∃ r₀, s.methods[i]? = some r₀ ∧ r₀.reference = r.reference := by
      intro i r hr
      have hlt : i < s.methods.size := by
        have := (Array.getElem?_eq_some_iff.1 hr).1
        rwa [hm, Array.size_modify] at this
      obtain ⟨r', hr', hg⟩ := h.methods i _ (Array.getElem?_eq_getElem hlt)
      rw [hr] at hr'
      cases hr'
      exact ⟨_, Array.getElem?_eq_getElem hlt, hg.reference.symm⟩
    intro i j r r' hi hj href
    obtain ⟨r₀, hr₀, he⟩ := hold hi
    obtain ⟨r₁, hr₁, he'⟩ := hold hj
    exact hv.unique hr₀ hr₁ (he.trans (href.trans he'.symm))
  named := by
    intro m i hi
    rw [ha] at hi
    obtain ⟨r, hr, hd⟩ := hv.named hi
    obtain ⟨r', hr', hg⟩ := h.methods _ r hr
    exact ⟨r', hr', hg.reference ▸ h.decides hd⟩

theorem MethodsValid.named_insert (hv : s.MethodsValid) (h : s.Grows s') {m : QualifiedMethod} {id : Nat}
    {r : MethodRecord} (hm : s'.methods = s.methods) (ha : s'.aliases = s.aliases.insert m id)
    (hr : s.methods[id]? = some r) (hd : s.hierarchy.Decides (fun c => c.resolveMethod m) (some r.reference)) :
    s'.MethodsValid where
  record hr' := (hv.record (hm ▸ hr')).grow h
  unique hi hj := hv.unique (hm ▸ hi) (hm ▸ hj)
  named hid := by
    rw [ha] at hid
    rcases Table.find?_insert_cases hid with hid | ⟨rfl, rfl⟩
    · obtain ⟨r', hr', hd'⟩ := hv.named hid
      exact ⟨r', hm ▸ hr', h.decides hd'⟩
    · exact ⟨r, hm ▸ hr, h.decides hd⟩

theorem SelectorsValid.modify (hv : s.SelectorsValid) (h : s.Grows s') {id : Nat} {f : Selector → Selector}
    (hs : s'.selectors = s.selectors.modify id f) (hk : s'.selectorKeys = s.selectorKeys)
    (hf : ∀ key sel, s.selectors[id]? = some sel → s'.SelectorValid key id sel → s'.SelectorValid key id (f sel)) :
    s'.SelectorsValid where
  selector := by
    intro key i hi
    rw [hk] at hi
    obtain ⟨sel, hsel, hvs⟩ := hv.selector hi
    rw [hs]
    by_cases hid : id = i
    · subst hid
      exact ⟨f sel, getElem?_modify_self hsel f, hf key sel hsel (hvs.grow h)⟩
    · rw [Array.getElem?_modify, if_neg hid]
      exact ⟨sel, hsel, hvs.grow h⟩
  keyed := by
    intro i sel hsel
    rw [hs] at hsel
    rw [hk]
    rcases getElem?_modify_cases hsel with ⟨_, hsel⟩ | ⟨rfl, sel, hsel, _⟩
    · exact hv.keyed hsel
    · exact hv.keyed hsel
  key hid hid' := hv.key (hk ▸ hid) (hk ▸ hid')

theorem QueuesValid.modify (hv : s.QueuesValid) (h : s.Grows s') {id : Nat} {f : MethodRecord → MethodRecord}
    (hm : s'.methods = s.methods.modify id f) (hd : s'.deferred = s.deferred) (hw : s'.worklist = s.worklist)
    (hf : id ∈ s.worklist → ∀ r, (f r).processed = r.processed) : s'.QueuesValid where
  deferred t ht := h.owes_task (hv.deferred t (hd ▸ ht))
  worklist i hi := by
    rw [hw] at hi
    obtain ⟨r, hr, hp⟩ := hv.worklist i hi
    rw [hm]
    by_cases hid : id = i
    · subst hid
      exact ⟨f r, getElem?_modify_self hr f, (hf hi r).trans hp⟩
    · rw [Array.getElem?_modify, if_neg hid]
      exact ⟨r, hr, hp⟩
  nodup := hw ▸ hv.nodup

/-! ## New records -/

def newRecord (s : Analysis) (m : QualifiedMethod) (d : ClassDef) (f : MethodDef) : MethodRecord :=
  let g := (s.graph.newNodes (m.signature.params.length + 1)).2
  { reference := m
    declaring := d
    definition := f
    params := (s.graph.newNodes (m.signature.params.length + 1)).1
    result := g.nodes.size
    thrown := g.newNode.2.nodes.size }

theorem recordMethod_eq (s : Analysis) (m : QualifiedMethod) (d : ClassDef) (f : MethodDef) :
    s.recordMethod m d f = (s.methods.size,
      { s with
        graph := (s.graph.newNodes (m.signature.params.length + 1)).2.newNode.2.newNode.2
        methods := s.methods.push (s.newRecord m d f)
        worklist := s.worklist ++ [s.methods.size] }) := rfl

theorem recordValid_newRecord (hv : s.NodesValid) {m : QualifiedMethod} {d : ClassDef} {f : MethodDef}
    (hd : s.hierarchy.classes.find? m.owner = some (some d)) (hf : d.method? m.signature = some f) :
    (s.recordMethod m d f).2.RecordValid (s.newRecord m d f) := by
  have hthrown := FlowGraph.size_newNode (s.graph.newNodes (m.signature.params.length + 1)).2
  have hsize : (s.recordMethod m d f).2.graph.nodes.size
      = (s.graph.newNodes (m.signature.params.length + 1)).2.nodes.size + 2 := by
    rw [recordMethod_eq]
    exact (FlowGraph.size_newNode _).trans (congrArg (· + 1) hthrown)
  have hgrows := (s.graph.grows_newNodes (m.signature.params.length + 1)).size
  refine ⟨fun n hn => ?_, FlowGraph.length_newNodes s.graph (m.signature.params.length + 1), ?_, ?_, ?_, hd, hf,
    fun _ => rfl⟩
  · obtain ⟨hle, hlt⟩ := FlowGraph.mem_newNodes s.graph hn
    refine hv.plain_new hle ?_ rfl
    rw [hsize]
    exact Nat.lt_add_right 2 hlt
  · refine hv.plain_new ?_ ?_ rfl
    · exact hgrows
    · rw [hsize]
      exact Nat.lt_add_of_pos_right (by decide)
  · have hresult : (s.newRecord m d f).thrown =
        (s.graph.newNodes (m.signature.params.length + 1)).2.nodes.size + 1 :=
      hthrown
    refine hv.plain_new ?_ ?_ rfl
    · rw [hresult]
      exact Nat.le_succ_of_le hgrows
    · rw [hresult, hsize]
      exact Nat.lt_succ_self _
  · intro v n hn
    simp [newRecord] at hn

theorem valid_recordMethod (hv : s.Valid) {m : QualifiedMethod} {d : ClassDef} {f : MethodDef}
    (hm : s.declarationId? m = none) (hd : s.hierarchy.classes.find? m.owner = some (some d))
    (hf : d.method? m.signature = some f) (h : s.Grows (s.recordMethod m d f).2) :
    (s.recordMethod m d f).2.Valid := by
  have hnew := recordValid_newRecord hv.nodes hd hf
  rw [recordMethod_eq] at h hnew ⊢
  have hold : ∀ {id : Nat} {r}, s.methods[id]? = some r → (s.methods.push (s.newRecord m d f))[id]? = some r := by
    intro id r hr
    have hlt := (Array.getElem?_eq_some_iff.1 hr).1
    exact (Array.getElem?_push.trans (if_neg (Nat.ne_of_lt hlt))).trans hr
  have hlisteners : ∀ n, ((s.graph.newNodes (m.signature.params.length + 1)).2.newNode.2.newNode.2).listeners n
      = s.graph.listeners n := by
    intro n
    rw [FlowGraph.listeners_newNode, FlowGraph.listeners_newNode, FlowGraph.listeners_newNodes]
  refine ⟨hv.hierarchy, ((hv.graph.newNodes _).newNode).newNode, ⟨?record, ?unique, ?named⟩,
    hv.nodes.grow h rfl rfl rfl, hv.selectors.grow h rfl rfl, hv.listeners.same h hlisteners,
    ⟨?deferred, ?worklist, ?nodup⟩⟩
  case record =>
    intro id r hr
    rcases getElem?_push_cases hr with hr | ⟨_, rfl⟩
    · exact (hv.methods.record hr).grow h
    · exact hnew
  case unique =>
    intro i j r r' hi hj href
    rcases getElem?_push_cases hi with hi | ⟨rfl, rfl⟩ <;> rcases getElem?_push_cases hj with hj | ⟨rfl, rfl⟩
    · exact hv.methods.unique hi hj href
    · exact absurd href (reference_ne_of_declarationId? hm hi)
    · exact absurd href.symm (reference_ne_of_declarationId? hm hj)
    · rfl
  case named =>
    intro m' id hid
    obtain ⟨r, hr, hdec⟩ := hv.methods.named hid
    exact ⟨r, hold hr, hdec⟩
  case deferred => exact fun t ht => h.owes_task (hv.queues.deferred t ht)
  case worklist =>
    intro id hid
    rcases List.mem_append.1 hid with hid | hid
    · obtain ⟨r, hr, hp⟩ := hv.queues.worklist id hid
      exact ⟨r, hold hr, hp⟩
    · rw [List.mem_singleton] at hid
      subst hid
      exact ⟨s.newRecord m d f, Array.getElem?_push_size, rfl⟩
  case nodup =>
    refine OrderedSet.nodup_snoc hv.queues.nodup fun hmem => ?_
    obtain ⟨r, hr, _⟩ := hv.queues.worklist _ hmem
    exact absurd (Array.getElem?_eq_some_iff.1 hr).1 (Nat.lt_irrefl _)

/-- A selector under a new key is valid if it is asked for and hears what its key says. -/
theorem selectorsValid_withSelector (hv : s.Valid) {key : SelectorKey} (hk : s.selectorKeys.find? key = none)
    (h : s.Grows s') (hs : s'.selectors = (s.withSelector key).selectors)
    (hks : s'.selectorKeys = (s.withSelector key).selectorKeys)
    (hl : s'.listeners = (s.withSelector key).listeners) (hb : s.InBody fun i => key.declared ∈ i.selects)
    (hh : s'.Hearing { declared := key.declared, filter? := key.filter?, listener := s.listeners.size } key) :
    s'.SelectorsValid := by
  have hlt : ∀ {key' id}, s.selectorKeys.find? key' = some id → id < s.selectors.size := by
    intro key' id hid
    obtain ⟨sel, hsel, _⟩ := hv.selectors.selector hid
    exact (Array.getElem?_eq_some_iff.1 hsel).1
  have hfind : ∀ {key' id}, s'.selectorKeys.find? key' = some id →
      s.selectorKeys.find? key' = some id ∨ key' = key ∧ id = s.selectors.size := by
    intro key' id hid
    rw [hks] at hid
    exact Table.find?_insert_cases hid
  refine ⟨fun {key' id} hid => ?_, fun {id sel} hsel => ?_, fun {k k' id} hid hid' => ?_⟩
  · rcases hfind hid with hid | ⟨rfl, rfl⟩
    · obtain ⟨sel, hsel, hvs⟩ := hv.selectors.selector hid
      refine ⟨sel, ?_, hvs.grow h⟩
      rw [hs]
      exact (Array.getElem?_push.trans (if_neg (Nat.ne_of_lt (hlt hid)))).trans hsel
    · refine ⟨_, by rw [hs]; exact Array.getElem?_push_size, rfl, rfl, ?_, h.inBody hb, hh, ?_, ?_⟩
      · rw [hl]
        exact Array.getElem?_push_size
      · exact fun site hsite => nomatch hsite
      · exact fun m hm => absurd hm (OrderedSet.not_mem_empty m)
  · rw [hs] at hsel
    rw [hks]
    rcases getElem?_push_cases hsel with hsel | ⟨rfl, _⟩
    · obtain ⟨key', hid⟩ := hv.selectors.keyed hsel
      refine ⟨key', ?_⟩
      exact Table.Keeps.insert hk _ key' id hid
    · exact ⟨key, Table.find?_insert_self _ _ _⟩
  · rcases hfind hid with hid | ⟨rfl, rfl⟩ <;> rcases hfind hid' with hid' | ⟨rfl, hsize⟩
    · exact hv.selectors.key hid hid'
    · exact absurd (hsize ▸ hlt hid) (Nat.lt_irrefl _)
    · exact absurd (hlt hid') (Nat.lt_irrefl _)
    · rfl

/-! ## Types put into nodes -/

theorem lt_size_of_mem_pair (hv : s.Valid) {n : Nat} (hn : n < s.graph.nodes.size) :
    ∀ m ∈ [n, root], m < s.graph.nodes.size := by
  intro m hm
  rcases List.mem_cons.1 hm with rfl | hm
  · exact hn
  · exact List.mem_singleton.1 hm ▸ hv.root

theorem valid_withType (hv : s.Valid) (t : ExactType) {nodes : List NodeId}
    (hn : ∀ n ∈ nodes, n < s.graph.nodes.size) :
    (s.withType t nodes).Valid ∧ ∀ n ∈ nodes, t ∈ (s.withType t nodes).graph.typesAt n := by
  have hid := s.graph.type?_intern t
  have hnodes : ∀ n ∈ nodes, n < (s.graph.intern t).2.nodes.size := by
    rw [FlowGraph.nodes_intern]
    exact hn
  obtain ⟨hvalid, hheld⟩ := FlowGraph.valid_addAll (hv.graph.intern t) (FlowGraph.lt_types_of_type? hid) hnodes
  have hgrow := s.grows_withType t nodes
  refine ⟨hv.withGraph hgrow.graph hvalid (hv.listeners.same hgrow fun n => ?_), fun n hmem => ?_⟩
  · exact (FlowGraph.listeners_addAll _ _ _ n).trans (s.graph.listeners_intern t n)
  · exact FlowGraph.mem_typesAt.2 ⟨_, hheld n hmem, (FlowGraph.grows_addAll _ _ _).type? hid⟩

theorem valid_newSelector (hv : s.Valid) {key : SelectorKey} (hk : s.selectorKeys.find? key = none)
    (h : s.Grows s') (hh : s'.hierarchy = s.hierarchy) (hg : s'.graph.Valid)
    (hl : s'.listeners = (s.withSelector key).listeners) (hs : s'.selectors = (s.withSelector key).selectors)
    (hks : s'.selectorKeys = (s.withSelector key).selectorKeys) (hm : s'.methods = s.methods)
    (ha : s'.aliases = s.aliases) (hf : s'.fields = s.fields) (hn : s'.aggregates = s.aggregates)
    (hi : s'.itemPools = s.itemPools) (hb : s.InBody fun i => key.declared ∈ i.selects)
    (hear : s'.Hearing { declared := key.declared, filter? := key.filter?, listener := s.listeners.size } key)
    (hlisten : s'.ListenersValid) (hq : s'.QueuesValid) : s'.Valid :=
  ⟨hh ▸ hv.hierarchy, hg, hv.methods.grow h hm ha, hv.nodes.grow h hf hn hi,
    selectorsValid_withSelector hv hk h hs hks hl hb hear, hlisten, hq⟩

/-! ## Steps -/

variable {w : Actor} {γ γ' : List Duty}

/-- A change of what no record speaks about, the classes and what is known of them apart. -/
theorem Valid.aside (hv : s.Valid) (h : s.Grows s') (hh : s'.hierarchy.Coherent) (hg : s'.graph = s.graph)
    (hm : s'.methods = s.methods) (ha : s'.aliases = s.aliases) (hf : s'.fields = s.fields)
    (hn : s'.aggregates = s.aggregates) (hi : s'.itemPools = s.itemPools) (hs : s'.selectors = s.selectors)
    (hk : s'.selectorKeys = s.selectorKeys) (hd : s'.deferred ⊆ s.deferred)
    (hw : s'.worklist.Sublist s.worklist) : s'.Valid :=
  hv.grow h hh (hg ▸ hv.graph) (hv.listeners.same h fun _ => by rw [hg]) hm ha hf hn hi hs hk hd hw

theorem valid_newField (hv : s.Valid) {f resolved : QualifiedField}
    (hd : s.hierarchy.Decides (fun c => c.resolveField f) (some resolved))
    (hs : s.hierarchy.Decides (fun c => c.resolveField resolved) (some resolved))
    (h : s.Grows { s with
      graph := s.graph.newNode.2
      fields := (s.fields.insert resolved ⟨resolved, s.graph.newNode.1⟩).insert f ⟨resolved, s.graph.newNode.1⟩ }) :
    Valid { s with
      graph := s.graph.newNode.2
      fields := (s.fields.insert resolved ⟨resolved, s.graph.newNode.1⟩).insert f
        ⟨resolved, s.graph.newNode.1⟩ } := by
  refine ⟨hv.hierarchy, hv.graph.newNode, hv.methods.grow h rfl rfl,
    hv.nodes.extend h (fun hid => ?_) Or.inl Or.inl, hv.selectors.grow h rfl rfl,
    hv.listeners.same h fun _ => FlowGraph.listeners_newNode _ _,
      hv.queues.grow h (List.Subset.refl _) (.refl _) rfl⟩
  have hself : ((s.fields.insert resolved ⟨resolved, s.graph.newNode.1⟩).insert f
      ⟨resolved, s.graph.newNode.1⟩).find? resolved = some ⟨resolved, s.graph.newNode.1⟩ := by
    rw [Table.find?_insert, Table.find?_insert_self]
    split <;> rfl
  have hnode : Plain { s with
      graph := s.graph.newNode.2
      fields := (s.fields.insert resolved ⟨resolved, s.graph.newNode.1⟩).insert f ⟨resolved, s.graph.newNode.1⟩ }
      s.graph.newNode.1 :=
    hv.nodes.plain_new (Nat.le_refl _) (FlowGraph.lt_size_newNode s.graph) rfl
  rcases Table.find?_insert_cases hid with hid | ⟨rfl, rfl⟩
  · rcases Table.find?_insert_cases hid with hid | ⟨rfl, rfl⟩
    · exact Or.inl hid
    · exact Or.inr ⟨hnode, hself, hs⟩
  · exact Or.inr ⟨hnode, hself, hd⟩

theorem valid_newPerSite (hv : s.Valid) {caller : Nat} {receiver : Local} {declared : QualifiedMethod}
    {r : MethodRecord} (hk : s.selectorKeys.find? (.perSite caller receiver declared) = none)
    (hp : s.settings.precision = .precise) (hb : s.InBody fun i => declared ∈ i.selects)
    (hr : s.methods[caller]? = some r) (hpr : r.processed = true)
    (h : s.Grows { s.withSelector (.perSite caller receiver declared) with
      graph := match r.locals[receiver]? with
        | some n => s.graph.listen n s.listeners.size
        | none => s.graph }) :
    Valid { s.withSelector (.perSite caller receiver declared) with
      graph := match r.locals[receiver]? with
        | some n => s.graph.listen n s.listeners.size
        | none => s.graph } := by
  refine valid_newSelector hv hk h rfl ?_ rfl rfl rfl rfl rfl rfl rfl rfl hb ⟨hp, r, hr, hpr, ?_⟩
    (hv.listeners.grow h ?_) (hv.queues.grow h (List.Subset.refl _) (.refl _) rfl)
  · dsimp only
    split
    · exact hv.graph.listen
    · exact hv.graph
  · intro n hn
    dsimp only
    rw [hn]
    exact (FlowGraph.mem_listeners_listen ((hv.methods.record hr).locals hn).1).2 (Or.inr ⟨rfl, rfl⟩)
  · intro n l hl
    dsimp only at hl
    split at hl
    · next n' hn' =>
      rcases (FlowGraph.mem_listeners_listen ((hv.methods.record hr).locals hn').1).1 hl with hl | ⟨rfl, rfl⟩
      · exact Or.inl hl
      · refine Or.inr ⟨.selector s.selectors.size, Array.getElem?_push_size, .perSite caller receiver declared,
          ?_, ?_⟩
        · exact Table.find?_insert_self _ _ _
        · exact Option.bind_eq_some_iff.2 ⟨r, hr, hn'⟩
    · exact Or.inl hl

theorem valid_target (hv : s.Valid) {id : Nat} {sel : Selector} {m : QualifiedMethod}
    (hs : s.selectors[id]? = some sel) (hp : s.Picked id sel m)
    (h : s.Grows
      { s with selectors := s.selectors.modify id fun sel => { sel with targets := sel.targets.insert m } }) :
    Valid { s with selectors := s.selectors.modify id fun sel =>
      { sel with targets := sel.targets.insert m } } := by
  have hset : s.selectors.modify id (fun sel => { sel with targets := sel.targets.insert m }) = _ := rfl
  refine ⟨hv.hierarchy, hv.graph, hv.methods.grow h rfl rfl, hv.nodes.grow h rfl rfl rfl,
    hv.selectors.modify h hset.symm rfl fun key sel' hsel' hvs => ?_, hv.listeners.same h fun _ => rfl,
    hv.queues.grow h (List.Subset.refl _) (.refl _) rfl⟩
  obtain rfl : sel' = sel := Option.some.inj (hsel'.symm.trans hs)
  refine { hvs with hearing := ?_, targets := fun m' hm' => ?_ }
  · cases key <;> exact hvs.hearing
  · rcases OrderedSet.mem_insert.1 hm' with hm' | rfl
    · exact hvs.targets m' hm'
    · exact h.picked hp

theorem valid_site (hv : s.Valid) {id : SelectorId} {key : CallKey} {site : CallSite}
    (hn : ∀ n ∈ site.nodes, s.Plain n)
    (h : s.Grows { s with
      methods := s.methods.modify site.caller fun r => r.noteCall key id
      selectors := s.selectors.modify id fun sel => { sel with sites := sel.sites ++ [site] } }) :
    Valid { s with
      methods := s.methods.modify site.caller fun r => r.noteCall key id
      selectors := s.selectors.modify id fun sel => { sel with sites := sel.sites ++ [site] } } := by
  have hset : s.selectors.modify id (fun sel => { sel with sites := sel.sites ++ [site] }) = _ := rfl
  have hcall : s.methods.modify site.caller (fun r => r.noteCall key id) = _ := rfl
  refine ⟨hv.hierarchy, hv.graph, hv.methods.modify h hcall.symm rfl fun r' _ hvr => ?_,
    hv.nodes.grow h rfl rfl rfl, hv.selectors.modify h hset.symm rfl fun selKey sel' _ hvs => ?_,
    hv.listeners.same h fun _ => rfl, hv.queues.modify h hcall.symm rfl rfl fun _ _ => rfl⟩
  · exact { hvr with }
  · refine { hvs with hearing := ?_, sites := fun site' hsite => ?_ }
    · cases selKey <;> exact hvs.hearing
    · rcases List.mem_append.1 hsite with hsite | hsite
      · exact hvs.sites site' hsite
      · rw [List.mem_singleton] at hsite
        subst hsite
        exact hn

theorem valid_opened (hv : s.Valid) {id : Nat} {r : MethodRecord} (hw : id ∉ s.worklist)
    (h : s.Grows (s.opened id r)) : (s.opened id r).Valid := by
  have hset : s.methods.modify id (fun r' =>
    { r' with processed := true, locals := (s.graph.newNodes r.localCount).1.toArray }) = _ := rfl
  refine ⟨hv.hierarchy, hv.graph.newNodes _, hv.methods.modify h hset.symm rfl fun r' hr' hvr => ?_,
    hv.nodes.grow h rfl rfl rfl, hv.selectors.grow h rfl rfl,
    hv.listeners.same h fun _ => FlowGraph.listeners_newNodes _ _ _,
    hv.queues.modify h hset.symm rfl rfl fun hmem => absurd hmem hw⟩
  refine { hvr with locals := fun {v n} hn => ?_, unopened := fun hf => nomatch hf }
  obtain ⟨hle, hlt⟩ := FlowGraph.mem_newNodes s.graph (List.mem_toArray.1 (Array.mem_of_getElem? hn))
  exact hv.nodes.plain_new hle hlt rfl

theorem Step.valid (hstep : Step w s γ s' γ') (hv : s.Valid) : s'.Valid := by
  have h := hstep.grows
  have same : ∀ l : List Task, l ⊆ l := List.Subset.refl
  cases hstep with
  | learn hh => exact hv.aside h (hh.coherent hv.hierarchy) rfl rfl rfl rfl rfl rfl rfl rfl (same _) (.refl _)
  | linkClass name =>
    obtain ⟨hier, c, p, hs, hl⟩ := s.linkClass_frame name
    rw [hs] at h ⊢
    exact hv.aside h (hl.coherent hv.hierarchy) rfl rfl rfl rfl rfl rfl rfl rfl (same _) (.refl _)
  | report p => exact hv.aside h hv.hierarchy rfl rfl rfl rfl rfl rfl rfl rfl (same _) (.refl _)
  | markInitialized name => exact hv.aside h hv.hierarchy rfl rfl rfl rfl rfl rfl rfl rfl (same _) (.refl _)
  | recordMethod hm hd hf => exact valid_recordMethod hv hm hd hf h
  | @aliasMethod m id r hm hr hd =>
    exact ⟨hv.hierarchy, hv.graph, hv.methods.named_insert h rfl rfl hr hd, hv.nodes.grow h rfl rfl rfl,
      hv.selectors.grow h rfl rfl, hv.listeners.same h fun _ => rfl, hv.queues.grow h (same _) (.refl _) rfl⟩
  | @fieldAlias f record hf hr hd =>
    refine ⟨hv.hierarchy, hv.graph, hv.methods.grow h rfl rfl, hv.nodes.extend h (fun hid => ?_) Or.inl Or.inl,
      hv.selectors.grow h rfl rfl, hv.listeners.same h fun _ => rfl, hv.queues.grow h (same _) (.refl _) rfl⟩
    rcases Table.find?_insert_cases hid with hid | ⟨rfl, rfl⟩
    · exact Or.inl hid
    · exact Or.inr ⟨(hv.nodes.field hr).1, h.fields _ _ hr, hd⟩
  | newField hf hr hd hs => exact valid_newField hv hd hs h
  | @aggregate t ht ha =>
    rw [aggregate_of_none ht] at h ⊢
    refine ⟨hv.hierarchy, hv.graph.newNode, hv.methods.grow h rfl rfl,
      hv.nodes.extend h Or.inl (fun hid => ?_) Or.inl, hv.selectors.grow h rfl rfl,
      hv.listeners.same h fun _ => FlowGraph.listeners_newNode _ _,
      hv.queues.push h rfl rfl rfl (Table.find?_insert_self _ _ _)⟩
    rcases Table.find?_insert_cases hid with hid | ⟨rfl, rfl⟩
    · exact Or.inl hid
    · exact Or.inr ⟨FlowGraph.lt_size_newNode _, (not_isRoot_of_none ht).1⟩
  | @pool key hk =>
    rw [poolNode_of_none hk] at h ⊢
    refine ⟨hv.hierarchy, hv.graph.newNode, hv.methods.grow h rfl rfl,
      hv.nodes.extend h Or.inl Or.inl (fun hid => ?_), hv.selectors.grow h rfl rfl,
      hv.listeners.same h fun _ => FlowGraph.listeners_newNode _ _, hv.queues.grow h (same _) (.refl _) rfl⟩
    rcases Table.find?_insert_cases hid with hid | ⟨_, rfl⟩
    · exact Or.inl hid
    · exact Or.inr (hv.nodes.plain_new (Nat.le_refl _) (FlowGraph.lt_size_newNode _) rfl)
  | connect ha hb hk =>
    exact hv.withGraph h.graph (hv.graph.connect hb)
      (hv.listeners.same h fun _ => FlowGraph.listeners_connect _ _ _ _)
  | instantiate hn hk hb => exact (valid_withType hv _ (lt_size_of_mem_pair hv hn)).1
  | gather hi ht hn =>
    exact hv.withGraph h.graph (hv.graph.add (hv.aggregate?_lt hn) (hv.graph.held hi))
      (hv.listeners.same h fun _ => FlowGraph.listeners_add _ _ _ _)
  | newShared hk hp hb =>
    exact valid_newSelector hv hk h rfl hv.graph rfl rfl rfl rfl rfl rfl rfl rfl hb hp
      (hv.listeners.same h fun _ => rfl)
      (hv.queues.push h rfl rfl rfl ⟨_, Table.find?_insert_self _ _ _, rfl⟩)
  | newPerSite hk hp hb hr hpr => exact valid_newPerSite hv hk hp hb hr hpr h
  | @attach declared id sel n hk hs hn =>
    obtain ⟨sel', hsel', hvs⟩ := hv.selectors.selector hk
    obtain rfl : sel' = sel := Option.some.inj (hsel'.symm.trans hs)
    refine hv.withGraph h.graph hv.graph.listen (hv.listeners.grow h fun hl => ?_)
    rcases (FlowGraph.mem_listeners_listen (hv.aggregate?_lt hn)).1 hl with hl | ⟨rfl, rfl⟩
    · exact Or.inl hl
    · exact Or.inr ⟨.selector id, hvs.listener, .shared declared, hk, hn⟩
  | target hs hm hp => exact valid_target hv hs hp h
  | site hs hk hr hpr hn => exact valid_site hv hn h
  | @takeNotice d g hg =>
    refine hv.withGraph h.graph (hv.graph.takeNotice hg).1 (hv.listeners.same h fun n => ?_)
    obtain ⟨rest, -, rfl⟩ := FlowGraph.takeNotice_some hg
    rfl
  | takeTasks =>
    exact hv.aside h hv.hierarchy rfl rfl rfl rfl rfl rfl rfl rfl (List.nil_subset _) (.refl _)
  | @takeMethod id rest hw =>
    refine hv.aside h hv.hierarchy rfl rfl rfl rfl rfl rfl rfl rfl (same _) ?_
    rw [hw]
    exact List.sublist_cons_self _ _
  | openBody hr hp hl hw => exact valid_opened hv hw h
  | fulfil hd => exact hv
  | note ht o => exact hv.aside h hv.hierarchy rfl rfl rfl rfl rfl rfl rfl rfl (same _) (.refl _)
  | entries e hw => exact hv.aside h hv.hierarchy rfl rfl rfl rfl rfl rfl rfl rfl (same _) (.refl _)
  | reseed hw => exact hv.aside h hv.hierarchy rfl rfl rfl rfl rfl rfl rfl rfl (same _) (.refl _)
  | newNode hw =>
    exact hv.withGraph h.graph hv.graph.newNode (hv.listeners.same h fun _ => FlowGraph.listeners_newNode _ _)
  | addType hw hn =>
    refine (valid_withType hv _ fun n hmem => ?_).1
    rw [List.mem_singleton] at hmem
    exact hmem ▸ hn
  | @observe n label hw hn =>
    refine hv.grow h hv.hierarchy hv.graph.listen (hv.listeners.grow h fun hl => ?_) rfl rfl rfl rfl rfl rfl rfl
      (same _) (.refl _)
    rcases (FlowGraph.mem_listeners_listen hn).1 hl with hl | ⟨rfl, rfl⟩
    · exact Or.inl hl
    · exact Or.inr ⟨.observer label, Array.getElem?_push_size, trivial⟩

theorem Moves.valid (h : Moves w s γ s' γ') (hv : s.Valid) : s'.Valid :=
  h.invariant (P := fun s _ => s.Valid) Step.valid hv

end Analysis

end TypeFlow
