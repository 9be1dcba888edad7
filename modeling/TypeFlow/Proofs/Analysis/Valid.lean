import TypeFlow.Proofs.Analysis.Step

/-!
# Valid analyses

What holds of every analysis between two steps: all handles lead somewhere,
every linked member is what its reference resolves to, each listener hears
only its own feed, and every target was picked for a type at the feed of its
selector. The invariant comes in parts, one for each kind of record, and a
part is kept by every growth that leaves its records alone.
-/

namespace TypeFlow

namespace Analysis

structure RecordValid (s : Analysis) (r : MethodRecord) : Prop where
  params : ∀ n ∈ r.params, s.Plain n
  arity : r.params.length = r.reference.signature.params.length + 1
  result : s.Plain r.result
  thrown : s.Plain r.thrown
  locals : ∀ {v n : Nat}, r.locals[v]? = some n → s.Plain n
  declaring : s.hierarchy.classes.find? r.reference.owner = some (some r.declaring)
  definition : r.declaring.method? r.reference.signature = some r.definition
  unopened : r.processed = false → r.locals = #[]

structure MethodsValid (s : Analysis) : Prop where
  record : ∀ {id : Nat} {r}, s.methods[id]? = some r → s.RecordValid r
  unique : ∀ {i j : Nat} {r r'}, s.methods[i]? = some r → s.methods[j]? = some r' →
    r.reference = r'.reference → i = j
  named : ∀ {m} {id : Nat}, s.aliases.find? m = some id → ∃ r, s.methods[id]? = some r ∧
    s.hierarchy.Decides (fun c => c.resolveMethod m) (some r.reference)

structure NodesValid (s : Analysis) : Prop where
  root : s.Plain root
  field : ∀ {f record}, s.fields.find? f = some record → s.Plain record.node ∧
    s.fields.find? record.reference = some record ∧
    s.hierarchy.Decides (fun c => c.resolveField f) (some record.reference)
  aggregate : ∀ {t n}, s.aggregates.find? t = some n → n < s.graph.nodes.size ∧ t.isRoot = false
  itemPool : ∀ {key n}, s.itemPools.find? key = some n → s.Plain n

/-- Whether a key goes with the precision of the settings; a selector for one variable hears it. -/
def Hearing (s : Analysis) (sel : Selector) : SelectorKey → Prop
  | .shared _ => s.settings.precision = .fast
  | .perSite caller receiver _ => s.settings.precision = .precise ∧
      ∃ r, s.methods[caller]? = some r ∧ r.processed = true ∧
        ∀ n, r.locals[receiver]? = some n → sel.listener ∈ s.graph.listeners n

structure SelectorValid (s : Analysis) (key : SelectorKey) (id : SelectorId) (sel : Selector) : Prop where
  declared : sel.declared = key.declared
  filter? : sel.filter? = key.filter?
  listener : s.listeners[sel.listener]? = some (.selector id)
  asked : s.InBody fun i => key.declared ∈ i.selects
  hearing : s.Hearing sel key
  sites : ∀ site ∈ sel.sites, ∀ n ∈ site.nodes, s.Plain n
  targets : ∀ m ∈ sel.targets, s.Picked id sel m

structure SelectorsValid (s : Analysis) : Prop where
  selector : ∀ {key id}, s.selectorKeys.find? key = some id → ∃ sel, s.selectors[id]? = some sel ∧
    s.SelectorValid key id sel
  keyed : ∀ {id : Nat} {sel}, s.selectors[id]? = some sel → ∃ key, s.selectorKeys.find? key = some id
  key : ∀ {key key' id}, s.selectorKeys.find? key = some id → s.selectorKeys.find? key' = some id → key = key'

def Hears (s : Analysis) (n : NodeId) : Listener → Prop
  | .aggregation => n = root
  | .selector id => s.Feeds id n
  | .observer _ => True

structure ListenersValid (s : Analysis) : Prop where
  hears : ∀ {n l : Nat}, l ∈ s.graph.listeners n → ∃ x, s.listeners[l]? = some x ∧ s.Hears n x
  root : aggregationListener ∈ s.graph.listeners root
  aggregation : s.listeners[aggregationListener]? = some .aggregation

structure QueuesValid (s : Analysis) : Prop where
  deferred : ∀ t ∈ s.deferred, s.Owes (.task t)
  worklist : ∀ id ∈ s.worklist, ∃ r, s.methods[id]? = some r ∧ r.processed = false
  nodup : s.worklist.Nodup

structure Valid (s : Analysis) : Prop where
  hierarchy : s.hierarchy.Coherent
  graph : s.graph.Valid
  methods : s.MethodsValid
  nodes : s.NodesValid
  selectors : s.SelectorsValid
  listeners : s.ListenersValid
  queues : s.QueuesValid

/-! ## Growth keeps what is valid -/

section
variable {s s' : Analysis}

theorem Grows.inBody (h : s.Grows s') {p : Instr → Prop} (hp : s.InBody p) : s'.InBody p := by
  obtain ⟨id, r, body, hr, hb, hi⟩ := hp
  obtain ⟨r', hr', hg⟩ := h.methods id r hr
  exact ⟨id, r', body, hr', hg.definition ▸ hb, hi⟩

theorem Grows.feeds (h : s.Grows s') {id : SelectorId} {n : NodeId} (hf : s.Feeds id n) : s'.Feeds id n := by
  obtain ⟨key, hk, hn⟩ := hf
  refine ⟨key, h.selectorKeys _ _ hk, ?_⟩
  cases key with
  | shared declared => exact h.aggregate? hn
  | perSite caller receiver declared =>
    obtain ⟨r, hr, hv⟩ := Option.bind_eq_some_iff.1 hn
    obtain ⟨r', hr', hg⟩ := h.methods _ r hr
    exact Option.bind_eq_some_iff.2 ⟨r', hr', hg.locals hv⟩

theorem Grows.picked (h : s.Grows s') {id : SelectorId} {sel : Selector} {m : QualifiedMethod}
    (hp : s.Picked id sel m) : s'.Picked id sel m := by
  obtain ⟨n, i, t, hf, hi, ht, hd⟩ := hp
  exact ⟨n, i, t, h.feeds hf, h.graph.mem_held hi, h.graph.type? ht, h.decides hd⟩

theorem Grows.hears (h : s.Grows s') {n : NodeId} {x : Listener} (hx : s.Hears n x) : s'.Hears n x := by
  cases x with
  | aggregation => exact hx
  | selector id => exact h.feeds hx
  | observer label => trivial

theorem Grows.hearing (h : s.Grows s') {sel : Selector} {key : SelectorKey} (hk : s.Hearing sel key) :
    s'.Hearing sel key := by
  cases key with
  | shared declared => exact (congrArg _ h.settings).trans hk
  | perSite caller receiver declared =>
    obtain ⟨hp, r, hr, hpr, hl⟩ := hk
    obtain ⟨r', hr', hg⟩ := h.methods _ r hr
    refine ⟨(congrArg _ h.settings).trans hp, r', hr', hg.processed hpr, fun n hn => ?_⟩
    rw [hg.settled hpr] at hn
    exact h.graph.mem_listeners (hl n hn)

theorem Grows.owes_task (h : s.Grows s') {t : Task} (ht : s.Owes (.task t)) : s'.Owes (.task t) := by
  cases t with
  | wire t node => exact h.aggregates _ _ ht
  | attach id owner =>
    obtain ⟨declared, hk, ho⟩ := ht
    exact ⟨declared, h.selectorKeys _ _ hk, ho⟩

theorem RecordValid.grow {r : MethodRecord} (hv : s.RecordValid r) (h : s.Grows s') : s'.RecordValid r where
  params n hn := h.plain (hv.params n hn)
  arity := hv.arity
  result := h.plain hv.result
  thrown := h.plain hv.thrown
  locals hn := h.plain (hv.locals hn)
  declaring := h.hierarchy _ _ hv.declaring
  definition := hv.definition
  unopened := hv.unopened

theorem SelectorValid.grow {key : SelectorKey} {id : SelectorId} {sel : Selector}
    (hv : s.SelectorValid key id sel) (h : s.Grows s') : s'.SelectorValid key id sel where
  declared := hv.declared
  filter? := hv.filter?
  listener := h.listener hv.listener
  asked := h.inBody hv.asked
  hearing := h.hearing hv.hearing
  sites site hs n hn := h.plain (hv.sites site hs n hn)
  targets m hm := h.picked (hv.targets m hm)

theorem MethodsValid.grow (hv : s.MethodsValid) (h : s.Grows s') (hm : s'.methods = s.methods)
    (ha : s'.aliases = s.aliases) : s'.MethodsValid where
  record hr := (hv.record (hm ▸ hr)).grow h
  unique hi hj := hv.unique (hm ▸ hi) (hm ▸ hj)
  named hid := by
    rw [ha] at hid
    obtain ⟨r, hr, hd⟩ := hv.named hid
    exact ⟨r, hm ▸ hr, h.decides hd⟩

theorem NodesValid.plain_new (hv : s.NodesValid) {n : Nat} (hle : s.graph.nodes.size ≤ n)
    (hlt : n < s'.graph.nodes.size) (ha : s'.aggregates = s.aggregates) : s'.Plain n := by
  refine ⟨hlt, fun t ht => ?_⟩
  rw [ha] at ht
  exact absurd (hv.aggregate ht).1 (Nat.not_lt.2 hle)

/-- What is new under a field, a type or a key has to be there. -/
theorem NodesValid.extend (hv : s.NodesValid) (h : s.Grows s')
    (hf : ∀ {f record}, s'.fields.find? f = some record → s.fields.find? f = some record ∨
      s'.Plain record.node ∧ s'.fields.find? record.reference = some record ∧
        s'.hierarchy.Decides (fun c => c.resolveField f) (some record.reference))
    (ha : ∀ {t n}, s'.aggregates.find? t = some n → s.aggregates.find? t = some n ∨
      n < s'.graph.nodes.size ∧ t.isRoot = false)
    (hi : ∀ {key n}, s'.itemPools.find? key = some n → s.itemPools.find? key = some n ∨ s'.Plain n) :
    s'.NodesValid where
  root := h.plain hv.root
  field hr := by
    rcases hf hr with hold | hnew
    · obtain ⟨hn, hself, hd⟩ := hv.field hold
      exact ⟨h.plain hn, h.fields _ _ hself, h.decides hd⟩
    · exact hnew
  aggregate ht := by
    rcases ha ht with hold | hnew
    · exact ⟨h.lt_size (hv.aggregate hold).1, (hv.aggregate hold).2⟩
    · exact hnew
  itemPool hk := by
    rcases hi hk with hold | hnew
    · exact h.plain (hv.itemPool hold)
    · exact hnew

theorem NodesValid.grow (hv : s.NodesValid) (h : s.Grows s') (hf : s'.fields = s.fields)
    (ha : s'.aggregates = s.aggregates) (hi : s'.itemPools = s.itemPools) : s'.NodesValid :=
  hv.extend h (fun hr => Or.inl (hf ▸ hr)) (fun ht => Or.inl (ha ▸ ht)) fun hk => Or.inl (hi ▸ hk)

theorem SelectorsValid.grow (hv : s.SelectorsValid) (h : s.Grows s') (hs : s'.selectors = s.selectors)
    (hk : s'.selectorKeys = s.selectorKeys) : s'.SelectorsValid where
  selector hid := by
    rw [hk] at hid
    obtain ⟨sel, hsel, hvs⟩ := hv.selector hid
    exact ⟨sel, hs ▸ hsel, hvs.grow h⟩
  keyed hsel := by
    rw [hs] at hsel
    exact hk ▸ hv.keyed hsel
  key hid hid' := hv.key (hk ▸ hid) (hk ▸ hid')

theorem ListenersValid.grow (hv : s.ListenersValid) (h : s.Grows s')
    (hnew : ∀ {n l : Nat}, l ∈ s'.graph.listeners n → l ∈ s.graph.listeners n ∨
      ∃ x, s'.listeners[l]? = some x ∧ s'.Hears n x) : s'.ListenersValid where
  hears hl := by
    rcases hnew hl with hold | hx
    · obtain ⟨x, hx, hh⟩ := hv.hears hold
      exact ⟨x, h.listener hx, h.hears hh⟩
    · exact hx
  root := h.graph.mem_listeners hv.root
  aggregation := h.listener hv.aggregation

theorem ListenersValid.same (hv : s.ListenersValid) (h : s.Grows s')
    (hl : ∀ n, s'.graph.listeners n = s.graph.listeners n) : s'.ListenersValid :=
  hv.grow h fun hmem => Or.inl (hl _ ▸ hmem)

theorem QueuesValid.grow (hv : s.QueuesValid) (h : s.Grows s') (hd : s'.deferred ⊆ s.deferred)
    (hw : s'.worklist.Sublist s.worklist) (hm : s'.methods = s.methods) : s'.QueuesValid where
  deferred t ht := h.owes_task (hv.deferred t (hd ht))
  worklist id hid := hm ▸ hv.worklist id (hw.subset hid)
  nodup := hv.nodup.sublist hw

theorem QueuesValid.push (hv : s.QueuesValid) (h : s.Grows s') {t : Task} (hd : s'.deferred = s.deferred ++ [t])
    (hw : s'.worklist = s.worklist) (hm : s'.methods = s.methods) (ht : s'.Owes (.task t)) : s'.QueuesValid where
  deferred t' ht' := by
    rw [hd] at ht'
    rcases List.mem_append.1 ht' with ht' | ht'
    · exact h.owes_task (hv.deferred t' ht')
    · rw [List.mem_singleton] at ht'
      exact ht' ▸ ht
  worklist id hid := hm ▸ hv.worklist id (hw ▸ hid)
  nodup := hw ▸ hv.nodup

/-- A change of the graph and of what no record speaks about. -/
theorem Valid.grow (hv : s.Valid) (h : s.Grows s') (hh : s'.hierarchy.Coherent) (hg : s'.graph.Valid)
    (hl : s'.ListenersValid) (hm : s'.methods = s.methods) (ha : s'.aliases = s.aliases)
    (hf : s'.fields = s.fields) (hn : s'.aggregates = s.aggregates) (hi : s'.itemPools = s.itemPools)
    (hs : s'.selectors = s.selectors) (hk : s'.selectorKeys = s.selectorKeys) (hd : s'.deferred ⊆ s.deferred)
    (hw : s'.worklist.Sublist s.worklist) : s'.Valid :=
  ⟨hh, hg, hv.methods.grow h hm ha, hv.nodes.grow h hf hn hi, hv.selectors.grow h hs hk, hl,
    hv.queues.grow h hd hw hm⟩

theorem Valid.withGraph (hv : s.Valid) {g : FlowGraph} (h : s.graph.Grows g) (hg : g.Valid)
    (hl : Analysis.ListenersValid { s with graph := g }) : Analysis.Valid { s with graph := g } :=
  hv.grow (.withGraph s h) hv.hierarchy hg hl rfl rfl rfl rfl rfl rfl rfl (fun _ h => h) (List.Sublist.refl _)

theorem Valid.root (hv : s.Valid) : Analysis.root < s.graph.nodes.size :=
  FlowGraph.lt_size_of_mem_listeners hv.listeners.root

theorem Valid.aggregate?_lt (hv : s.Valid) {t : DeclType} {n : Nat} (ht : s.aggregate? t = some n) :
    n < s.graph.nodes.size := by
  unfold aggregate? at ht
  split at ht
  · cases ht
    exact hv.root
  · exact (hv.nodes.aggregate ht).1

end

end Analysis

end TypeFlow
