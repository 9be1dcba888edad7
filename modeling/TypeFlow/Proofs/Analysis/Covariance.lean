import TypeFlow.Proofs.Analysis.Session

/-!
# Arrays are covariant

An array of references may be used as an array of any other references. Each
pool of references flows into the pool of plain instances and back, and is
tied to it before anyone else has a say, so all of them hold the same types:
what is stored in one array may be loaded from any other.
-/

namespace TypeFlow

/-! ## Keys that carry references -/

theorem ItemKey.carriesReferences_ofType {t : DeclType} (h : t.isReference = true) :
    (ItemKey.ofType t).carriesReferences = true := by
  cases t with
  | object name => rfl
  | array item =>
    unfold ofType carriesReferences
    split <;> simp [DeclType.dims]
  | _ => cases h

theorem ExactType.InnerOf.isReference {inner outer : ExactType} {count : Nat} (h : inner.InnerOf outer count) :
    inner.toDecl.isReference = true := by
  obtain ⟨-, hdims, -⟩ := h
  obtain ⟨k, hk⟩ := Nat.exists_eq_add_of_le' hdims
  simp only [ExactType.toDecl, hk]
  rfl

namespace Analysis

/-! ## Pools -/

variable {s : Analysis}

/-- Nothing is in hand between two requests, so every pool is tied. -/
theorem Sound.pooled (h : s.Sound) {key : ItemKey} {n : NodeId} (hk : s.itemPools.find? key = some n) :
    s.Pooled key := by
  rcases h.covered (.pool key) (Table.mem_keys_of_find? hk) with hq | hγ | hdone
  · exact hq.elim
  · exact absurd hγ List.not_mem_nil
  · exact hdone

theorem Sound.typesAt_pool (h : s.Sound) {key : ItemKey} {n : NodeId} (hk : s.itemPools.find? key = some n)
    (href : key.carriesReferences = true) : ∃ object, s.itemPools.find? .object = some object ∧
      ∀ t, t ∈ s.graph.typesAt n ↔ t ∈ s.graph.typesAt object := by
  by_cases hkey : key = .object
  · exact ⟨n, hkey ▸ hk, fun _ => Iff.rfl⟩
  · obtain ⟨n', object, hn, hobject, hthere, hback⟩ := h.pooled hk hkey href
    obtain rfl := Option.some.inj (hk.symm.trans hn)
    have hflow := edges_imp_contents h.valid.graph
    exact ⟨object, hobject, fun t => ⟨hflow.flows hthere t, hflow.flows hback t⟩⟩

theorem Sound.typesAt_pools (h : s.Sound) {key key' : ItemKey} {n n' : NodeId}
    (hk : s.itemPools.find? key = some n) (hk' : s.itemPools.find? key' = some n')
    (href : key.carriesReferences = true) (href' : key'.carriesReferences = true) (t : ExactType) :
    t ∈ s.graph.typesAt n ↔ t ∈ s.graph.typesAt n' := by
  obtain ⟨object, hobject, hsame⟩ := h.typesAt_pool hk href
  obtain ⟨object', hobject', hsame'⟩ := h.typesAt_pool hk' href'
  obtain rfl := Option.some.inj (hobject.symm.trans hobject')
  exact (hsame t).trans (hsame' t).symm

/-! ## Loads and stores -/

def Executes (s : Analysis) (i : Instr) (v : Local) (n : NodeId) : Prop :=
  ∃ (id : Nat) (r : MethodRecord) (body : Body), s.methods[id]? = some r ∧ r.processed = true ∧
    r.definition.body? = some body ∧ i ∈ body.instrs ∧ r.locals[v]? = some n

def Stores (s : Analysis) (n : NodeId) : Prop :=
  ∃ array index src type, type.isReference = true ∧ s.Executes (.storeItem array index src type) src n

def Loads (s : Analysis) (n : NodeId) : Prop :=
  ∃ dst array type, type.isReference = true ∧ s.Executes (.loadItem dst array type) dst n

/-- Whether a processed body makes arrays of type `inner` inside another array. -/
def Nests (s : Analysis) (inner : ExactType) : Prop :=
  ∃ (id : Nat) (r : MethodRecord) (body : Body) (dst : Local) (type : DeclType)
    (lengths : List Local) (t : ExactType),
    s.methods[id]? = some r ∧ r.processed = true ∧ r.definition.body? = some body ∧
    .newMultiArray dst type lengths ∈ body.instrs ∧ ExactType.ofDecl? type = some t ∧
    inner.InnerOf t lengths.length

/-- A processed body has what it demands, whatever else waits. -/
theorem Sound.obeys_of_processed (h : s.Sound) {id : Nat} {r : MethodRecord} {body : Body}
    (hr : s.methods[id]? = some r) (hp : r.processed = true) (hb : r.definition.body? = some body) :
    s.Obeys s.contents ⟨id, r.locals, r.result, r.thrown⟩ r.params body := by
  have howes : s.Owes (.body id) := (Array.getElem?_eq_some_iff.1 hr).1
  rcases h.covered _ howes with hq | hγ | ⟨r', hr', -, ho⟩
  · obtain ⟨r', hr', hp'⟩ := h.valid.queues.worklist id hq
    obtain rfl := Option.some.inj (hr.symm.trans hr')
    exact nomatch hp.symm.trans hp'
  · exact absurd hγ List.not_mem_nil
  · obtain rfl := Option.some.inj (hr.symm.trans hr')
    exact (ho body hb).1.mono (.refl s) (edges_imp_contents h.valid.graph)

theorem Sound.pool_of_loads (h : s.Sound) {n : NodeId} (hn : s.Loads n) : ∃ key pool,
    s.itemPools.find? key = some pool ∧ key.carriesReferences = true ∧
      ∀ t ∈ s.graph.typesAt pool, t ∈ s.graph.typesAt n := by
  obtain ⟨dst, array, type, href, id, r, body, hr, hp, hb, hi, hv⟩ := hn
  obtain ⟨pool, hpool, hflow⟩ := (h.obeys_of_processed hr hp hb).instrs _ hi href
  exact ⟨_, pool, hpool, ItemKey.carriesReferences_ofType href, hflow pool n rfl hv⟩

theorem Sound.pool_of_stores (h : s.Sound) {n : NodeId} (hn : s.Stores n) : ∃ key pool,
    s.itemPools.find? key = some pool ∧ key.carriesReferences = true ∧
      ∀ t ∈ s.graph.typesAt n, t ∈ s.graph.typesAt pool := by
  obtain ⟨array, index, src, type, href, id, r, body, hr, hp, hb, hi, hv⟩ := hn
  obtain ⟨pool, hpool, hflow⟩ := (h.obeys_of_processed hr hp hb).instrs _ hi href
  exact ⟨_, pool, hpool, ItemKey.carriesReferences_ofType href, hflow n pool hv rfl⟩

theorem Sound.pool_of_nests (h : s.Sound) {inner : ExactType} (hi : s.Nests inner) : ∃ key pool,
    s.itemPools.find? key = some pool ∧ key.carriesReferences = true ∧ inner ∈ s.graph.typesAt pool := by
  obtain ⟨id, r, body, dst, type, lengths, t, hr, hp, hb, hmem, ht, hinner⟩ := hi
  obtain ⟨-, hall⟩ := (h.obeys_of_processed hr hp hb).instrs _ hmem t ht
  obtain ⟨pool, hpool, hholds⟩ := hall inner hinner
  exact ⟨_, pool, hpool, ItemKey.carriesReferences_ofType hinner.isReference,
    (hholds pool rfl).1⟩

/-! ## Covariance -/

/-- All pools of references hold the same types, and whatever processed bodies store or nest in an array of
references is loaded wherever they load from one. -/
structure Covariant (s : Analysis) : Prop where
  pools : ∀ {key key' n n'}, s.itemPools.find? key = some n → s.itemPools.find? key' = some n' →
    key.carriesReferences = true → key'.carriesReferences = true →
      ∀ t, t ∈ s.graph.typesAt n ↔ t ∈ s.graph.typesAt n'
  stores : ∀ {a b}, s.Stores a → s.Loads b → ∀ t ∈ s.graph.typesAt a, t ∈ s.graph.typesAt b
  nests : ∀ {inner b}, s.Nests inner → s.Loads b → inner ∈ s.graph.typesAt b

theorem Sound.covariant (h : s.Sound) : s.Covariant where
  pools := h.typesAt_pools
  stores ha hb t ht := by
    obtain ⟨key, pool, hpool, href, hinto⟩ := h.pool_of_stores ha
    obtain ⟨key', pool', hpool', href', hfrom⟩ := h.pool_of_loads hb
    exact hfrom t ((h.typesAt_pools hpool hpool' href href' t).1 (hinto t ht))
  nests hi hb := by
    obtain ⟨key, pool, hpool, href, hmem⟩ := h.pool_of_nests hi
    obtain ⟨key', pool', hpool', href', hfrom⟩ := h.pool_of_loads hb
    exact hfrom _ ((h.typesAt_pools hpool hpool' href href' _).1 hmem)

/-- Whatever was asked of an analysis, settled or not, its arrays are covariant. -/
theorem covariant_history (w : World) (settings : Settings) (ops : List Op) :
    ((Analysis.new w settings).history ops).Covariant := ((sound_new w settings).history ops).1.covariant

/-! An instance is stored in an array of one class and loaded from an array of arrays of another. -/

def sampleArrays : World where
  classes := [⟨"A", none, [], [], [], [⟨⟨"main", [], .void⟩, [.static], some ⟨4, [⟨[.new 0 "A",
    .newArray 1 (.object "B") 0, .storeItem 1 0 0 (.object "B"),
    .newMultiArray 2 (.array (.array (.object "C"))) [0, 0], .loadItem 3 2 (.array (.object "C"))], []⟩]⟩⟩]⟩]
  nodup := by decide

set_option maxRecDepth 100000 in
example : (((Analysis.new sampleArrays {}).history
    [.command (.entry ⟨"A", ⟨"main", [], .void⟩⟩), .command .settle]).methods[0]?.bind fun r => r.locals[3]?).map
      ((Analysis.new sampleArrays {}).history
        [.command (.entry ⟨"A", ⟨"main", [], .void⟩⟩), .command .settle]).graph.typesAt
    = some [⟨.object "C", 1⟩, .ofClass "A"] := by
  decide +kernel

end Analysis

end TypeFlow
