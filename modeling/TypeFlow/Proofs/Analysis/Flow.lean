import TypeFlow.Proofs.Analysis.Notify

/-!
# Flow by steps

The operations of the flow graph as an analysis uses them, each with what it
achieves: edges and types are there afterwards, a task that was run is done,
and a dynamic call is registered with its selector and connected to all
targets, those found before it and those found while it is linked.
-/

namespace TypeFlow

namespace Analysis

variable {w : Actor} {s s' : Analysis} {γ : List Duty}

/-! ## Edges and types -/

theorem moves_connect (hv : s.Valid) {a b : Nat} (ha : a < s.graph.nodes.size) (hb : b < s.graph.nodes.size)
    (hk : w = .client ∨ s.Plain b ∨ s.Rises a b) (γ : List Duty) :
    Moves w s γ (s.connect a b) γ ∧ (s.connect a b).graph.Flows a b := by
  have hstep : Moves w s γ { s with graph := s.graph.connect a b } γ := (Step.connect ha hb hk).moves
  have hdrain := moves_drain (w := w) (hstep.valid hv) γ
  exact ⟨hstep.trans hdrain, hdrain.grows.graph.flows (FlowGraph.flows_connect ha)⟩

theorem moves_connectPlain (hv : s.Valid) {a b : Nat} (ha : s.Plain a) (hb : s.Plain b) (γ : List Duty) :
    Moves w s γ (s.connect a b) γ ∧ (s.connect a b).graph.Flows a b :=
  moves_connect hv ha.1 hb.1 (Or.inr (Or.inl hb)) γ

def linkElement (s : Analysis) (t : ExactType) : Analysis :=
  match t.element.className? with
  | some name => (s.linkClass name).2
  | none => s

theorem instantiate_eq (s : Analysis) (n : NodeId) (t : ExactType) :
    s.instantiate n t = ((s.linkElement t).withType t [n, root]).drain := rfl

theorem moves_linkElement (s : Analysis) (t : ExactType) (γ : List Duty) : Moves w s γ (s.linkElement t) γ := by
  unfold linkElement
  split
  · exact moves_linkClass s γ _
  · exact .refl s γ

theorem mem_keys_linkElement {t : ExactType} {name : ClassName} (ht : t.element.className? = some name) :
    name ∈ (s.linkElement t).classes.keys := by
  unfold linkElement
  rw [ht]
  exact mem_keys_linkClass s name

theorem moves_withType (hv : s.Valid) {n : Nat} {t : ExactType} (hn : s.Plain n)
    (hb : w = .analysis → s.InBody fun i => t ∈ i.brings)
    (hc : ∀ name, t.element.className? = some name → name ∈ s.classes.keys) (γ : List Duty) :
    Moves w s γ (s.withType t [n, root]).drain γ ∧ (s.withType t [n, root]).drain.edges.appears (some n) t := by
  have hstep : Moves w s γ (s.withType t [n, root]) γ := (Step.instantiate hn.1 (Or.inr hn) hb hc).moves
  obtain ⟨hv₁, hmem⟩ := valid_withType hv t (lt_size_of_mem_pair hv hn.1)
  have hdrain := moves_drain (w := w) hv₁ γ
  refine ⟨hstep.trans hdrain, fun m hm => ?_⟩
  cases hm
  have hgrow := hdrain.grows.graph
  exact ⟨hgrow.mem_typesAt (hmem n List.mem_cons_self),
    hgrow.mem_typesAt (hmem root (List.mem_cons_of_mem _ List.mem_cons_self))⟩

theorem moves_instantiate (hv : s.Valid) {n : Nat} {t : ExactType} (hn : s.Plain n)
    (hb : w = .analysis → s.InBody fun i => t ∈ i.brings) (γ : List Duty) :
    Moves w s γ (s.instantiate n t) γ ∧ (s.instantiate n t).edges.appears (some n) t := by
  have hlink := moves_linkElement (w := w) s t γ
  obtain ⟨htype, happ⟩ := moves_withType (w := w) (hlink.valid hv) (hlink.grows.plain hn)
    (fun hw => hlink.grows.inBody (hb hw)) (fun _ => mem_keys_linkElement) γ
  rw [instantiate_eq]
  exact ⟨hlink.trans htype, happ⟩

/-! ## Supertypes -/

theorem moves_consult (s : Analysis) (t : DeclType) (γ : List Duty) :
    Moves w s γ (s.consult t) γ ∧
      (s.consult t).hierarchy.Decides (fun c => directSupertypes c.find? t)
        (directSupertypes s.hierarchy.lookup t) := by
  unfold consult directSupertypes
  cases t.base with
  | object name =>
    simp only []
    by_cases hname : name = objectClass
    · simp only [if_pos hname]
      exact ⟨.refl s γ, Hierarchy.decides_const _ _⟩
    · simp only [if_neg hname, Hierarchy.get]
      have hlearn : Moves w s γ { s with hierarchy := s.hierarchy.remember name } γ :=
        (Step.learn (s.hierarchy.learns_remember name)).moves
      have hfind : ∀ c, (s.hierarchy.remember name).Fits c → c.find? name = s.hierarchy.lookup name :=
        Hierarchy.decides_find? (s.hierarchy.find?_remember_self name)
      by_cases hmissing : (s.hierarchy.lookup name).isNone
      · have hlink := moves_linkClass (w := w) { s with hierarchy := s.hierarchy.remember name } γ name
        simp only [hmissing, if_true]
        exact ⟨hlearn.trans hlink, hlink.grows.decides fun c hc => by simp only [hfind c hc]⟩
      · simp only [hmissing]
        exact ⟨hlearn, fun c hc => by simp only [hfind c hc]⟩
  | _ => exact ⟨.refl s γ, Hierarchy.decides_const _ _⟩

theorem looked_consult (s : Analysis) (t : DeclType) : (s.consult t).Looked t := by
  intro name hb hne
  have hcached := s.hierarchy.find?_remember_self name
  unfold consult
  simp only [hb, if_neg hne, Hierarchy.get]
  by_cases hmissing : (s.hierarchy.lookup name).isNone
  · have hlink := (Step.linkClass (w := .client) { s with hierarchy := s.hierarchy.remember name } [] name).grows
    simp only [hmissing, if_true]
    exact ⟨_, hlink.hierarchy _ _ hcached, fun _ => mem_keys_linkClass _ name⟩
  · simp only [hmissing]
    exact ⟨_, hcached, fun hn => absurd (Option.isNone_iff_eq_none.2 hn) hmissing⟩

theorem directSupertypes_congr {find? find?' : ClassName → Option ClassDef} (h : ∀ n, find?' n = find? n)
    (t : DeclType) : directSupertypes find?' t = directSupertypes find? t := by
  rw [funext h]

theorem moves_wireAll (hv : s.Valid) {t : DeclType} {node : Nat} (ht : s.aggregates.find? t = some node)
    {supers : List DeclType} (hs : s.hierarchy.Decides (fun c => directSupertypes c.find? t) supers)
    (γ : List Duty) :
    Moves w s γ (supers.foldl (fun s super => (s.aggregate super).2.connect node (s.aggregate super).1) s) γ ∧
      ∀ super ∈ supers, ∃ n,
        (supers.foldl (fun s super => (s.aggregate super).2.connect node (s.aggregate super).1) s).aggregate? super
          = some n ∧
        (supers.foldl (fun s super => (s.aggregate super).2.connect node (s.aggregate super).1)
          s).graph.Flows node n := by
  refine moves_foldl _ supers
    (I := fun s => s.Valid ∧ s.aggregates.find? t = some node ∧
      s.hierarchy.Decides (fun c => directSupertypes c.find? t) supers)
    (G := fun s super => ∃ n, s.aggregate? super = some n ∧ s.graph.Flows node n)
    (fun h hi => ?_) (fun h hg => ?_) (fun {s super} hmem hi => ?_) ⟨hv, ht, hs⟩
  · obtain ⟨hv, ht, hs⟩ := hi
    exact ⟨h.valid hv, h.grows.aggregates _ _ ht, h.grows.decides hs⟩
  · obtain ⟨n, hn, hf⟩ := hg
    exact ⟨n, h.grows.aggregate? hn, h.grows.graph.flows hf⟩
  · obtain ⟨hv, ht, hs⟩ := hi
    have hsuper : super ∈ directSupertypes s.hierarchy.lookup t := by
      rw [← hs.view] at hmem
      exact hmem
    obtain ⟨hagg, hget⟩ := moves_aggregate (w := w)
      (Or.inr (Or.inr (Or.inl ⟨t, Table.mem_keys_of_find? ht, hsuper⟩))) γ
    have hv₁ := hagg.valid hv
    have hrises : (s.aggregate super).2.Rises node (s.aggregate super).1 :=
      ⟨t, supers, super, hagg.grows.aggregates _ _ ht, hagg.grows.decides hs, hmem, hget⟩
    obtain ⟨hconnect, hflow⟩ := moves_connect (w := w) hv₁ (hagg.grows.lt_size (hv.nodes.aggregate ht).1)
      (hv₁.aggregate?_lt hget) (Or.inr (Or.inr hrises)) γ
    exact ⟨hagg.trans hconnect, _, hconnect.grows.aggregate? hget, hflow⟩

theorem moves_wireSupertypes (hv : s.Valid) {t : DeclType} {node : NodeId} (ho : s.Owes (.task (.wire t node)))
    (γ : List Duty) :
    Moves w s γ (s.wireSupertypes t node) γ ∧ (s.wireSupertypes t node).Done (.task (.wire t node)) := by
  have hfind : s.aggregates.find? t = some node := ho
  obtain ⟨hconsult, hdec⟩ := moves_consult (w := w) s t γ
  have hlooked := s.looked_consult t
  have hv₁ := hconsult.valid hv
  have hn := hconsult.grows.lt_size (hv.nodes.aggregate hfind).1
  unfold wireSupertypes
  simp only []
  cases hs : directSupertypes s.hierarchy.lookup t with
  | nil =>
    obtain ⟨hconnect, hflow⟩ := moves_connect (w := w) hv₁ hn hv₁.root (Or.inr (Or.inl hv₁.nodes.root)) γ
    rw [hs] at hdec
    exact ⟨hconsult.trans hconnect, [], hconnect.grows.decides hdec, fun _ => hflow, nofun,
      hconnect.grows.looked hlooked⟩
  | cons super supers =>
    rw [hs] at hdec
    obtain ⟨hwire, hall⟩ := moves_wireAll (w := w) hv₁ (hconsult.grows.aggregates _ _ hfind) hdec γ
    exact ⟨hconsult.trans hwire, super :: supers, hwire.grows.decides hdec, fun h => (List.cons_ne_nil _ _ h).elim,
      hall, hwire.grows.looked hlooked⟩

/-! ## Item pools -/

/-- A pool that is asked for, and in hand when it is new. -/
theorem moves_poolNode (hv : s.Valid) (key : ItemKey) (γ : List Duty) :
    Moves w s γ (s.poolNode key).2 (if (s.poolNode key).1.2 then .pool key :: γ else γ) ∧
      (s.poolNode key).2.itemPools.find? key = some (s.poolNode key).1.1 ∧
      (s.poolNode key).2.Plain (s.poolNode key).1.1 := by
  have hstep : Moves w s γ (s.poolNode key).2 (if (s.poolNode key).1.2 then .pool key :: γ else γ) ∧
      (s.poolNode key).2.itemPools.find? key = some (s.poolNode key).1.1 := by
    cases hk : s.itemPools.find? key with
    | some n =>
      rw [poolNode_of_some hk]
      exact ⟨.refl s γ, hk⟩
    | none =>
      have hnew := (Step.pool (w := w) (γ := γ) hk).moves
      rw [poolNode_of_none hk] at hnew ⊢
      exact ⟨hnew, Table.find?_insert_self _ _ _⟩
  exact ⟨hstep.1, hstep.2, (hstep.1.valid hv).nodes.itemPool hstep.2⟩

/-- The pool of plain instances needs no ties. -/
theorem moves_objectPool (hv : s.Valid) (γ : List Duty) :
    Moves w s γ (s.poolNode .object).2 γ ∧
      (s.poolNode .object).2.itemPools.find? .object = some (s.poolNode .object).1.1 ∧
      (s.poolNode .object).2.Plain (s.poolNode .object).1.1 := by
  obtain ⟨hpool, hget, hn⟩ := moves_poolNode (w := w) hv .object γ
  refine ⟨hpool.tail (.fulfil fun d hd => ?_), hget, hn⟩
  split at hd
  · rcases List.mem_cons.1 hd with rfl | hd
    · exact Or.inr fun hkey => absurd rfl hkey
    · exact Or.inl hd
  · exact Or.inl hd

theorem moves_itemPool (hv : s.Valid) (component : DeclType) (γ : List Duty) :
    Moves w s γ (s.itemPool component).2 γ ∧ (s.itemPool component).2.PoolAt component (s.itemPool component).1 ∧
      (s.itemPool component).2.Plain (s.itemPool component).1 := by
  obtain ⟨hpool, hget, hn⟩ := moves_poolNode (w := w) hv (.ofType component) γ
  have hv₁ := hpool.valid hv
  unfold itemPool
  simp only []
  cases hnew : (s.poolNode (.ofType component)).1.2 with
  | false =>
    rw [hnew] at hpool
    exact ⟨hpool, hget, hn⟩
  | true =>
    rw [hnew, if_pos rfl] at hpool
    split
    · obtain ⟨hobject, hget', hn'⟩ := moves_objectPool (w := w) hv₁ (.pool (.ofType component) :: γ)
      have hv₂ := hobject.valid hv₁
      obtain ⟨hc, hthere⟩ := moves_connectPlain (w := w) hv₂ (hobject.grows.plain hn) hn'
        (.pool (.ofType component) :: γ)
      obtain ⟨hc', hback⟩ := moves_connectPlain (w := w) (hc.valid hv₂) (hc.grows.plain hn')
        (hc.grows.plain (hobject.grows.plain hn)) (.pool (.ofType component) :: γ)
      have hties := hc.trans hc'
      have hall := hobject.trans hties
      refine ⟨(hpool.trans hall).tail (.fulfil fun d hd => ?_), hall.grows.itemPools _ _ hget, hall.grows.plain hn⟩
      rcases List.mem_cons.1 hd with rfl | hd
      · exact Or.inr fun _ _ => ⟨_, _, hall.grows.itemPools _ _ hget, hties.grows.itemPools _ _ hget',
          hc'.grows.graph.flows hthere, hback⟩
      · exact Or.inl hd
    · next hties =>
      -- the pool of plain instances, or one of primitive values
      refine ⟨hpool.tail (.fulfil fun d hd => ?_), hget, hn⟩
      rcases List.mem_cons.1 hd with rfl | hd
      · exact Or.inr fun hkey href => absurd (by simp [hkey, href]) hties
      · exact Or.inl hd

/-! ## Dynamic calls -/

theorem moves_newSelector (hv : s.Valid) {caller : Nat} {receiver : Local} {declared : QualifiedMethod}
    {r : MethodRecord} (hk : s.selectorKeys.find? (s.selectorKey caller receiver declared) = none)
    (hb : s.InBody fun i => declared ∈ i.selects) (hr : s.methods[caller]? = some r) (hp : r.processed = true)
    (γ : List Duty) :
    Moves w s γ (s.newSelector (s.selectorKey caller receiver declared) declared r.locals[receiver]?).2 γ ∧
      (s.newSelector (s.selectorKey caller receiver declared) declared r.locals[receiver]?).2.selectorKeys.find?
        (s.selectorKey caller receiver declared)
        = some (s.newSelector (s.selectorKey caller receiver declared) declared r.locals[receiver]?).1 := by
  have hfind : ∀ key, (s.withSelector key).selectorKeys.find? key = some s.selectors.size :=
    fun key => Table.find?_insert_self _ _ _
  unfold selectorKey at hk ⊢
  cases hprec : s.settings.precision with
  | fast =>
    rw [hprec] at hk
    exact ⟨(Step.newShared hk hprec hb).moves, hfind _⟩
  | precise =>
    rw [hprec] at hk
    have hstep := (Step.newPerSite (w := w) (γ := γ) hk hprec hb hr hp).moves
    cases hn : r.locals[receiver]? with
    | none =>
      rw [hn] at hstep
      exact ⟨hstep, hfind _⟩
    | some n =>
      rw [hn] at hstep
      have hdrain := moves_drain (w := w) (hstep.valid hv) γ
      exact ⟨hstep.trans hdrain, hdrain.grows.selectorKeys _ _ (hfind _)⟩

def selectorFor (s : Analysis) (receiver : Local) (declared : QualifiedMethod) (site : CallSite) :
    SelectorId × Analysis :=
  match s.selectorKeys.find? (s.selectorKey site.caller receiver declared) with
  | some id => (id, s)
  | none => s.newSelector (s.selectorKey site.caller receiver declared) declared site.receiver?

theorem moves_selectorFor (hv : s.Valid) {receiver : Local} {declared : QualifiedMethod} {site : CallSite}
    {r : MethodRecord} (hb : s.InBody fun i => declared ∈ i.selects) (hr : s.methods[site.caller]? = some r)
    (hp : r.processed = true) (hrec : site.receiver? = r.locals[receiver]?) (γ : List Duty) :
    Moves w s γ (s.selectorFor receiver declared site).2 γ ∧
      (s.selectorFor receiver declared site).2.selectorKeys.find? (s.selectorKey site.caller receiver declared)
        = some (s.selectorFor receiver declared site).1 := by
  unfold selectorFor
  cases hk : s.selectorKeys.find? (s.selectorKey site.caller receiver declared) with
  | some id => exact ⟨.refl s γ, hk⟩
  | none =>
    rw [hrec]
    exact moves_newSelector hv hk hb hr hp γ

/-- Connects a call to linked targets, with the notices of each served before the next. -/
def joinAll (s : Analysis) (site : CallSite) (targets : List QualifiedMethod) : Analysis :=
  targets.foldl (fun s target =>
    match s.methodId? target with
    | some callee => (s.connectCall site callee).drain
    | none => s) s

theorem moves_joinAll (hv : s.Valid) {site : CallSite} (hn : ∀ n ∈ site.nodes, s.Plain n)
    {targets : List QualifiedMethod} (ht : ∀ m ∈ targets, ∃ r, s.Linked m r) (γ : List Duty) :
    Moves w s γ (s.joinAll site targets) γ ∧ ∀ m ∈ targets, (s.joinAll site targets).Done (.join site m) := by
  refine moves_foldl _ targets
    (I := fun s => s.Valid ∧ (∀ n ∈ site.nodes, s.Plain n) ∧ ∀ m ∈ targets, ∃ r, s.Linked m r)
    (G := fun s m => s.Done (.join site m)) (fun h hi => ?_) (fun h hd => h.grows.done hd)
    (fun {s _} hmem hi => ?_) ⟨hv, hn, ht⟩
  · obtain ⟨hv, hn, ht⟩ := hi
    refine ⟨h.valid hv, fun n hmem => h.grows.plain (hn n hmem), fun m hm => ?_⟩
    obtain ⟨r, hr⟩ := ht m hm
    obtain ⟨r', hr', _⟩ := h.grows.linked hr
    exact ⟨r', hr'⟩
  · obtain ⟨hv, hn, ht⟩ := hi
    obtain ⟨r, rfl, id, hr⟩ := ht _ hmem
    have hid : s.methodId? r.reference = some id := Option.or_eq_some_iff.2 (Or.inl (hv.methods.declarationId? hr))
    obtain ⟨hconnect, hflows⟩ := moves_connectCall (w := w) hv hr hn γ
    have hdrain := moves_drain (w := w) (hconnect.valid hv) γ
    obtain ⟨r', hr', hg⟩ := hconnect.grows.linked ⟨rfl, id, hr⟩
    have hdone : (s.connectCall site id).Done (.join site r.reference) := by
      refine ⟨r', hr', fun e he => ?_⟩
      rw [callEdges_of_grows hg] at he
      exact hflows e he
    simp only [hid]
    exact ⟨hconnect.trans hdrain, hdrain.grows.done hdone⟩

def withSite (s : Analysis) (id : SelectorId) (key : CallKey) (site : CallSite) : Analysis :=
  { s with
    methods := s.methods.modify site.caller fun r => r.noteCall key id
    selectors := s.selectors.modify id fun sel => { sel with sites := sel.sites ++ [site] } }

def targetsOf (s : Analysis) (id : SelectorId) : List QualifiedMethod :=
  match s.selectors[id]? with
  | some sel => sel.targets.toList
  | none => []

theorem linkDynamicCall_eq (s : Analysis) (receiver : Local) (declared : QualifiedMethod) (site : CallSite) :
    s.linkDynamicCall receiver declared site
      = ((s.selectorFor receiver declared site).2.withSite (s.selectorFor receiver declared site).1
          ⟨receiver, declared.signature⟩ site).joinAll site
            (((s.selectorFor receiver declared site).2.withSite (s.selectorFor receiver declared site).1
              ⟨receiver, declared.signature⟩ site).targetsOf (s.selectorFor receiver declared site).1) := rfl

theorem targetsOf_withSite {id : SelectorId} {sel : Selector} (hs : s.selectors[id]? = some sel) (key : CallKey)
    (site : CallSite) : (s.withSite id key site).targetsOf id = sel.targets.toList := by
  have hget : (s.withSite id key site).selectors[id]? = some { sel with sites := sel.sites ++ [site] } :=
    getElem?_modify_self hs _
  unfold targetsOf
  rw [hget]

theorem moves_linkDynamicCall (hv : s.Valid) (hc : s.Covered γ) (hγ : ∀ m, .link m ∉ γ) {receiver : Local}
    {declared : QualifiedMethod} {site : CallSite} {r : MethodRecord} (hd : r.Calls receiver declared)
    (hr : s.methods[site.caller]? = some r) (hp : r.processed = true) (hrec : site.receiver? = r.locals[receiver]?)
    (hn : ∀ n ∈ site.nodes, s.Plain n) :
    Moves w s γ (s.linkDynamicCall receiver declared site) γ ∧
      (s.linkDynamicCall receiver declared site).Registered receiver declared site := by
  obtain ⟨hselect, hkey⟩ := moves_selectorFor (w := w) hv (.of_calls hr hd) hr hp hrec γ
  obtain ⟨sel, hsel, -⟩ := (hselect.valid hv).selectors.selector hkey
  obtain ⟨r₁, hr₁, hg₁⟩ := hselect.grows.methods _ r hr
  rw [linkDynamicCall_eq, targetsOf_withSite hsel]
  generalize s.selectorFor receiver declared site = res at hselect hkey hsel hr₁ ⊢
  obtain ⟨id, s₁⟩ := res
  simp only [] at hselect hkey hsel hr₁ ⊢
  rw [← hselect.grows.selectorKey] at hkey
  have hstep : Moves w s γ (s₁.withSite id ⟨receiver, declared.signature⟩ site)
      (sel.targets.toList.map (fun m => .join site m) ++ γ) :=
    hselect.tail
      (.site hsel hkey hr₁ (hg₁.processed hp) (fun n hmem => hselect.grows.plain (hn n hmem)) (hd.grow hg₁))
  have hsel₂ : (s₁.withSite id ⟨receiver, declared.signature⟩ site).selectors[id]?
      = some { sel with sites := sel.sites ++ [site] } := getElem?_modify_self hsel _
  -- no target waits to be linked, so all of them are
  have hlinked : ∀ m ∈ sel.targets.toList, ∃ r,
      (s₁.withSite id ⟨receiver, declared.signature⟩ site).Linked m r := by
    intro m hm
    rcases hstep.covered hc (.link m) ⟨id, _, hsel₂, hm⟩ with hq | hmem | hdone
    · exact hq.elim
    · rcases List.mem_append.1 hmem with hmem | hmem
      · obtain ⟨_, _, hne⟩ := List.mem_map.1 hmem
        cases hne
      · exact absurd hmem (hγ m)
    · exact hdone
  obtain ⟨hjoin, hjoined⟩ := moves_joinAll (w := w) (hstep.valid hv)
    (fun n hmem => hstep.grows.plain (hn n hmem)) hlinked (sel.targets.toList.map (fun m => .join site m) ++ γ)
  refine ⟨(hstep.trans hjoin).tail (.fulfil fun d hd => ?_), Registered.mono ?_ hjoin.grows⟩
  · rcases List.mem_append.1 hd with hd | hd
    · obtain ⟨m, hm, rfl⟩ := List.mem_map.1 hd
      exact Or.inr (hjoined m hm)
    · exact Or.inl hd
  · refine ⟨id, _, r₁.noteCall ⟨receiver, declared.signature⟩ id, hkey, hsel₂,
      List.mem_append_right _ List.mem_cons_self, getElem?_modify_self hr₁ _, ?_⟩
    rw [MethodRecord.selectorsAt_noteCall, if_pos rfl]
    exact OrderedSet.mem_insert.2 (Or.inr rfl)

/-! ## Tasks -/

theorem moves_runTask (hv : s.Valid) {t : Task} (ho : s.Owes (.task t)) (γ : List Duty) :
    Moves w s γ (s.runTask t) γ ∧ (s.runTask t).Done (.task t) := by
  cases t with
  | wire t node => exact moves_wireSupertypes hv ho γ
  | attach id owner =>
    obtain ⟨declared, hk, rfl⟩ := ho
    obtain ⟨sel, hsel, -⟩ := hv.selectors.selector hk
    obtain ⟨hagg, hget⟩ := moves_aggregate (w := w) (t := .object declared.owner)
      (Or.inr (Or.inr (Or.inr ⟨declared, Table.mem_keys_of_find? hk, rfl⟩))) γ
    obtain ⟨sel₁, hsel₁, hg⟩ := hagg.grows.selectors id sel hsel
    have hkey := hagg.grows.selectorKeys _ _ hk
    have hattach := hagg.tail (.attach hkey hsel₁ hget)
    have hdrain := moves_drain (w := w) (hattach.valid hv) γ
    have heq : s.runTask (.attach id declared.owner)
        = (s.aggregate (.object declared.owner)).2.listen
          (s.aggregate (.object declared.owner)).1 sel₁.listener := by
      simp only [runTask, hsel₁]
    rw [heq]
    refine ⟨hattach.trans hdrain, hdrain.grows.done ⟨sel₁, _, hsel₁, hget, ?_⟩⟩
    exact (FlowGraph.mem_listeners_listen ((hagg.valid hv).aggregate?_lt hget)).2 (Or.inr ⟨rfl, rfl⟩)

end Analysis

end TypeFlow
