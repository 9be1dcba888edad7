import TypeFlow.Proofs.Solution.Notify

/-!
# Grounded extensions

Item pools, the connections of aggregates and dynamic calls. A pool that is
new is in hand until it is connected; the connections of an aggregate are left
to a task.
-/

namespace TypeFlow

namespace Analysis

variable {w : World} {o : Settings} {K : Fact → Prop} {Γ Γ' : List Fact} {s s' : Analysis} {L : NodeId → Slot}

/-! ## Item pools -/

theorem Grounded.newPool (h : Grounded w o K Γ s) {k : ItemKey}
    (hk : s.itemPools.find? k = none) (hK : K (.pool k)) :
    Brings w o K (.pool k :: Γ) [.pool k] s (s.poolNode k).2 := by
  have hstep : Step .client s [] (s.poolNode k).2 [.pool k] := .pool hk
  rw [poolNode_of_none hk] at hstep ⊢
  have hleads := Leads.of_grows hstep.grows
  obtain ⟨L, hL⟩ := h.labelled
  have hL' := hL.withNode (x := .pool k) h.valid hstep.grows rfl rfl rfl (Table.find?_insert_self _ _ _)
    fun {n y} hy => by
      cases y with
      | pool j => exact (Table.find?_insert_cases hy).imp_right fun ⟨hj, hn⟩ => ⟨hn, congrArg Slot.pool hj⟩
      | _ => exact Or.inl hy
  refine ⟨h.advance hstep hleads rfl { h.sourced with pools := fun hj => ?_ } (fun φ hne hφ => ?_) ?_ hL', hleads,
    fun φ hφ => ?_⟩
  · rcases Table.mem_keys_insert_cases hj with hj | rfl
    · exact h.sourced.pools hj
    · exact hK
  · cases φ with
    | pool j =>
      refine (Table.mem_keys_insert_cases hφ).imp_right fun he => Or.inl ?_
      rw [he]
      exact List.mem_cons_self
    | holds | flow | problem | calls | serves | target => exact absurd rfl hne
    | _ => exact Or.inl hφ
  · exact fun φ hφ => hφ.grow hstep.grows (List.Subset.refl _) (List.Subset.refl _) (List.subset_cons_self _ _)
  · rw [List.mem_singleton.1 hφ]
    exact Table.mem_keys_of_find? (Table.find?_insert_self _ _ _)

/-- A pool that is asked for, and in hand when it is new. -/
theorem Grounded.poolNode (h : Grounded w o K Γ s) {k : ItemKey} (hK : K (.pool k)) :
    Brings w o K (if (s.poolNode k).1.2 then .pool k :: Γ else Γ) [.pool k] s (s.poolNode k).2 ∧
      (s.poolNode k).2.StandsFor (s.poolNode k).1.1 (.pool k) := by
  cases hk : s.itemPools.find? k with
  | some n =>
    rw [poolNode_of_some hk]
    refine ⟨.of_has h fun φ hφ => ?_, hk⟩
    rw [List.mem_singleton.1 hφ]
    exact Table.mem_keys_of_find? hk
  | none =>
    have hnew := h.newPool hk hK
    rw [poolNode_of_none hk] at hnew ⊢
    exact ⟨hnew, Table.find?_insert_self _ _ _⟩

theorem Grounded.objectPool (h : Grounded w o K Γ s) (hK : K (.pool .object)) :
    Brings w o K Γ [.pool .object] s (s.poolNode .object).2 ∧
      (s.poolNode .object).2.StandsFor (s.poolNode .object).1.1 (.pool .object) := by
  obtain ⟨hpool, hslot⟩ := h.poolNode hK
  refine ⟨⟨?_, hpool.leads, hpool.has⟩, hslot⟩
  have hgrounded := hpool.grounded
  split at hgrounded
  · exact hgrounded.release fun ψ hψ => absurd hψ (by simp [Catalog.consequences, Fact.pooling])
  · exact hgrounded

theorem Grounded.itemPool (h : Grounded w o K Γ s) (hK : w.catalog.Closed o K) {t : DeclType}
    (ht : K (.pool (.ofType t))) : Brings w o K Γ [.pool (.ofType t)] s (s.itemPool t).2 ∧
      (s.itemPool t).2.StandsFor (s.itemPool t).1 (.pool (.ofType t)) := by
  obtain ⟨hpool, hslot⟩ := h.poolNode ht
  have hfollows : ∀ ψ ∈ Fact.pooling (.ofType t), K ψ := fun ψ hψ => hK.follows ht hψ
  unfold Analysis.itemPool
  simp only []
  cases hnew : (s.poolNode (.ofType t)).1.2 with
  | false =>
    rw [hnew] at hpool
    exact ⟨hpool, hslot⟩
  | true =>
    rw [hnew] at hpool
    split
    · next hc =>
      have hpooling : Fact.pooling (.ofType t) = [.pool .object, .flow (.pool (.ofType t)) (.pool .object),
          .flow (.pool .object) (.pool (.ofType t))] := by
        unfold Fact.pooling
        rw [if_pos (by simpa using hc)]
      rw [hpooling] at hfollows
      obtain ⟨hobject, hslot'⟩ := hpool.grounded.objectPool (hfollows _ (by simp))
      have hthere := hobject.grounded.connect hK (hobject.leads.grows.standsFor hslot) hslot' (hfollows _ (by simp))
      have hback := hthere.grounded.connect hK (hthere.leads.grows.standsFor hslot')
        (hthere.leads.grows.standsFor (hobject.leads.grows.standsFor hslot)) (hfollows _ (by simp))
      have hall := hobject.append (hthere.append hback)
      have hboth := hpool.before hall
      refine ⟨⟨hboth.grounded.release fun ψ hψ => hall.has ψ ?_, hboth.leads, hboth.has⟩,
        hall.leads.grows.standsFor hslot⟩
      rw [Catalog.consequences, hpooling] at hψ
      exact hψ
    · next hc =>
      refine ⟨⟨hpool.grounded.release fun ψ hψ => ?_, hpool.leads, hpool.has⟩, hslot⟩
      rw [Catalog.consequences, Fact.pooling, if_neg (by simpa using hc)] at hψ
      cases hψ

/-! ## Aggregates and their supertypes -/

theorem Grounded.consult (h : Grounded w o K Γ s) (hK : w.catalog.Closed o K) {t : DeclType}
    (ht : ∀ φ ∈ w.catalog.consulting t, K φ) : Brings w o K Γ (w.catalog.consulting t) s (s.consult t) := by
  unfold Analysis.consult Catalog.consulting at *
  cases hb : t.base with
  | object n =>
    rw [hb] at ht
    simp only [] at ht ⊢
    split
    · exact .refl h
    · next hn =>
      rw [if_neg hn] at ht
      have hlearn := h.learn (s.hierarchy.learns_remember n)
      have hlookup : s.hierarchy.lookup n = w.catalog.find? n := h.shows.lookup n
      simp only [Hierarchy.get, hlookup]
      split
      · next hmissing =>
        rw [if_pos hmissing] at ht
        exact .after hlearn.leads (hlearn.grounded.linkClass hK (ht _ List.mem_cons_self)).1
      · exact hlearn
  | _ => exact .refl h

theorem Grounded.wireSupertypes (h : Grounded w o K Γ s) (hK : w.catalog.Closed o K) {t : DeclType} {node : Nat}
    (hn : s.StandsFor node (.aggregate t)) (ht : ∀ φ ∈ w.catalog.wiring t, K φ) :
    Brings w o K Γ (w.catalog.wiring t) s (s.wireSupertypes t node) := by
  have hsupers : directSupertypes s.hierarchy.lookup t = directSupertypes w.catalog.find? t :=
    directSupertypes_congr h.shows.lookup t
  have hconsult := h.consult hK fun φ hφ => ht φ (List.mem_append_left _ hφ)
  have hnode := hconsult.leads.grows.standsFor hn
  unfold Analysis.wireSupertypes Catalog.wiring at *
  simp only [hsupers] at ht ⊢
  refine hconsult.append ?_
  have hrest := fun φ hφ => ht φ (List.mem_append_right _ hφ)
  split
  · next hempty =>
    rw [if_pos hempty] at hrest
    exact hconsult.grounded.connect hK hnode rfl (hrest _ List.mem_cons_self)
  · next hsome =>
    rw [if_neg hsome] at hrest
    refine Brings.foldl (P := fun s => s.StandsFor node (.aggregate t)) (fun hl hx => hl.grows.standsFor hx) _
      hconsult.grounded hnode fun {s super} hmem h hnode => ?_
    have hsuper : ∀ φ ∈ Fact.gathering super ++ [.flow (.aggregate t) (.ofAggregate super)], K φ :=
      fun φ hφ => hrest φ (List.mem_flatMap.2 ⟨super, hmem, hφ⟩)
    obtain ⟨hagg, hslot⟩ := h.aggregate fun φ hφ => hsuper φ (List.mem_append_left _ hφ)
    exact hagg.append (hagg.grounded.connect hK (hagg.leads.grows.standsFor hnode) hslot
      (hsuper _ (List.mem_append_right _ List.mem_cons_self)))

/-! ## Selectors -/

theorem answers_withSelector {key : SelectorKey} {id : SelectorId} {κ : Chooser}
    (h : (s.withSelector key).Answers id κ) : s.Answers id κ ∨ id = s.selectors.size ∧ s.Chosen key κ := by
  obtain ⟨key', hk, hκ⟩ := h
  rcases Table.find?_insert_cases hk with hk | ⟨rfl, rfl⟩
  · exact Or.inl ⟨key', hk, hκ⟩
  · exact Or.inr ⟨rfl, hκ⟩

theorem Valid.answers_lt (hv : s.Valid) {id : Nat} {κ : Chooser} (hκ : s.Answers id κ) : id < s.selectors.size := by
  obtain ⟨key, hk, -⟩ := hκ
  obtain ⟨sel, hs, -⟩ := hv.selectors.selector hk
  exact (Array.getElem?_eq_some_iff.1 hs).1

theorem Sourced.withSelector (h : s.Sourced w K) (hv : s.Valid) {key : SelectorKey}
    (hK : ∀ κ, s.Chosen key κ → ∃ σ, K (.serves κ σ)) : (s.withSelector key).Sourced w K :=
  { h with
    selectors := by
      intro id sel κ hκ hs
      rcases getElem?_push_cases hs with hs | ⟨rfl, rfl⟩
      · rcases answers_withSelector hκ with hκ | ⟨rfl, -⟩
        · exact h.selectors hκ hs
        · exact absurd (Array.getElem?_eq_some_iff.1 hs).1 (Nat.lt_irrefl _)
      · rcases answers_withSelector hκ with hκ | ⟨-, hκ⟩
        · exact absurd (hv.answers_lt hκ) (Nat.lt_irrefl _)
        · exact ⟨hK κ hκ, fun m hm => absurd hm (OrderedSet.not_mem_empty m)⟩
    noted := by
      intro id r key' k hr hk
      have := h.noted hr hk
      simp only [Analysis.withSelector, Array.size_push]
      omega
    calls := by
      intro id r key' k κ hr hk hκ
      rcases answers_withSelector hκ with hκ | ⟨rfl, -⟩
      · exact h.calls hr hk hκ
      · exact absurd (h.noted hr hk) (Nat.lt_irrefl _) }

theorem Labelled.withSelector (hL : s.Labelled K L) (key : SelectorKey) :
    (s.withSelector key).Labelled K L :=
  { hL with
    serves := by
      intro id sel κ site hκ hs hsite
      rcases getElem?_push_cases hs with hs | ⟨rfl, rfl⟩
      · rcases answers_withSelector hκ with hκ | ⟨rfl, -⟩
        · exact hL.serves hκ hs hsite
        · exact absurd (Array.getElem?_eq_some_iff.1 hs).1 (Nat.lt_irrefl _)
      · cases hsite }

theorem Grounded.newShared (h : Grounded w o K Γ s) {declared : QualifiedMethod} {σ : SlotSite}
    (hk : s.selectorKeys.find? (.shared declared) = none) (hp : s.settings.precision = .fast)
    (hb : s.InBody fun i => declared ∈ i.selects) (hK : K (.serves ⟨declared, none⟩ σ)) :
    Brings w o K Γ [] s ((s.withSelector (.shared declared)).defer (.attach s.selectors.size declared.owner)) := by
  have hstep : Step .client s []
      ((s.withSelector (.shared declared)).defer (.attach s.selectors.size declared.owner)) [] :=
    .newShared hk hp hb
  have hleads := Leads.of_grows hstep.grows
  have hsourced : (s.withSelector (.shared declared)).Sourced w K := by
    refine h.sourced.withSelector h.valid fun κ hκ => ⟨σ, ?_⟩
    cases hκ
    exact hK
  obtain ⟨L, hL⟩ := h.labelled
  refine .of_leads (h.aside hstep hleads rfl { hsourced with } rfl (fun hr => hr) rfl rfl rfl rfl (fun φ hφ => ?_)
    ⟨L, { hL.withSelector (.shared declared) with }⟩) hleads
  exact hφ.grow hstep.grows (List.Subset.refl _) (List.subset_append_left _ _) (List.Subset.refl _)

theorem Grounded.newPerSite (h : Grounded w o K Γ s) {caller : Nat} {receiver : Local} {declared : QualifiedMethod}
    {r : MethodRecord} {σ : SlotSite} (hk : s.selectorKeys.find? (.perSite caller receiver declared) = none)
    (hp : s.settings.precision = .precise) (hb : s.InBody fun i => declared ∈ i.selects)
    (hr : s.methods[caller]? = some r) (hpr : r.processed = true)
    (hK : K (.serves ⟨declared, some (r.reference, receiver)⟩ σ)) :
    Brings w o K Γ [] s { s.withSelector (.perSite caller receiver declared) with
      graph := match r.locals[receiver]? with
        | some n => s.graph.listen n s.listeners.size
        | none => s.graph } := by
  have hstep : Step .client s [] { s.withSelector (.perSite caller receiver declared) with
      graph := match r.locals[receiver]? with
        | some n => s.graph.listen n s.listeners.size
        | none => s.graph } [] := .newPerSite hk hp hb hr hpr
  have hleads := Leads.of_grows hstep.grows
  have hsourced : (s.withSelector (.perSite caller receiver declared)).Sourced w K := by
    refine h.sourced.withSelector h.valid fun κ hκ => ⟨σ, ?_⟩
    obtain ⟨r', hr', rfl⟩ := hκ
    obtain rfl := Option.some.inj (hr.symm.trans hr')
    exact hK
  obtain ⟨L, hL⟩ := h.labelled
  have hgraph : ∀ g, g = (match r.locals[receiver]? with
      | some n => s.graph.listen n s.listeners.size
      | none => s.graph) → (∀ n, g.typesAt n = s.graph.typesAt n) ∧ (∀ n, g.out n = s.graph.out n) ∧
        g.nodes.size = s.graph.nodes.size := by
    rintro g rfl
    split
    · exact ⟨fun n => FlowGraph.typesAt_congr (FlowGraph.held_listen _) FlowGraph.types_listen,
        fun n => FlowGraph.out_listen _, FlowGraph.size_listen⟩
    · exact ⟨fun _ => rfl, fun _ => rfl, rfl⟩
  obtain ⟨htypes, hout, hsize⟩ := hgraph _ rfl
  exact .of_leads (h.aside hstep hleads rfl { hsourced with } rfl (fun hr => hr) rfl rfl rfl rfl
    (fun φ hφ => hφ.same hstep.grows rfl rfl)
    ⟨L, { hL.withSelector (.perSite caller receiver declared) with
      slot := fun hn => hL.slot (lt_of_lt_of_eq hn hsize)
      holds := fun ht => hL.holds (htypes _ ▸ ht)
      flows := fun hb => hL.flows (hout _ ▸ hb) }⟩) hleads

theorem Grounded.newSelector (h : Grounded w o K Γ s) (hK : w.catalog.Closed o K) {caller : Nat} {receiver : Local}
    {declared : QualifiedMethod} {r : MethodRecord} {σ : SlotSite}
    (hk : s.selectorKeys.find? (s.selectorKey caller receiver declared) = none)
    (hb : s.InBody fun i => declared ∈ i.selects) (hr : s.methods[caller]? = some r) (hp : r.processed = true)
    (hσ : K (.serves (.of o.precision r.reference receiver declared) σ)) :
    Brings w o K Γ [] s
      (s.newSelector (s.selectorKey caller receiver declared) declared r.locals[receiver]?).2 := by
  rw [← h.settings] at hσ
  unfold selectorKey at hk ⊢
  cases hprec : s.settings.precision with
  | fast =>
    rw [hprec] at hk hσ
    exact h.newShared hk hprec hb hσ
  | precise =>
    rw [hprec] at hk hσ
    have hnew := h.newPerSite hk hprec hb hr hp hσ
    cases hn : r.locals[receiver]? with
    | none =>
      rw [hn] at hnew
      exact hnew
    | some n =>
      rw [hn] at hnew
      exact .after hnew.leads (hnew.grounded.drain hK)

theorem Grounded.selectorFor (h : Grounded w o K Γ s) (hK : w.catalog.Closed o K) {receiver : Local}
    {declared : QualifiedMethod} {site : CallSite} {r : MethodRecord} {σ : SlotSite}
    (hb : s.InBody fun i => declared ∈ i.selects) (hr : s.methods[site.caller]? = some r) (hp : r.processed = true)
    (hrec : site.receiver? = r.locals[receiver]?)
    (hσ : K (.serves (.of o.precision r.reference receiver declared) σ)) :
    Brings w o K Γ [] s (s.selectorFor receiver declared site).2 := by
  unfold Analysis.selectorFor
  cases hk : s.selectorKeys.find? (s.selectorKey site.caller receiver declared) with
  | some id => exact .refl h
  | none =>
    rw [hrec]
    exact h.newSelector hK hk hb hr hp hσ

/-- A changed record that keeps its name and its nodes. -/
theorem linked_modify {id : Nat} {f : MethodRecord → MethodRecord} (hm : s'.methods = s.methods.modify id f)
    (hf : ∀ r, (f r).reference = r.reference) {m : QualifiedMethod} {r : MethodRecord} (hr : s'.Linked m r) :
    ∃ r₀, s.Linked m r₀ ∧ (r = r₀ ∨ s.methods[id]? = some r₀ ∧ r = f r₀) := by
  obtain ⟨href, i, hi⟩ := hr
  rw [hm] at hi
  rcases getElem?_modify_cases hi with ⟨-, hi⟩ | ⟨rfl, r₀, hr₀, rfl⟩
  · exact ⟨r, ⟨href, i, hi⟩, Or.inl rfl⟩
  · exact ⟨r₀, ⟨(hf r₀).symm.trans href, i, hr₀⟩, Or.inr ⟨hr₀, rfl⟩⟩

/-- It stands for what it stood for, but perhaps for its local variables. -/
theorem standsFor_modify {id : Nat} {f : MethodRecord → MethodRecord} (hm : s'.methods = s.methods.modify id f)
    (hf : ∀ r, (f r).reference = r.reference ∧ (f r).params = r.params ∧ (f r).result = r.result ∧
      (f r).thrown = r.thrown) (hfields : s'.fields = s.fields) (ha : s'.aggregates = s.aggregates)
    (hp : s'.itemPools = s.itemPools) {n : NodeId} {x : Slot} (hx : s'.StandsFor n x) :
    s.StandsFor n x ∨ ∃ r v, s.methods[id]? = some r ∧ x = .var r.reference v ∧ (f r).locals[v]? = some n := by
  have hlinked : ∀ {m r'}, s'.Linked m r' → ∃ r, s.Linked m r ∧ r'.params = r.params ∧ r'.result = r.result ∧
      r'.thrown = r.thrown ∧ (r' = r ∨ s.methods[id]? = some r ∧ r' = f r) := by
    intro m r' hr'
    obtain ⟨r, hr, rfl | ⟨hget, rfl⟩⟩ := linked_modify hm (fun r => (hf r).1) hr'
    · exact ⟨r', hr, rfl, rfl, rfl, Or.inl rfl⟩
    · obtain ⟨-, hparams, hresult, hthrown⟩ := hf r
      exact ⟨r, hr, hparams, hresult, hthrown, Or.inr ⟨hget, rfl⟩⟩
  cases x with
  | root => exact Or.inl hx
  | param m i =>
    obtain ⟨r', hr', hn⟩ := hx
    obtain ⟨r, hr, hparams, -⟩ := hlinked hr'
    exact Or.inl ⟨r, hr, hparams ▸ hn⟩
  | result m =>
    obtain ⟨r', hr', hn⟩ := hx
    obtain ⟨r, hr, -, hresult, -⟩ := hlinked hr'
    exact Or.inl ⟨r, hr, hresult ▸ hn⟩
  | thrown m =>
    obtain ⟨r', hr', hn⟩ := hx
    obtain ⟨r, hr, -, -, hthrown, -⟩ := hlinked hr'
    exact Or.inl ⟨r, hr, hthrown ▸ hn⟩
  | var m v =>
    obtain ⟨r', hr', hn⟩ := hx
    obtain ⟨r, hr, -, -, -, rfl | ⟨hget, rfl⟩⟩ := hlinked hr'
    · exact Or.inl ⟨r', hr, hn⟩
    · exact Or.inr ⟨r, v, hget, by rw [hr.1], hn⟩
  | field g => exact Or.inl ((congrArg (Table.find? · g) hfields).symm.trans hx)
  | aggregate t => exact Or.inl ((congrArg (Table.find? · t) ha).symm.trans hx)
  | pool k => exact Or.inl ((congrArg (Table.find? · k) hp).symm.trans hx)

theorem Grounded.withSite (h : Grounded w o K Γ s) {id : Nat} {sel : Selector} {receiver : Local}
    {declared : QualifiedMethod} {site : CallSite} {r : MethodRecord} {κ : Chooser} {σ : SlotSite}
    (hs : s.selectors[id]? = some sel)
    (hk : s.selectorKeys.find? (s.selectorKey site.caller receiver declared) = some id)
    (hr : s.methods[site.caller]? = some r) (hp : r.processed = true) (hn : ∀ n ∈ site.nodes, s.Plain n)
    (hd : r.Calls receiver declared) (hκ : s.Answers id κ) (hσ : s.SiteAt site σ) (hserves : K (.serves κ σ))
    (hcalls : K (.calls r.reference ⟨receiver, declared.signature⟩ κ)) :
    Brings w o K Γ [.calls r.reference ⟨receiver, declared.signature⟩ κ, .serves κ σ] s
      (s.withSite id ⟨receiver, declared.signature⟩ site) := by
  have hstep : Step .client s [] (s.withSite id ⟨receiver, declared.signature⟩ site) _ := .site hs hk hr hp hn hd
  have hleads : s.Leads (s.withSite id ⟨receiver, declared.signature⟩ site) := .of_grows hstep.grows
  have hmodify : (s.withSite id ⟨receiver, declared.signature⟩ site).methods
      = s.methods.modify site.caller fun r => r.noteCall ⟨receiver, declared.signature⟩ id := rfl
  have hanswers : ∀ {k κ}, (s.withSite id ⟨receiver, declared.signature⟩ site).Answers k κ → s.Answers k κ :=
    fun hκ => h.valid.answers_of_same hstep.grows rfl hκ
  obtain ⟨L, hL⟩ := h.labelled
  refine ⟨h.aside hstep hleads rfl
      { h.sourced with methods := ?_, selectors := ?_, noted := ?_, calls := ?_ } rfl ?_ rfl rfl rfl rfl ?_
      ⟨L, { hL with slot := ?_, only := ?_, serves := ?_ }⟩, hleads, ?_⟩
  · intro i r' hr'
    rcases getElem?_modify_cases hr' with ⟨-, hr'⟩ | ⟨rfl, r₀, hr₀, rfl⟩
    · exact h.sourced.methods hr'
    · have hold := h.sourced.methods hr₀
      exact hold
  · intro k sel' κ' hκ' hs'
    rcases getElem?_modify_cases hs' with ⟨-, hs'⟩ | ⟨rfl, sel₀, hs₀, rfl⟩
    · exact h.sourced.selectors (hanswers hκ') hs'
    · have hold := h.sourced.selectors (hanswers hκ') hs₀
      exact hold
  · intro i r' key k hr' hk'
    have hlt : k < s.selectors.size := by
      rcases getElem?_modify_cases hr' with ⟨-, hr'⟩ | ⟨rfl, r₀, hr₀, rfl⟩
      · exact h.sourced.noted hr' hk'
      · rcases MethodRecord.selectorsAt_noteCall_cases hk' with hk' | ⟨-, rfl⟩
        · exact h.sourced.noted hr₀ hk'
        · exact (Array.getElem?_eq_some_iff.1 hs).1
    simpa [Analysis.withSite] using hlt
  · intro i r' key k κ' hr' hk' hκ'
    rcases getElem?_modify_cases hr' with ⟨-, hr'⟩ | ⟨rfl, r₀, hr₀, rfl⟩
    · exact h.sourced.calls hr' hk' (hanswers hκ')
    · rcases MethodRecord.selectorsAt_noteCall_cases hk' with hk' | ⟨rfl, rfl⟩
      · have hold := h.sourced.calls hr₀ hk' (hanswers hκ')
        exact hold
      · obtain rfl := h.valid.chooser_unique hκ (hanswers hκ')
        obtain rfl := Option.some.inj (hr.symm.trans hr₀)
        exact hcalls
  · rintro m ⟨r', hr'⟩
    obtain ⟨r₀, hr₀, -⟩ := linked_modify hmodify (fun _ => rfl) hr'
    exact ⟨r₀, hr₀⟩
  · exact fun φ hφ => hφ.same hstep.grows rfl rfl
  · exact fun hn => hleads.grows.standsFor (hL.slot hn)
  · intro n x hx
    rcases standsFor_modify hmodify (fun _ => ⟨rfl, rfl, rfl, rfl⟩) rfl rfl rfl hx with hx | ⟨r₀, v, hr₀, rfl, hn⟩
    · exact hL.only hx
    · exact hL.only ⟨r₀, ⟨rfl, site.caller, hr₀⟩, hn⟩
  · intro k sel' κ' site' hκ' hs' hsite
    rcases getElem?_modify_cases hs' with ⟨-, hs'⟩ | ⟨rfl, sel₀, hs₀, rfl⟩
    · exact hL.serves (hanswers hκ') hs' hsite
    · rcases List.mem_append.1 hsite with hsite | hsite
      · exact hL.serves (hanswers hκ') hs₀ hsite
      · obtain rfl := h.valid.chooser_unique hκ (hanswers hκ')
        rw [List.mem_singleton.1 hsite, hL.slots hσ]
        exact hserves
  · intro φ hφ
    have hκ' := hleads.grows.answers hκ
    simp only [List.mem_cons, List.not_mem_nil, or_false] at hφ
    rcases hφ with rfl | rfl
    · refine ⟨r.noteCall ⟨receiver, declared.signature⟩ id,
        ⟨rfl, site.caller, getElem?_modify_self hr _⟩, id, ?_, hκ'⟩
      rw [MethodRecord.selectorsAt_noteCall, if_pos rfl]
      exact OrderedSet.mem_insert.2 (Or.inr rfl)
    · exact ⟨id, _, hκ', getElem?_modify_self hs _, site, List.mem_append_right _ List.mem_cons_self,
        hleads.grows.siteAt hσ⟩

/-- A call that is joined to targets of its selector: the rules ask for the edges. -/
theorem Grounded.joinAll (h : Grounded w o K Γ s) (hK : w.catalog.Closed o K) {κ : Chooser} {site : CallSite}
    {σ : SlotSite} (hσ : s.SiteAt site σ) (hn : ∀ n ∈ site.nodes, s.Plain n) (hserves : K (.serves κ σ))
    {targets : List QualifiedMethod} (ht : ∀ m ∈ targets, K (.target κ m) ∧ w.catalog.resolveMethod m = some m) :
    Brings w o K Γ [] s (s.joinAll site targets) := by
  have hjoin : Brings w o K Γ (targets.flatMap fun _ => []) s (s.joinAll site targets) := by
    refine Brings.foldl (P := fun s => s.SiteAt site σ ∧ ∀ n ∈ site.nodes, s.Plain n)
      (fun hl hp => ⟨hl.grows.siteAt hp.1, fun n hmem => hl.grows.plain (hp.2 n hmem)⟩) _ h ⟨hσ, hn⟩
      fun {s m} hm h hp => ?_
    cases hid : s.methodId? m with
    | none => exact .refl h
    | some callee =>
      obtain ⟨htarget, hself⟩ := ht m hm
      obtain ⟨r, hr, hd⟩ := h.resolveMethod_of_names (h.valid.methods.names_of_methodId? hid)
      obtain rfl : m = r.reference := Option.some.inj (hself.symm.trans hd)
      have hconnect := h.connectCall hK hr hp.1 hp.2 fun φ hφ => hK.join htarget hserves hφ
      exact .after hconnect.leads (hconnect.grounded.drain hK)
  exact hjoin.forget

theorem Grounded.target_self (h : Grounded w o K Γ s) {id : Nat} {sel : Selector} (hs : s.selectors[id]? = some sel)
    {m : QualifiedMethod} (hm : m ∈ sel.targets) : w.catalog.resolveMethod m = some m := by
  obtain ⟨key, hk⟩ := h.valid.selectors.keyed hs
  obtain ⟨sel', hs', hvs⟩ := h.valid.selectors.selector hk
  obtain rfl := Option.some.inj (hs.symm.trans hs')
  obtain ⟨n, i, t, -, -, -, hd⟩ := hvs.targets m hm
  exact resolveMethod_of_pick (h.shows.pick _ _ _ ▸ hd.view)

theorem Grounded.linkDynamicCall (h : Grounded w o K Γ s) (hK : w.catalog.Closed o K) {receiver : Local}
    {declared : QualifiedMethod} {site : CallSite} {r : MethodRecord} {σ : SlotSite}
    (hd : r.Calls receiver declared) (hr : s.methods[site.caller]? = some r) (hp : r.processed = true)
    (hrec : site.receiver? = r.locals[receiver]?) (hn : ∀ n ∈ site.nodes, s.Plain n)
    (hσ : s.SiteAt site σ) (hserves : K (.serves (.of o.precision r.reference receiver declared) σ))
    (hcalls : K (.calls r.reference ⟨receiver, declared.signature⟩
      (.of o.precision r.reference receiver declared))) :
    Brings w o K Γ
      [.calls r.reference ⟨receiver, declared.signature⟩ (.of o.precision r.reference receiver declared),
        .serves (.of o.precision r.reference receiver declared) σ]
      s (s.linkDynamicCall receiver declared site) := by
  have hb := InBody.of_calls hr hd
  have hselect := h.selectorFor hK hb hr hp hrec hserves
  have hkey := (moves_selectorFor (w := .client) h.valid hb hr hp hrec []).2
  obtain ⟨sel, hsel, -⟩ := hselect.grounded.valid.selectors.selector hkey
  obtain ⟨r₁, hr₁, hg₁⟩ := hselect.leads.grows.methods _ r hr
  rw [linkDynamicCall_eq, targetsOf_withSite hsel]
  generalize s.selectorFor receiver declared site = res at hselect hkey hsel hr₁ ⊢
  obtain ⟨id, s₁⟩ := res
  simp only [] at hselect hkey hsel hr₁ ⊢
  have hκ : s₁.Answers id (.of o.precision r.reference receiver declared) := by
    refine ⟨_, hkey, hselect.leads.grows.chosen ?_⟩
    rw [← h.settings]
    exact chosen_selectorKey hr receiver declared
  rw [← hselect.leads.grows.selectorKey] at hkey
  rw [← hg₁.reference] at hcalls hserves hκ ⊢
  have hsite := hselect.grounded.withSite hsel hkey hr₁ (hg₁.processed hp)
    (fun n hmem => hselect.leads.grows.plain (hn n hmem)) (hd.grow hg₁) hκ
    (hselect.leads.grows.siteAt hσ) hserves hcalls
  have hleads := hselect.leads.trans hsite.leads
  have htargets := (hselect.grounded.sourced.selectors hκ hsel).2
  exact .after hselect.leads (hsite.before (hsite.grounded.joinAll hK (hleads.grows.siteAt hσ)
    (fun n hmem => hleads.grows.plain (hn n hmem)) hserves fun m hm =>
      ⟨htargets m hm, hselect.grounded.target_self hsel hm⟩))

/-! ## Tasks -/

def taskFacts : Task → List Fact
  | .wire t _ => [.aggregate t]
  | .attach _ _ => []

theorem Grounded.runTask {t : Task} (h : Grounded w o K (taskFacts t ++ Γ) s) (hK : w.catalog.Closed o K)
    (ho : s.Owes (.task t)) : Brings w o K Γ [] s (s.runTask t) := by
  cases t with
  | wire t node =>
    have hK' : K (.aggregate t) := h.sourced.aggregates (Table.mem_keys_of_find? ho)
    have hwire := h.wireSupertypes hK ho fun φ hφ => hK.follows hK' hφ
    exact .of_leads (hwire.grounded.release hwire.has) hwire.leads
  | attach id owner =>
    obtain ⟨declared, hk, rfl⟩ := ho
    obtain ⟨sel, hs, -⟩ := h.valid.selectors.selector hk
    obtain ⟨σ, hserves⟩ := (h.sourced.selectors ⟨_, hk, rfl⟩ hs).1
    obtain ⟨hagg, hslot⟩ := Grounded.aggregate (Γ := Γ) h fun φ hφ => hK.attach hserves rfl hφ
    obtain ⟨sel', hs', hg⟩ := hagg.leads.grows.selectors _ sel hs
    have heq : s.runTask (.attach id declared.owner)
        = (s.aggregate (.object declared.owner)).2.listen
          (s.aggregate (.object declared.owner)).1 sel'.listener := by
      simp only [Analysis.runTask, hs']
    rw [heq]
    refine .after hagg.leads (hagg.grounded.listen hK ⟨[], [], ?_⟩)
    exact .attach (hagg.leads.grows.selectorKeys _ _ hk) hs' (standsFor_ofAggregate.1 hslot)

end Analysis

end TypeFlow
