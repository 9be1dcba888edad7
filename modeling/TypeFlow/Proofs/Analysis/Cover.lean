import TypeFlow.Proofs.Analysis.Invariant

/-!
# No duty is lost

Whatever gives a reason for a duty queues it or takes it in hand, and what is
done stays done. So every duty waits, is in hand or is done (`Covered`), and
when nothing waits and nothing is in hand, all is done.
-/

namespace TypeFlow

namespace Analysis

variable {w : Actor} {s s' : Analysis} {γ γ' : List Duty}

/-! ## What is done stays done -/

theorem Grows.served (h : s.Grows s') {l : Listener} {i : TypeId} {t : ExactType} (hs : s.Served l i t) :
    s'.Served l i t := by
  cases l with
  | aggregation =>
    obtain ⟨n, hn, hi⟩ := hs
    exact ⟨n, h.aggregate? hn, h.graph.mem_held hi⟩
  | selector id =>
    obtain ⟨sel, answer, hsel, hd, hm⟩ := hs
    obtain ⟨sel', hsel', hg⟩ := h.selectors id sel hsel
    refine ⟨sel', answer, hsel', ?_, fun m ha => hg.targets.subset (hm m ha)⟩
    rw [hg.declared, hg.filter?]
    exact h.decides hd
  | observer label => trivial

theorem Grows.done_body (h : s.Grows s') {id : MethodId} (hd : s.Done (.body id)) : s'.Done (.body id) := by
  obtain ⟨r, hr, hp, ho⟩ := hd
  obtain ⟨r', hr', hg⟩ := h.methods id r hr
  refine ⟨r', hr', hg.processed hp, fun body hb => ?_⟩
  obtain ⟨hobeys, hnamed, hleaves⟩ := ho body (hg.definition ▸ hb)
  rw [hg.settled hp, hg.result, hg.thrown, hg.params]
  exact ⟨hobeys.mono h h.edges, fun x hx => h.follows (hnamed x hx), fun i hi => h.leaves (hleaves i hi)⟩

theorem Grows.done (h : s.Grows s') {d : Duty} (hd : s.Done d) : s'.Done d := by
  match d with
  | .notice d =>
    obtain ⟨l, t, hl, ht, hs⟩ := hd
    exact ⟨l, t, h.listener hl, h.graph.type? ht, h.served hs⟩
  | .task (.wire t node) =>
    obtain ⟨supers, hs, hroot, hall, hlooked⟩ := hd
    refine ⟨supers, h.decides hs, fun he => h.graph.flows (hroot he), fun super hmem => ?_, h.looked hlooked⟩
    obtain ⟨n, hn, hf⟩ := hall super hmem
    exact ⟨n, h.aggregate? hn, h.graph.flows hf⟩
  | .task (.attach id owner) =>
    obtain ⟨sel, n, hsel, hn, hl⟩ := hd
    obtain ⟨sel', hsel', hg⟩ := h.selectors id sel hsel
    exact ⟨sel', n, hsel', h.aggregate? hn, hg.listener ▸ h.graph.mem_listeners hl⟩
  | .body id => exact h.done_body hd
  | .link m =>
    obtain ⟨r, hr⟩ := hd
    obtain ⟨r', hr', _⟩ := h.linked hr
    exact ⟨r', hr'⟩
  | .join site m =>
    obtain ⟨r, hr, he⟩ := hd
    obtain ⟨r', hr', hg⟩ := h.linked hr
    refine ⟨r', hr', fun e hmem => ?_⟩
    rw [callEdges_of_grows hg] at hmem
    exact h.graph.flows (he e hmem)
  | .pool key =>
    intro hkey href
    obtain ⟨n, object, hn, ho, hthere, hback⟩ := hd hkey href
    exact ⟨n, object, h.itemPools _ _ hn, h.itemPools _ _ ho, h.graph.flows hthere, h.graph.flows hback⟩
  | .prepare name => exact h.prepared hd

/-! ## Reasons for duties -/

theorem owes_notice_of_announces (h : s.graph.Announces s'.graph) (d : Notice) (ho : s'.Owes (.notice d)) :
    s.Owes (.notice d) ∨ s'.Queues (.notice d) := by
  obtain ⟨n, hl, ht⟩ := ho
  rcases h.fresh hl ht with ⟨hl, ht⟩ | hd
  · exact Or.inl ⟨n, hl, ht⟩
  · exact Or.inr hd

theorem owes_task_of_same (ha : s'.aggregates = s.aggregates) (hk : s'.selectorKeys = s.selectorKeys) (t : Task)
    (ho : s'.Owes (.task t)) : s.Owes (.task t) ∨ s'.Queues (.task t) := by
  refine Or.inl ?_
  cases t with
  | wire t node =>
    have hf : s'.aggregates.find? t = some node := ho
    rw [ha] at hf
    exact hf
  | attach id owner =>
    obtain ⟨declared, hd, howner⟩ := ho
    exact ⟨declared, hk ▸ hd, howner⟩

theorem owes_body_of_same (hm : s'.methods.size = s.methods.size) (id : MethodId) (ho : s'.Owes (.body id)) :
    s.Owes (.body id) ∨ s'.Queues (.body id) :=
  Or.inl (Nat.lt_of_lt_of_eq ho hm)

theorem owes_link_of_same (hs : s'.selectors = s.selectors) (γ : List Duty) (m : QualifiedMethod)
    (ho : s'.Owes (.link m)) : s.Owes (.link m) ∨ .link m ∈ γ := by
  obtain ⟨id, sel, hsel, hm⟩ := ho
  exact Or.inl ⟨id, sel, hs ▸ hsel, hm⟩

theorem owes_join_of_same (hs : s'.selectors = s.selectors) (γ : List Duty) (site : CallSite) (m : QualifiedMethod)
    (ho : s'.Owes (.join site m)) : s.Owes (.join site m) ∨ .join site m ∈ γ := by
  obtain ⟨id, sel, hsel, hsite, hm⟩ := ho
  exact Or.inl ⟨id, sel, hs ▸ hsel, hsite, hm⟩

theorem owes_pool_of_same (hi : s'.itemPools = s.itemPools) (γ : List Duty) (key : ItemKey)
    (ho : s'.Owes (.pool key)) : s.Owes (.pool key) ∨ .pool key ∈ γ :=
  Or.inl (show key ∈ s.itemPools.keys from hi ▸ ho)

theorem owes_prepare_of_same (hc : s'.classes = s.classes) (γ : List Duty) (name : ClassName)
    (ho : s'.Owes (.prepare name)) : s.Owes (.prepare name) ∨ .prepare name ∈ γ := by
  obtain ⟨r, hr, hi⟩ := ho
  exact Or.inl ⟨r, hc ▸ hr, hi⟩

theorem queues_of_subset {d : Duty} (hq : s.Queues d) (hp : s.graph.pending ⊆ s'.graph.pending)
    (hd : s.deferred ⊆ s'.deferred) (hw : s.worklist ⊆ s'.worklist) : s'.Queues d := by
  cases d with
  | notice d => exact hp hq
  | task t => exact hd hq
  | body id => exact hw hq
  | link m => exact hq
  | join site m => exact hq
  | pool key => exact hq
  | prepare name => exact hq

/-- The duties stay covered if each new reason comes with a duty in a queue or in hand. -/
theorem Covered.advance (hc : s.Covered γ) (h : s.Grows s') (hγ : γ ⊆ γ')
    (hq : ∀ d, s.Queues d → s'.Queues d ∨ d ∈ γ')
    (hnotice : ∀ d, s'.Owes (.notice d) → s.Owes (.notice d) ∨ s'.Queues (.notice d))
    (htask : ∀ t, s'.Owes (.task t) → s.Owes (.task t) ∨ s'.Queues (.task t))
    (hbody : ∀ id, s'.Owes (.body id) → s.Owes (.body id) ∨ s'.Queues (.body id))
    (hlink : ∀ m, s'.Owes (.link m) → s.Owes (.link m) ∨ .link m ∈ γ')
    (hjoin : ∀ site m, s'.Owes (.join site m) → s.Owes (.join site m) ∨ .join site m ∈ γ')
    (hpool : ∀ key, s'.Owes (.pool key) → s.Owes (.pool key) ∨ .pool key ∈ γ')
    (hprepare : ∀ name, s'.Owes (.prepare name) → s.Owes (.prepare name) ∨ .prepare name ∈ γ') :
    s'.Covered γ' := by
  have hold : ∀ d, s.Owes d → s'.Queues d ∨ d ∈ γ' ∨ s'.Done d := by
    intro d hd
    rcases hc d hd with hd | hd | hd
    · rcases hq d hd with hd | hd
      · exact Or.inl hd
      · exact Or.inr (Or.inl hd)
    · exact Or.inr (Or.inl (hγ hd))
    · exact Or.inr (Or.inr (h.done hd))
  intro d hd
  cases d with
  | notice d => exact (hnotice d hd).elim (hold _) Or.inl
  | task t => exact (htask t hd).elim (hold _) Or.inl
  | body id => exact (hbody id hd).elim (hold _) Or.inl
  | link m => exact (hlink m hd).elim (hold _) fun hm => Or.inr (Or.inl hm)
  | join site m => exact (hjoin site m hd).elim (hold _) fun hm => Or.inr (Or.inl hm)
  | pool key => exact (hpool key hd).elim (hold _) fun hk => Or.inr (Or.inl hk)
  | prepare name => exact (hprepare name hd).elim (hold _) fun hn => Or.inr (Or.inl hn)

/-- A change of the graph gives reasons for notices only. -/
theorem Covered.keep (hc : s.Covered γ) (h : s.Grows s') (hg : s.graph.Announces s'.graph)
    (ha : s'.aggregates = s.aggregates) (hk : s'.selectorKeys = s.selectorKeys)
    (hm : s'.methods.size = s.methods.size) (hs : s'.selectors = s.selectors) (hi : s'.itemPools = s.itemPools)
    (hl : s'.classes = s.classes) (hd : s'.deferred = s.deferred) (hw : s'.worklist = s.worklist) : s'.Covered γ :=
  hc.advance h (List.Subset.refl _)
    (fun _ hq => Or.inl (queues_of_subset hq hg.pending (hd ▸ List.Subset.refl _) (hw ▸ List.Subset.refl _)))
    (owes_notice_of_announces hg) (owes_task_of_same ha hk) (owes_body_of_same hm) (owes_link_of_same hs γ)
    (owes_join_of_same hs γ) (owes_pool_of_same hi γ) (owes_prepare_of_same hl γ)

/-- A change of what gives no reason for anything. -/
theorem Covered.aside (hc : s.Covered γ) (h : s.Grows s') (hg : s'.graph = s.graph)
    (ha : s'.aggregates = s.aggregates) (hk : s'.selectorKeys = s.selectorKeys)
    (hm : s'.methods.size = s.methods.size) (hs : s'.selectors = s.selectors) (hi : s'.itemPools = s.itemPools)
    (hl : s'.classes = s.classes) (hd : s'.deferred = s.deferred) (hw : s'.worklist = s.worklist) : s'.Covered γ :=
  hc.keep h (hg ▸ .refl _) ha hk hm hs hi hl hd hw

/-- A duty that leaves its queue is taken in hand. -/
theorem Covered.take (hc : s.Covered γ) (h : s.Grows s') (hγ : γ ⊆ γ')
    (hn : ∀ d, s'.Owes (.notice d) → s.Owes (.notice d)) (ha : s'.aggregates = s.aggregates)
    (hk : s'.selectorKeys = s.selectorKeys) (hm : s'.methods.size = s.methods.size)
    (hs : s'.selectors = s.selectors) (hi : s'.itemPools = s.itemPools) (hl : s'.classes = s.classes)
    (hq : ∀ d, s.Queues d → s'.Queues d ∨ d ∈ γ') : s'.Covered γ' :=
  hc.advance h hγ hq (fun d ho => Or.inl (hn d ho)) (owes_task_of_same ha hk) (owes_body_of_same hm)
    (owes_link_of_same hs γ') (owes_join_of_same hs γ') (owes_pool_of_same hi γ') (owes_prepare_of_same hl γ')

/-- A change of the records of classes gives reasons for what has to follow a mark. -/
theorem Covered.withClasses (hc : s.Covered γ) {hier : Hierarchy} {classes : Table ClassName ClassRecord}
    {problems : Problems} (h : s.Grows { s with hierarchy := hier, classes, problems }) (hγ : γ ⊆ γ')
    (hprepare : ∀ {name r}, classes.find? name = some r → r.initialized = true →
      s.Owes (.prepare name) ∨ .prepare name ∈ γ') :
    Covered { s with hierarchy := hier, classes, problems } γ' := by
  refine hc.advance h hγ (fun d hq => Or.inl ?_) (owes_notice_of_announces (.refl _)) (owes_task_of_same rfl rfl)
    (owes_body_of_same rfl) (owes_link_of_same rfl _) (owes_join_of_same rfl _) (owes_pool_of_same rfl _) ?_
  · exact queues_of_subset hq (List.Subset.refl _) (List.Subset.refl _) (List.Subset.refl _)
  · rintro name ⟨r, hr, hi⟩
    exact hprepare hr hi

/-! ## Steps -/

theorem announces_withType (s : Analysis) (t : ExactType) (nodes : List NodeId) :
    s.graph.Announces (s.withType t nodes).graph :=
  (FlowGraph.announces_intern s.graph t).trans (FlowGraph.announces_addAll _ _ _)

/-- A new selector has no calls and no targets. -/
theorem owes_of_push (s s' : Analysis) {sel : Selector} (hs : s'.selectors = s.selectors.push sel)
    (ht : sel.targets = ∅) (γ : List Duty) :
    (∀ m, s'.Owes (.link m) → s.Owes (.link m) ∨ .link m ∈ γ) ∧
      ∀ site m, s'.Owes (.join site m) → s.Owes (.join site m) ∨ .join site m ∈ γ := by
  refine ⟨fun m ho => ?_, fun site m ho => ?_⟩
  · obtain ⟨id, sel', hsel, hm⟩ := ho
    rw [hs] at hsel
    rcases getElem?_push_cases hsel with hsel | ⟨_, rfl⟩
    · exact Or.inl ⟨id, sel', hsel, hm⟩
    · rw [ht] at hm
      exact absurd hm (OrderedSet.not_mem_empty m)
  · obtain ⟨id, sel', hsel, hsite, hm⟩ := ho
    rw [hs] at hsel
    rcases getElem?_push_cases hsel with hsel | ⟨_, rfl⟩
    · exact Or.inl ⟨id, sel', hsel, hsite, hm⟩
    · rw [ht] at hm
      exact absurd hm (OrderedSet.not_mem_empty m)

theorem covered_target (hc : s.Covered γ) {id : SelectorId} {sel : Selector} {m : QualifiedMethod}
    (hs : s.selectors[id]? = some sel)
    (h : s.Grows { s with selectors := s.selectors.modify id fun sel =>
      { sel with targets := sel.targets.insert m } }) :
    Covered { s with selectors := s.selectors.modify id fun sel => { sel with targets := sel.targets.insert m } }
      (.link m :: sel.sites.map (fun site => .join site m) ++ γ) := by
  refine hc.advance h (fun _ hd => List.mem_append_right _ hd) (fun d hq => Or.inl ?_)
    (owes_notice_of_announces (.refl _)) (owes_task_of_same rfl rfl) (owes_body_of_same rfl) ?_ ?_
    (owes_pool_of_same rfl _) (owes_prepare_of_same rfl _)
  · exact queues_of_subset hq (List.Subset.refl _) (List.Subset.refl _) (List.Subset.refl _)
  · rintro m' ⟨id', sel', hsel, hm⟩
    rcases getElem?_modify_cases hsel with ⟨_, hold⟩ | ⟨rfl, sel₀, hold, rfl⟩
    · exact Or.inl ⟨id', sel', hold, hm⟩
    · rcases OrderedSet.mem_insert.1 hm with hm | rfl
      · exact Or.inl ⟨id', sel₀, hold, hm⟩
      · exact Or.inr List.mem_cons_self
  · rintro site m' ⟨id', sel', hsel, hsite, hm⟩
    rcases getElem?_modify_cases hsel with ⟨_, hold⟩ | ⟨rfl, sel₀, hold, rfl⟩
    · exact Or.inl ⟨id', sel', hold, hsite, hm⟩
    · obtain rfl : sel₀ = sel := Option.some.inj (hold.symm.trans hs)
      rcases OrderedSet.mem_insert.1 hm with hm | rfl
      · exact Or.inl ⟨id', sel₀, hold, hsite, hm⟩
      · exact Or.inr (List.mem_append_left _ (List.mem_cons_of_mem _ (List.mem_map.2 ⟨site, hsite, rfl⟩)))

theorem covered_site (hc : s.Covered γ) {id : SelectorId} {sel : Selector} {site : CallSite} {key : CallKey}
    (hs : s.selectors[id]? = some sel)
    (h : s.Grows { s with
      methods := s.methods.modify site.caller fun r => r.noteCall key id
      selectors := s.selectors.modify id fun sel => { sel with sites := sel.sites ++ [site] } }) :
    Covered { s with
      methods := s.methods.modify site.caller fun r => r.noteCall key id
      selectors := s.selectors.modify id fun sel => { sel with sites := sel.sites ++ [site] } }
      (sel.targets.toList.map (fun m => .join site m) ++ γ) := by
  refine hc.advance h (fun _ hd => List.mem_append_right _ hd) (fun d hq => Or.inl ?_)
    (owes_notice_of_announces (.refl _)) (owes_task_of_same rfl rfl)
    (owes_body_of_same (Array.size_modify ..)) ?_ ?_ (owes_pool_of_same rfl _)
    (owes_prepare_of_same rfl _)
  · exact queues_of_subset hq (List.Subset.refl _) (List.Subset.refl _) (List.Subset.refl _)
  · rintro m ⟨id', sel', hsel, hm⟩
    rcases getElem?_modify_cases hsel with ⟨_, hold⟩ | ⟨rfl, sel₀, hold, rfl⟩
    · exact Or.inl ⟨id', sel', hold, hm⟩
    · exact Or.inl ⟨id', sel₀, hold, hm⟩
  · rintro site' m ⟨id', sel', hsel, hsite, hm⟩
    rcases getElem?_modify_cases hsel with ⟨_, hold⟩ | ⟨rfl, sel₀, hold, rfl⟩
    · exact Or.inl ⟨id', sel', hold, hsite, hm⟩
    · obtain rfl : sel₀ = sel := Option.some.inj (hold.symm.trans hs)
      rcases List.mem_append.1 hsite with hsite | hsite
      · exact Or.inl ⟨id', sel₀, hold, hsite, hm⟩
      · rw [List.mem_singleton] at hsite
        subst hsite
        exact Or.inr (List.mem_append_left _ (List.mem_map.2 ⟨m, hm, rfl⟩))

theorem covered_recordMethod (hc : s.Covered γ) {m : QualifiedMethod} {d : ClassDef} {f : MethodDef}
    (h : s.Grows (s.recordMethod m d f).2) : (s.recordMethod m d f).2.Covered γ := by
  rw [recordMethod_eq] at h ⊢
  have hann : s.graph.Announces (s.graph.newNodes (m.signature.params.length + 1)).2.newNode.2.newNode.2 :=
    ((FlowGraph.announces_newNodes _ _).trans (FlowGraph.announces_newNode _)).trans (FlowGraph.announces_newNode _)
  refine hc.advance h (List.Subset.refl _) (fun d hq => Or.inl ?_) (owes_notice_of_announces hann)
    (owes_task_of_same rfl rfl) (fun id ho => ?_) (owes_link_of_same rfl γ) (owes_join_of_same rfl γ)
    (owes_pool_of_same rfl γ) (owes_prepare_of_same rfl γ)
  · exact queues_of_subset hq hann.pending (List.Subset.refl _) (List.subset_append_left _ _)
  · have hlt : id < s.methods.size + 1 := by
      have := show id < (s.methods.push (s.newRecord m d f)).size from ho
      rwa [Array.size_push] at this
    rcases Nat.lt_succ_iff_lt_or_eq.1 hlt with hlt | rfl
    · exact Or.inl hlt
    · exact Or.inr (List.mem_append_right _ List.mem_cons_self)

theorem covered_aggregate (hc : s.Covered γ) {t : DeclType} (ht : s.aggregate? t = none)
    (h : s.Grows (s.aggregate t).2) : (s.aggregate t).2.Covered γ := by
  rw [aggregate_of_none ht] at h ⊢
  refine hc.advance h (List.Subset.refl _) (fun d hq => Or.inl ?_)
    (owes_notice_of_announces (FlowGraph.announces_newNode _)) (fun task ho => ?_) (owes_body_of_same rfl)
    (owes_link_of_same rfl γ) (owes_join_of_same rfl γ)
    (owes_pool_of_same rfl γ) (owes_prepare_of_same rfl γ)
  · exact queues_of_subset hq (List.Subset.refl _) (List.subset_append_left _ _) (List.Subset.refl _)
  · cases task with
    | attach id owner => exact Or.inl ho
    | wire t' node =>
      rcases Table.find?_insert_cases (t := s.aggregates) ho with hold | ⟨rfl, rfl⟩
      · exact Or.inl hold
      · exact Or.inr (List.mem_append_right _ List.mem_cons_self)

theorem covered_newShared (hc : s.Covered γ) {declared : QualifiedMethod}
    (h : s.Grows ((s.withSelector (.shared declared)).defer (.attach s.selectors.size declared.owner))) :
    ((s.withSelector (.shared declared)).defer (.attach s.selectors.size declared.owner)).Covered γ := by
  obtain ⟨hlink, hjoin⟩ := owes_of_push s
    ((s.withSelector (.shared declared)).defer (.attach s.selectors.size declared.owner)) rfl rfl γ
  refine hc.advance h (List.Subset.refl _) (fun d hq => Or.inl ?_) (owes_notice_of_announces (.refl _))
    (fun task ho => ?_) (owes_body_of_same rfl) hlink hjoin (owes_pool_of_same rfl γ)
    (owes_prepare_of_same rfl γ)
  · exact queues_of_subset hq (List.Subset.refl _) (List.subset_append_left _ _) (List.Subset.refl _)
  · cases task with
    | wire t node => exact Or.inl ho
    | attach id owner =>
      obtain ⟨declared', hd, rfl⟩ := ho
      rcases Table.find?_insert_cases (t := s.selectorKeys) hd with hold | ⟨heq, rfl⟩
      · exact Or.inl ⟨declared', hold, rfl⟩
      · cases heq
        exact Or.inr (List.mem_append_right _ List.mem_cons_self)

theorem covered_newPerSite (hc : s.Covered γ) {caller : MethodId} {receiver : Local} {declared : QualifiedMethod}
    {r : MethodRecord}
    (h : s.Grows { s.withSelector (.perSite caller receiver declared) with
      graph := match r.locals[receiver]? with
        | some n => s.graph.listen n s.listeners.size
        | none => s.graph }) :
    Covered { s.withSelector (.perSite caller receiver declared) with
      graph := match r.locals[receiver]? with
        | some n => s.graph.listen n s.listeners.size
        | none => s.graph } γ := by
  obtain ⟨hlink, hjoin⟩ := owes_of_push s { s.withSelector (.perSite caller receiver declared) with
    graph := match r.locals[receiver]? with
      | some n => s.graph.listen n s.listeners.size
      | none => s.graph } rfl rfl γ
  have hann : s.graph.Announces (match r.locals[receiver]? with
      | some n => s.graph.listen n s.listeners.size
      | none => s.graph) := by
    split
    · exact FlowGraph.announces_listen _ _ _
    · exact .refl _
  refine hc.advance h (List.Subset.refl _) (fun d hq => Or.inl ?_) (owes_notice_of_announces hann)
    (fun task ho => ?_) (owes_body_of_same rfl) hlink hjoin (owes_pool_of_same rfl γ)
    (owes_prepare_of_same rfl γ)
  · exact queues_of_subset hq hann.pending (List.Subset.refl _) (List.Subset.refl _)
  · cases task with
    | wire t node => exact Or.inl ho
    | attach id owner =>
      obtain ⟨declared', hd, howner⟩ := ho
      rcases Table.find?_insert_cases (t := s.selectorKeys) hd with hold | ⟨heq, _⟩
      · exact Or.inl ⟨declared', hold, howner⟩
      · exact nomatch heq

theorem covered_takeNotice (hc : s.Covered γ) {d : Notice} {g : FlowGraph} (hg : s.graph.takeNotice = some (d, g))
    (h : s.Grows { s with graph := g }) : Covered { s with graph := g } (.notice d :: γ) := by
  obtain ⟨rest, hpend, rfl⟩ := FlowGraph.takeNotice_some hg
  refine hc.take h (List.subset_cons_self _ _) (fun _ ho => ho) rfl rfl rfl rfl rfl rfl fun d' hq => ?_
  cases d' with
  | notice d' =>
    have hq' := show d' ∈ s.graph.pending from hq
    rw [hpend] at hq'
    rcases List.mem_cons.1 hq' with rfl | hq'
    · exact Or.inr List.mem_cons_self
    · exact Or.inl hq'
  | _ => exact Or.inl hq

/-- A new pool is in hand until it is tied. -/
theorem covered_pool (hc : s.Covered γ) {key : ItemKey} (hk : s.itemPools.find? key = none)
    (h : s.Grows (s.poolNode key).2) : (s.poolNode key).2.Covered (.pool key :: γ) := by
  rw [poolNode_of_none hk] at h ⊢
  have hann : s.graph.Announces s.graph.newNode.2 := FlowGraph.announces_newNode _
  refine hc.advance h (List.subset_cons_self _ _) (fun d hq => Or.inl ?_) (owes_notice_of_announces hann)
    (owes_task_of_same rfl rfl) (owes_body_of_same rfl) (owes_link_of_same rfl _) (owes_join_of_same rfl _)
    (fun key' ho => ?_) (owes_prepare_of_same rfl _)
  · exact queues_of_subset hq hann.pending (List.Subset.refl _) (List.Subset.refl _)
  · rcases Table.mem_keys_insert_cases (t := s.itemPools) ho with hold | rfl
    · exact Or.inl hold
    · exact Or.inr List.mem_cons_self

theorem Step.covered (hstep : Step w s γ s' γ') (hc : s.Covered γ) : s'.Covered γ' := by
  have h := hstep.grows
  cases hstep with
  | learn hh => exact hc.aside h rfl rfl rfl rfl rfl rfl rfl rfl rfl
  | linkClass name =>
    have hmarks := @s.marked_of_linkClass name
    obtain ⟨hier, c, p, hs, _⟩ := s.linkClass_frame name
    rw [hs] at h hmarks ⊢
    exact hc.withClasses h (List.Subset.refl _) fun hr hi => Or.inl ⟨_, hmarks hr hi, hi⟩
  | report p => exact hc.aside h rfl rfl rfl rfl rfl rfl rfl rfl rfl
  | markInitialized name =>
    refine hc.withClasses h (List.subset_cons_self _ _) fun {n r} hr hi => ?_
    rw [Table.find?_adjust] at hr
    split at hr
    · next hn => exact Or.inr (hn ▸ List.mem_cons_self)
    · exact Or.inl ⟨r, hr, hi⟩
  | recordMethod hm hd hf => exact covered_recordMethod hc h
  | aliasMethod hm hr hd => exact hc.aside h rfl rfl rfl rfl rfl rfl rfl rfl rfl
  | fieldAlias hf hr hd => exact hc.aside h rfl rfl rfl rfl rfl rfl rfl rfl rfl
  | newField hf hr hd hs =>
    exact hc.keep h (FlowGraph.announces_newNode _) rfl rfl rfl rfl rfl rfl rfl rfl
  | aggregate ht ha => exact covered_aggregate hc ht h
  | pool hk => exact covered_pool hc hk h
  | connect ha hb hk =>
    exact hc.keep h (FlowGraph.announces_connect _ _ _) rfl rfl rfl rfl rfl rfl rfl rfl
  | instantiate hn hk hb =>
    exact hc.keep h (s.announces_withType _ _) rfl rfl rfl rfl rfl rfl rfl rfl
  | gather hi ht hn =>
    exact hc.keep h (FlowGraph.announces_add _ _ _) rfl rfl rfl rfl rfl rfl rfl rfl
  | newShared hk hp hb => exact covered_newShared hc h
  | newPerSite hk hp hb hr hpr => exact covered_newPerSite hc h
  | attach hk hs hn =>
    exact hc.keep h (FlowGraph.announces_listen _ _ _) rfl rfl rfl rfl rfl rfl rfl rfl
  | target hs hm hp => exact covered_target hc hs h
  | site hs hk hr hpr hn => exact covered_site hc hs h
  | takeNotice hg => exact covered_takeNotice hc hg h
  | takeTasks =>
    refine hc.take h (List.subset_append_right _ _) (fun _ ho => ho) rfl rfl rfl rfl rfl rfl fun d hq => ?_
    cases d with
    | task t => exact Or.inr (List.mem_append_left _ (List.mem_map.2 ⟨t, hq, rfl⟩))
    | _ => exact Or.inl hq
  | @takeMethod id rest hw =>
    refine hc.take h (List.subset_cons_self _ _) (fun _ ho => ho) rfl rfl rfl rfl rfl rfl fun d hq => ?_
    cases d with
    | body id' =>
      have hq' := show id' ∈ s.worklist from hq
      rw [hw] at hq'
      rcases List.mem_cons.1 hq' with rfl | hq'
      · exact Or.inr List.mem_cons_self
      · exact Or.inl hq'
    | _ => exact Or.inl hq
  | openBody hr hp hl hw =>
    exact hc.keep h (FlowGraph.announces_newNodes _ _) rfl rfl (Array.size_modify ..) rfl rfl rfl rfl rfl
  | fulfil hd =>
    intro d ho
    rcases hc d ho with hq | hγ | hdone
    · exact Or.inl hq
    · exact Or.inr (hd d hγ)
    · exact Or.inr (Or.inr hdone)
  | note ht o => exact hc.aside h rfl rfl rfl rfl rfl rfl rfl rfl rfl
  | entries e hw => exact hc.aside h rfl rfl rfl rfl rfl rfl rfl rfl rfl
  | reseed hw => exact hc.aside h rfl rfl rfl rfl rfl rfl rfl rfl rfl
  | newNode hw =>
    exact hc.keep h (FlowGraph.announces_newNode _) rfl rfl rfl rfl rfl rfl rfl rfl
  | addType hw hn =>
    exact hc.keep h (s.announces_withType _ _) rfl rfl rfl rfl rfl rfl rfl rfl
  | observe hw hn =>
    exact hc.keep h (FlowGraph.announces_listen _ _ _) rfl rfl rfl rfl rfl rfl rfl rfl

theorem Moves.covered (h : Moves w s γ s' γ') (hc : s.Covered γ) : s'.Covered γ' :=
  h.invariant Step.covered hc

/-- Operations one after the other, each of which achieves something that lasts. -/
theorem moves_foldl {α : Type} (op : Analysis → α → Analysis) {I : Analysis → Prop} {G : Analysis → α → Prop}
    (l : List α) (hI : ∀ {s s'}, Moves w s γ s' γ → I s → I s')
    (hG : ∀ {s s' a}, Moves w s γ s' γ → G s a → G s' a)
    (hop : ∀ {s a}, a ∈ l → I s → Moves w s γ (op s a) γ ∧ G (op s a) a) (hi : I s) :
    Moves w s γ (l.foldl op s) γ ∧ ∀ a ∈ l, G (l.foldl op s) a := by
  induction l generalizing s with
  | nil => exact ⟨.refl s γ, fun _ h => nomatch h⟩
  | cons a l ih =>
    obtain ⟨hstep, ha⟩ := hop List.mem_cons_self hi
    obtain ⟨hmoves, hall⟩ := ih (fun hmem => hop (List.mem_cons_of_mem _ hmem)) (hI hstep hi)
    rw [List.foldl_cons]
    refine ⟨hstep.trans hmoves, fun b hb => ?_⟩
    rcases List.mem_cons.1 hb with rfl | hb
    · exact hG hmoves ha
    · exact hall b hb

/-- Operations one after the other that need a valid analysis only. -/
theorem moves_foldl_valid {α : Type} {op : Analysis → α → Analysis}
    (hop : ∀ {s : Analysis}, s.Valid → ∀ a, Moves w s γ (op s a) γ) (l : List α) (hv : s.Valid) :
    Moves w s γ (l.foldl op s) γ :=
  (moves_foldl op l (I := Valid) (G := fun _ _ => True) (fun h hv => h.valid hv) (fun _ _ => trivial)
    (fun {_ a} _ hv => ⟨hop hv a, trivial⟩) hv).1

/-- When nothing waits, every duty that there is a reason for is done. -/
theorem Covered.done (hc : s.Covered []) (hs : s.isSettled) {d : Duty} (ho : s.Owes d) : s.Done d := by
  simp only [isSettled, Bool.and_eq_true, Bool.not_eq_true', List.isEmpty_iff] at hs
  obtain ⟨⟨⟨_, hw⟩, hd⟩, hp⟩ := hs
  rcases hc d ho with hq | hγ | hdone
  · cases d with
    | notice d => exact absurd (hp ▸ hq : d ∈ []) List.not_mem_nil
    | task t => exact absurd (hd ▸ hq : t ∈ []) List.not_mem_nil
    | body id => exact absurd (hw ▸ hq : id ∈ []) List.not_mem_nil
    | link m => exact hq.elim
    | join site m => exact hq.elim
    | pool key => exact hq.elim
    | prepare name => exact hq.elim
  · exact absurd hγ List.not_mem_nil
  · exact hdone

end Analysis

end TypeFlow
