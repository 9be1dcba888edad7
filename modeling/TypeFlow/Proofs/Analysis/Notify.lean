import TypeFlow.Proofs.Analysis.Link

/-!
# Serving notices by steps

Serving a notice does what the notice asks for: the type joins its aggregate,
or the selector has the method that it picks among its targets, linked and
connected to all its calls. A drain serves every notice.
-/

namespace TypeFlow

namespace Analysis

variable {w : Actor} {s s' : Analysis} {γ : List Duty}

/-! ## Aggregates -/

theorem moves_aggregate {t : DeclType} (ha : w = .client ∨ s.Aggregable t) (γ : List Duty) :
    Moves w s γ (s.aggregate t).2 γ ∧ (s.aggregate t).2.aggregate? t = some (s.aggregate t).1 := by
  cases ht : s.aggregate? t with
  | some n =>
    rw [aggregate_of_some ht]
    exact ⟨.refl s γ, ht⟩
  | none =>
    refine ⟨(Step.aggregate ht ha).moves, ?_⟩
    rw [aggregate_of_none ht]
    unfold aggregate?
    rw [(not_isRoot_of_none ht).1]
    exact Table.find?_insert_self _ _ _

/-! ## Edges -/

theorem connectAll_cons (s : Analysis) (e : NodeId × NodeId) (edges : List (NodeId × NodeId)) :
    s.connectAll (e :: edges) = Analysis.connectAll { s with graph := s.graph.connect e.1 e.2 } edges := rfl

theorem moves_connectAll (edges : List (NodeId × NodeId)) (γ : List Duty)
    (he : ∀ e ∈ edges, s.Plain e.1 ∧ s.Plain e.2) :
    Moves w s γ (s.connectAll edges) γ ∧ ∀ e ∈ edges, (s.connectAll edges).graph.Flows e.1 e.2 := by
  induction edges generalizing s with
  | nil => exact ⟨.refl s γ, fun _ h => nomatch h⟩
  | cons e edges ih =>
    obtain ⟨ha, hb⟩ := he e List.mem_cons_self
    have hstep : Moves w s γ { s with graph := s.graph.connect e.1 e.2 } γ :=
      (Step.connect ha.1 hb.1 (Or.inr (Or.inl hb))).moves
    rw [connectAll_cons]
    obtain ⟨hmoves, hflows⟩ := ih (s := { s with graph := s.graph.connect e.1 e.2 }) fun e' he' =>
      ⟨hstep.grows.plain (he e' (List.mem_cons_of_mem _ he')).1,
        hstep.grows.plain (he e' (List.mem_cons_of_mem _ he')).2⟩
    refine ⟨hstep.trans hmoves, fun e' he' => ?_⟩
    rcases List.mem_cons.1 he' with rfl | he'
    · exact hmoves.grows.graph.flows (FlowGraph.flows_connect ha.1)
    · exact hflows e' he'

theorem callEdges_plain {r : MethodRecord} {site : CallSite} (hr : s.RecordValid r)
    (hn : ∀ n ∈ site.nodes, s.Plain n) : ∀ e ∈ callEdges r site, s.Plain e.1 ∧ s.Plain e.2 := by
  intro e he
  unfold callEdges at he
  simp only [List.mem_append, List.mem_singleton] at he
  rcases he with ((he | he) | he) | rfl
  · split at he
    · next node param rest _ hrec hparams =>
      rw [List.mem_singleton] at he
      subst he
      refine ⟨hn _ ?_, hr.params _ ?_⟩
      · simp [CallSite.nodes, hrec]
      · rw [hparams]
        exact List.mem_cons_self
    · cases he
  · obtain ⟨⟨arg?, param⟩, hzip, hmap⟩ := List.mem_filterMap.1 he
    obtain ⟨node, harg, rfl⟩ := Option.map_eq_some_iff.1 hmap
    obtain ⟨harg', hparam⟩ := List.of_mem_zip hzip
    subst harg
    refine ⟨hn _ ?_, hr.params _ (List.mem_of_mem_tail hparam)⟩
    simp only [CallSite.nodes, List.mem_append, List.mem_flatMap]
    exact Or.inl (Or.inl (Or.inr ⟨some node, harg', by simp⟩))
  · obtain ⟨node, hnode, rfl⟩ := List.mem_map.1 he
    refine ⟨hr.result, hn _ ?_⟩
    simp only [CallSite.nodes, List.mem_append]
    exact Or.inl (Or.inr hnode)
  · refine ⟨hr.thrown, hn _ ?_⟩
    simp [CallSite.nodes]

theorem moves_connectCall (hv : s.Valid) {callee : Nat} {r : MethodRecord} (hr : s.methods[callee]? = some r)
    {site : CallSite} (hn : ∀ n ∈ site.nodes, s.Plain n) (γ : List Duty) :
    Moves w s γ (s.connectCall site callee) γ ∧
      ∀ e ∈ callEdges r site, (s.connectCall site callee).graph.Flows e.1 e.2 := by
  have heq : s.connectCall site callee = s.connectAll (callEdges r site) := by
    unfold connectCall
    rw [hr]
  rw [heq]
  exact moves_connectAll _ γ (callEdges_plain (hv.methods.record hr) hn)

theorem moves_connectCalls (hv : s.Valid) {callee : Nat} {r : MethodRecord} (hr : s.methods[callee]? = some r)
    {sites : List CallSite} (hn : ∀ site ∈ sites, ∀ n ∈ site.nodes, s.Plain n) (γ : List Duty) :
    Moves w s γ (sites.foldl (fun s site => s.connectCall site callee) s) γ ∧
      ∀ site ∈ sites, ∀ e ∈ callEdges r site,
        (sites.foldl (fun s site => s.connectCall site callee) s).graph.Flows e.1 e.2 := by
  -- the record of the callee may grow, but its edges stay what they are
  refine moves_foldl _ sites
    (I := fun s => s.Valid ∧ (∃ r', s.methods[callee]? = some r' ∧ r.Grows r') ∧
      ∀ site ∈ sites, ∀ n ∈ site.nodes, s.Plain n)
    (G := fun s site => ∀ e ∈ callEdges r site, s.graph.Flows e.1 e.2)
    (fun h hi => ?_) (fun h hf e he => h.grows.graph.flows (hf e he)) (fun hsite hi => ?_)
    ⟨hv, ⟨r, hr, .refl r⟩, hn⟩
  · obtain ⟨hv, ⟨r₁, hr₁, hg₁⟩, hn⟩ := hi
    obtain ⟨r₂, hr₂, hg₂⟩ := h.grows.methods _ r₁ hr₁
    exact ⟨h.valid hv, ⟨r₂, hr₂, hg₁.trans hg₂⟩, fun site hsite n hmem => h.grows.plain (hn site hsite n hmem)⟩
  · obtain ⟨hv, ⟨r', hr', hg⟩, hn⟩ := hi
    obtain ⟨hmoves, hflows⟩ := moves_connectCall (w := w) hv hr' (hn _ hsite) γ
    rw [callEdges_of_grows hg] at hflows
    exact ⟨hmoves, hflows⟩

/-! ## Selectors -/

theorem admits_spec (hv : s.hierarchy.Coherent) (sel : Selector) (t : ExactType) :
    ∃ h, (s.admits sel t).2 = { s with hierarchy := h } ∧ s.hierarchy.Learns h ∧
      h.Decides (fun c => sel.filter?.all (c.isAssignable t)) (s.admits sel t).1 := by
  unfold admits
  cases sel.filter? with
  | none => exact ⟨s.hierarchy, rfl, .refl _, Hierarchy.decides_const _ true⟩
  | some declared =>
    obtain ⟨_, hdec⟩ := hv.isAssignable t declared
    exact ⟨_, rfl, s.hierarchy.learns_isAssignable t declared, hdec⟩

theorem pick_spec (hv : s.hierarchy.Coherent) (sel : Selector) (t : ExactType) :
    ∃ h, (s.pick sel t).2 = { s with hierarchy := h } ∧ s.hierarchy.Learns h ∧
      h.Decides (fun c => c.pick sel.declared sel.filter? t) (s.pick sel t).1 := by
  obtain ⟨h, hs, hl, hdec⟩ := admits_spec hv sel t
  unfold pick Catalog.pick
  cases hok : (s.admits sel t).1 with
  | false =>
    rw [hok] at hdec
    refine ⟨h, by simpa [hok] using hs, hl, fun c hc => ?_⟩
    simp only [hdec c hc, hok]
    rfl
  | true =>
    rw [hok] at hdec
    cases hd : t.dispatchClass? with
    | none =>
      refine ⟨h, by simpa [hok, hd] using hs, hl, fun c hc => ?_⟩
      simp only [hdec c hc, hok]
      rfl
    | some receiver =>
      obtain ⟨_, hdec'⟩ := (hl.coherent hv).resolveImplementation receiver sel.declared.signature
      have hl' := h.learns_ask (.implementation receiver sel.declared.signature)
      refine ⟨(h.resolveImplementation receiver sel.declared.signature).2, ?_, hl.trans hl', fun c hc => ?_⟩
      · simp only [hok, hs]
        rfl
      · have hfits : h.Fits c := fun n found hn => hc n found (hl'.retains n found hn)
        simp only [hdec c hfits, hok, hs]
        exact hdec' c hc

theorem resolveMethod_of_pick {c : Catalog} {declared : QualifiedMethod} {filter? : Option ClassName}
    {t : ExactType} {m : QualifiedMethod} (h : c.pick declared filter? t = some m) :
    c.resolveMethod m = some m := by
  unfold Catalog.pick at h
  split at h
  · obtain ⟨receiver, _, hr⟩ := Option.bind_eq_some_iff.1 h
    exact Catalog.resolveMethod_of_resolveImplementation hr
  · cases h

theorem serve_of_missing {id : SelectorId} {sel : Selector} {t : ExactType} (hs : s.selectors[id]? = some sel)
    (hp : (s.pick sel t).1 = none) : s.serve id t = (s.pick sel t).2 := by
  unfold serve
  rw [hs]
  simp only [hp]

theorem serve_of_mem {id : SelectorId} {sel : Selector} {t : ExactType} {m : QualifiedMethod}
    (hs : s.selectors[id]? = some sel) (hp : (s.pick sel t).1 = some m) (hm : m ∈ sel.targets) :
    s.serve id t = (s.pick sel t).2 := by
  unfold serve
  rw [hs]
  simp only [hp, if_pos hm]

def withTarget (s : Analysis) (id : SelectorId) (m : QualifiedMethod) : Analysis :=
  { s with selectors := s.selectors.modify id fun sel => { sel with targets := sel.targets.insert m } }

theorem serve_of_new {id : SelectorId} {sel : Selector} {t : ExactType} {m : QualifiedMethod} {callee : MethodId}
    (hs : s.selectors[id]? = some sel) (hp : (s.pick sel t).1 = some m) (hm : m ∉ sel.targets)
    (hc : (((s.pick sel t).2.withTarget id m).linkMethod m).1 = some callee) :
    s.serve id t = sel.sites.foldl (fun s site => s.connectCall site callee)
      (((s.pick sel t).2.withTarget id m).linkMethod m).2 := by
  unfold serve
  rw [hs]
  rw [withTarget] at hc
  simp only [hp, if_neg hm, hc, withTarget]

/-- A target that a selector picks joins its targets, and resolves to itself. -/
theorem moves_withTarget (hv : s.Valid) (γ : List Duty) {id : SelectorId} {sel : Selector}
    {n i : Nat} {t : ExactType}
    {m : QualifiedMethod} (hs : s.selectors[id]? = some sel) (hf : s.Feeds id n) (hi : i ∈ s.graph.held n)
    (ht : s.graph.type? i = some t) (hp : (s.pick sel t).1 = some m) (hm : m ∉ sel.targets) :
    Moves w s γ ((s.pick sel t).2.withTarget id m) (.link m :: sel.sites.map (fun site => .join site m) ++ γ) ∧
      ((s.pick sel t).2.withTarget id m).hierarchy.Decides
        (fun c => c.pick sel.declared sel.filter? t) (some m) := by
  obtain ⟨h, hpick, hl, hdec⟩ := pick_spec hv.hierarchy sel t
  rw [hp] at hdec
  have hlearn : Moves w s γ (s.pick sel t).2 γ := hpick ▸ (Step.learn hl).moves
  have hsel : (s.pick sel t).2.selectors[id]? = some sel := by
    rw [hpick]
    exact hs
  have hpicked : (s.pick sel t).2.Picked id sel m := by
    refine ⟨n, i, t, hlearn.grows.feeds hf, hlearn.grows.graph.mem_held hi, hlearn.grows.graph.type? ht, ?_⟩
    rw [hpick]
    exact hdec
  refine ⟨hlearn.tail (.target hsel hm hpicked), ?_⟩
  rw [hpick]
  exact hdec

/-- Linking a method that resolves to itself links that very method. -/
theorem linkMethod_of_self (hv : s.Valid) {m : QualifiedMethod}
    (hself : s.hierarchy.Decides (fun c => c.resolveMethod m) (some m)) :
    ∃ callee r, (s.linkMethod m).1 = some callee ∧
      (s.linkMethod m).2.methods[callee]? = some r ∧ r.reference = m := by
  obtain ⟨hlink, hnames⟩ := moves_linkMethod (w := .client) hv [] m
  have hself' := hlink.grows.decides hself
  cases hc : (s.linkMethod m).1 with
  | none =>
    rw [hc] at hnames
    exact nomatch hself'.unique hnames
  | some callee =>
    rw [hc] at hnames
    obtain ⟨r, hr, hd⟩ := hnames
    exact ⟨callee, r, rfl, hr, (Option.some.inj (hself'.unique hd)).symm⟩

theorem moves_serve_new (hv : s.Valid) (γ : List Duty) {key : SelectorKey} {id : SelectorId} {sel : Selector}
    {n i : Nat} {t : ExactType} {m : QualifiedMethod} (hs : s.selectors[id]? = some sel)
    (hvs : s.SelectorValid key id sel) (hf : s.Feeds id n) (hi : i ∈ s.graph.held n) (ht : s.graph.type? i = some t)
    (hp : (s.pick sel t).1 = some m) (hm : m ∉ sel.targets) :
    Moves w s γ (s.serve id t) γ ∧ (s.serve id t).Served (.selector id) i t := by
  obtain ⟨htarget, hdec⟩ := moves_withTarget (w := w) hv γ hs hf hi ht hp hm
  have hserved : ((s.pick sel t).2.withTarget id m).Served (.selector id) i t := by
    obtain ⟨h, hpick, -⟩ := pick_spec hv.hierarchy sel t
    refine ⟨{ sel with targets := sel.targets.insert m }, some m, ?_, hdec, fun m' hm' => ?_⟩
    · rw [hpick]
      exact getElem?_modify_self hs _
    · cases hm'
      exact OrderedSet.mem_insert.2 (Or.inr rfl)
  obtain ⟨callee, r, hc, hr, rfl⟩ :=
    linkMethod_of_self (htarget.valid hv) fun c hfits => resolveMethod_of_pick (hdec c hfits)
  have hlink := (moves_linkMethod (w := w) (htarget.valid hv)
    (.link r.reference :: sel.sites.map (fun site => .join site r.reference) ++ γ) r.reference).1
  have hlinked := htarget.trans hlink
  obtain ⟨hconnect, hflows⟩ := moves_connectCalls (w := w) (hlinked.valid hv) hr
    (fun site hsite n hn => hlinked.grows.plain (hvs.sites site hsite n hn))
    (.link r.reference :: sel.sites.map (fun site => .join site r.reference) ++ γ)
  rw [serve_of_new hs hp hm hc]
  obtain ⟨r', hr', hg⟩ := hconnect.grows.linked ⟨rfl, callee, hr⟩
  refine ⟨(hlinked.trans hconnect).tail (.fulfil fun d hd => ?_), (hlink.trans hconnect).grows.served hserved⟩
  rcases List.mem_append.1 hd with hd | hd
  · refine Or.inr ?_
    rcases List.mem_cons.1 hd with rfl | hd
    · exact ⟨r', hr'⟩
    · obtain ⟨site, hsite, rfl⟩ := List.mem_map.1 hd
      refine ⟨r', hr', fun e he => ?_⟩
      rw [callEdges_of_grows hg] at he
      exact hflows site hsite e he
  · exact Or.inl hd

theorem moves_serve (hv : s.Valid) (γ : List Duty) {id : SelectorId} {n i : Nat} {t : ExactType}
    (hf : s.Feeds id n) (hi : i ∈ s.graph.held n) (ht : s.graph.type? i = some t) :
    Moves w s γ (s.serve id t) γ ∧ (s.serve id t).Served (.selector id) i t := by
  have ⟨key, hk, _⟩ := hf
  obtain ⟨sel, hs, hvs⟩ := hv.selectors.selector hk
  obtain ⟨h, hpick, hl, hdec⟩ := pick_spec hv.hierarchy sel t
  have hlearn : Moves w s γ (s.pick sel t).2 γ := hpick ▸ (Step.learn hl).moves
  cases hp : (s.pick sel t).1 with
  | none =>
    rw [serve_of_missing hs hp]
    rw [hp] at hdec
    refine ⟨hlearn, sel, none, ?_, ?_, fun m hm => nomatch hm⟩
    · rw [hpick]
      exact hs
    · rw [hpick]
      exact hdec
  | some m =>
    rw [hp] at hdec
    by_cases hm : m ∈ sel.targets
    · rw [serve_of_mem hs hp hm]
      refine ⟨hlearn, sel, some m, ?_, ?_, fun m' hm' => ?_⟩
      · rw [hpick]
        exact hs
      · rw [hpick]
        exact hdec
      · cases hm'
        exact hm
    · exact moves_serve_new hv γ hs hvs hf hi ht hp hm

theorem moves_deliver (hv : s.Valid) (γ : List Duty) {d : Notice} (ho : s.Owes (.notice d)) :
    Moves w s γ (s.deliver d) γ ∧ (s.deliver d).Done (.notice d) := by
  obtain ⟨n, hl, hi⟩ := ho
  obtain ⟨x, hx, hhears⟩ := hv.listeners.hears hl
  obtain ⟨t, ht⟩ := FlowGraph.exists_type? (hv.graph.held hi)
  cases x with
  | observer label =>
    have heq : s.deliver d = { s with observations := s.observations ++ [(label, t)] } := by
      simp only [deliver, hx, ht]
    rw [heq]
    exact ⟨(Step.note (by rfl) _ fun _ => by rfl).moves, .observer label, t, hx, ht, trivial⟩
  | selector id =>
    have heq : s.deliver d = s.serve id t := by simp only [deliver, hx, ht]
    obtain ⟨hmoves, hserved⟩ := moves_serve (w := w) hv γ hhears hi ht
    rw [heq]
    exact ⟨hmoves, .selector id, t, hmoves.grows.listener hx, hmoves.grows.graph.type? ht, hserved⟩
  | aggregation =>
    have hroot : n = root := hhears
    subst hroot
    have heq : s.deliver d = { (s.aggregate t.toDecl).2 with
        graph := ((s.aggregate t.toDecl).2.graph.add (s.aggregate t.toDecl).1 d.type).2 } := by
      simp only [deliver, hx, ht]
    have hmem : t ∈ s.graph.types := List.mem_of_getElem? ht
    obtain ⟨hmoves, hagg⟩ := moves_aggregate (w := w) (Or.inr (Or.inl ⟨t, hmem, rfl⟩)) γ
    rw [heq]
    generalize s.aggregate t.toDecl = res at hmoves hagg ⊢
    obtain ⟨n, s₁⟩ := res
    have hi₁ := hmoves.grows.graph.mem_held hi
    have ht₁ := hmoves.grows.graph.type? ht
    have hv₁ := hmoves.valid hv
    have hgather : Step w s₁ γ { s₁ with graph := (s₁.graph.add n d.type).2 } γ := .gather hi₁ ht₁ hagg
    have hheld := FlowGraph.mem_held_add hv₁.graph (hv₁.aggregate?_lt hagg) (hv₁.graph.held hi₁)
    refine ⟨hmoves.tail hgather, .aggregation, t, ?_, ?_, n, ?_, hheld⟩
    · exact hgather.grows.listener (hmoves.grows.listener hx)
    · exact hgather.grows.graph.type? ht₁
    · exact hgather.grows.aggregate? hagg

theorem owes_of_takeNotice (hv : s.Valid) {d : Notice} {g : FlowGraph} (hg : s.graph.takeNotice = some (d, g)) :
    Analysis.Owes { s with graph := g } (.notice d) := by
  obtain ⟨n, hl, ht⟩ := (hv.graph.takeNotice hg).2
  have hgrows := (Step.takeNotice (w := .analysis) (γ := []) hg).grows
  exact ⟨n, hgrows.graph.mem_listeners hl, hgrows.graph.mem_held ht⟩

theorem drain_of_calm (h : s.graph.takeNotice = none) : s.drain = s := by
  rw [drain]
  split
  · rfl
  · next hsome =>
    rw [h] at hsome
    cases hsome

theorem drain_of_notice {d : Notice} {g : FlowGraph} (h : s.graph.takeNotice = some (d, g)) :
    s.drain = (Analysis.deliver { s with graph := g } d).drain := by
  rw [drain]
  split
  · next hnone =>
    rw [h] at hnone
    cases hnone
  · next hsome =>
    rw [h] at hsome
    cases hsome
    rfl

theorem moves_drain (hv : s.Valid) (γ : List Duty) : Moves w s γ s.drain γ := by
  fun_induction drain s with
  | case1 s hnone => exact .refl s γ
  | case2 s d g hsome ih =>
    have htake : Moves w s γ { s with graph := g } (.notice d :: γ) := (Step.takeNotice hsome).moves
    have hv₁ := htake.valid hv
    obtain ⟨hdeliver, hdone⟩ := moves_deliver (w := w) hv₁ (.notice d :: γ) (owes_of_takeNotice hv hsome)
    have hpaid : ∀ d' ∈ Duty.notice d :: γ, d' ∈ γ ∨ (Analysis.deliver { s with graph := g } d).Done d' := by
      intro d' hd'
      rcases List.mem_cons.1 hd' with rfl | hd'
      · exact Or.inr hdone
      · exact Or.inl hd'
    have hserved := (htake.trans hdeliver).tail (.fulfil hpaid)
    exact hserved.trans (ih (hserved.valid hv))

theorem pending_drain (s : Analysis) : s.drain.graph.pending = [] := by
  fun_induction drain s with
  | case1 s hnone =>
    unfold FlowGraph.takeNotice at hnone
    split at hnone
    · next hp => exact hp
    · cases hnone
  | case2 s d g hsome ih => exact ih

end Analysis

end TypeFlow
