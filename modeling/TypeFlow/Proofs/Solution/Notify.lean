import TypeFlow.Proofs.Solution.Flow

/-!
# Grounded notices

A notice brings no facts that an operation would have to name: an aggregate
that gathers a type, a target and the calls that are joined to it all follow
from what the analysis holds already.
-/

namespace TypeFlow

theorem Hierarchy.Shows.pick {h : Hierarchy} {w : World} (hs : h.Shows w) (declared : QualifiedMethod)
    (filter? : Option ClassName) (t : ExactType) :
    h.view.pick declared filter? t = w.catalog.pick declared filter? t :=
  Catalog.pick_congr hs.answer declared filter? t

namespace Analysis

variable {w : World} {o : Settings} {K : Fact → Prop} {Γ Γ' : List Fact} {s s' : Analysis} {L : NodeId → Slot}

/-! ## Aggregates -/

theorem Grounded.newAggregate (h : Grounded w o K Γ s) {t : DeclType} (ht : s.aggregate? t = none)
    (hK : K (.aggregate t)) : Brings w o K Γ [.aggregate t] s (s.aggregate t).2 := by
  have hstep : Step .client s [] (s.aggregate t).2 [] := .aggregate ht (Or.inl rfl)
  rw [aggregate_of_none ht] at hstep ⊢
  have hleads := Leads.of_grows hstep.grows
  obtain ⟨L, hL⟩ := h.labelled
  have hL' := hL.withNode (x := .aggregate t) h.valid hstep.grows rfl rfl rfl (Table.find?_insert_self _ _ _)
    fun {n y} hy => by
      cases y with
      | aggregate u =>
        exact (Table.find?_insert_cases hy).imp_right fun ⟨hu, hn⟩ => ⟨hn, congrArg Slot.aggregate hu⟩
      | _ => exact Or.inl hy
  refine ⟨h.advance hstep hleads rfl { h.sourced with aggregates := fun hu => ?_ } (fun φ hne hφ => ?_) ?_ hL',
    hleads, fun φ hφ => ?_⟩
  · rcases Table.mem_keys_insert_cases hu with hu | rfl
    · exact h.sourced.aggregates hu
    · exact hK
  · cases φ with
    | aggregate u =>
      refine (Table.mem_keys_insert_cases hφ).imp_right fun he => Or.inl (Or.inl ⟨s.graph.newNode.1, ?_⟩)
      rw [he]
      exact List.mem_append_right _ List.mem_cons_self
    | holds | flow | problem | calls | serves | target => exact absurd rfl hne
    | _ => exact Or.inl hφ
  · exact fun φ hφ => hφ.grow hstep.grows (List.Subset.refl _) (List.subset_append_left _ _) (List.Subset.refl _)
  · rw [List.mem_singleton.1 hφ]
    exact Table.mem_keys_of_find? (Table.find?_insert_self _ _ _)

theorem has_gathering {t : DeclType} {n : NodeId} (ht : s.aggregate? t = some n) :
    ∀ φ ∈ Fact.gathering t, s.Has φ := by
  intro φ hφ
  unfold Fact.gathering at hφ
  unfold Analysis.aggregate? at ht
  split at hφ
  · exact absurd hφ List.not_mem_nil
  · next hroot =>
    rw [if_neg hroot] at ht
    rw [List.mem_singleton.1 hφ]
    exact Table.mem_keys_of_find? ht

theorem Grounded.aggregate (h : Grounded w o K Γ s) {t : DeclType} (hK : ∀ φ ∈ Fact.gathering t, K φ) :
    Brings w o K Γ (Fact.gathering t) s (s.aggregate t).2 ∧
      (s.aggregate t).2.StandsFor (s.aggregate t).1 (.ofAggregate t) := by
  cases ht : s.aggregate? t with
  | some n =>
    rw [aggregate_of_some ht]
    exact ⟨.of_has h (has_gathering ht), standsFor_ofAggregate.2 ht⟩
  | none =>
    obtain ⟨hroot, -⟩ := not_isRoot_of_none ht
    have hfacts : Fact.gathering t = [.aggregate t] := by
      unfold Fact.gathering
      rw [hroot]
      rfl
    rw [hfacts] at hK ⊢
    refine ⟨h.newAggregate ht (hK _ List.mem_cons_self), standsFor_ofAggregate.2 ?_⟩
    rw [aggregate_of_none ht]
    unfold Analysis.aggregate?
    rw [hroot]
    exact Table.find?_insert_self _ _ _

/-! ## Calls -/

theorem Grounded.connectAll (h : Grounded w o K Γ s) (hK : w.catalog.Closed o K) {edges : List (NodeId × NodeId)}
    {ends : List (Slot × Slot)}
    (he : List.Forall₂ (fun e x => s.StandsFor e.1 x.1 ∧ s.StandsFor e.2 x.2) edges ends)
    (hf : ∀ φ ∈ ends.map fun x => Fact.flow x.1 x.2, K φ) :
    Brings w o K Γ (ends.map fun x => .flow x.1 x.2) s (s.connectAll edges) := by
  induction edges generalizing s ends with
  | nil =>
    cases he
    exact .refl h
  | cons e edges ih =>
    cases he with
    | cons hfirst hrest =>
      have hconnect := h.connectEdge hK hfirst.1 hfirst.2 (hf _ List.mem_cons_self)
      rw [connectAll_cons]
      refine hconnect.append (ih hconnect.grounded ?_ fun φ hφ => hf φ (List.mem_cons_of_mem _ hφ))
      exact hrest.imp fun _ _ hx => hx.imp hconnect.leads.grows.standsFor hconnect.leads.grows.standsFor

theorem Labelled.edges (hL : s.Labelled K L) {edges : List (NodeId × NodeId)}
    (hlt : ∀ e ∈ edges, s.Plain e.1 ∧ s.Plain e.2) :
    List.Forall₂ (fun e x => s.StandsFor e.1 x.1 ∧ s.StandsFor e.2 x.2) edges (edges.map (Prod.map L L)) := by
  rw [List.forall₂_map_right_iff, List.forall₂_same]
  exact fun e he => (hlt e he).imp (fun h => hL.slot h.1) fun h => hL.slot h.1

theorem Labelled.siteAt (hL : s.Labelled K L) {site : CallSite} (hn : ∀ n ∈ site.nodes, s.Plain n) :
    s.SiteAt site (site.slots L) := by
  simp only [CallSite.nodes, List.mem_append, Option.mem_toList, List.mem_flatMap, List.mem_singleton] at hn
  have hopt : ∀ {n? : Option NodeId}, (∀ n ∈ n?, s.Plain n) → Option.Rel s.StandsFor n? (n?.map L) := by
    intro n? hn
    cases n? with
    | none => exact .none
    | some n => exact .some (hL.slot (hn n rfl).1)
  refine ⟨hopt fun n hm => hn n (Or.inl (Or.inl (Or.inl hm))), ?_, hopt fun n hm => hn n (Or.inl (Or.inr hm)),
    hL.slot (hn _ (Or.inr rfl)).1⟩
  unfold CallSite.slots
  rw [List.forall₂_map_right_iff, List.forall₂_same]
  exact fun n? hn? => hopt fun n hm => hn n (Or.inl (Or.inl (Or.inr ⟨n?, hn?, hm⟩)))

theorem Labelled.params (hL : s.Labelled K L) (hv : s.Valid) {id : Nat} {r : MethodRecord}
    (hr : s.methods[id]? = some r) : r.params.map L = Slot.params r.reference := by
  have harity := (hv.methods.record hr).arity
  refine List.ext_getElem? fun i => ?_
  rw [Slot.params, List.getElem?_map, List.getElem?_map]
  cases hn : r.params[i]? with
  | none =>
    rw [List.getElem?_eq_none_iff, harity] at hn
    rw [List.getElem?_eq_none (by simpa using hn)]
    rfl
  | some n =>
    have hlt := (List.getElem?_eq_some_iff.1 hn).1
    rw [List.getElem?_range (harity ▸ hlt)]
    exact congrArg some (hL.only ⟨r, ⟨rfl, id, hr⟩, hn⟩)

theorem Grounded.joining (h : Grounded w o K Γ s) {id : Nat} {r : MethodRecord} (hr : s.methods[id]? = some r)
    (σ : SlotSite) : w.catalog.joining r.reference σ
      = (callEnds r.definition.isStatic (Slot.params r.reference) (.result r.reference)
          (.thrown r.reference) σ.receiver? σ.args σ.result? σ.thrown).map fun e => .flow e.1 e.2 := by
  unfold Catalog.joining
  rw [h.method? hr]

theorem Labelled.callEdges (hL : s.Labelled K L) (hv : s.Valid) {id : Nat} {r : MethodRecord}
    (hr : s.methods[id]? = some r) {site : CallSite} {σ : SlotSite} (hσ : s.SiteAt site σ) :
    (callEdges r site).map (Prod.map L L)
      = callEnds r.definition.isStatic (Slot.params r.reference) (.result r.reference)
          (.thrown r.reference) σ.receiver? σ.args σ.result? σ.thrown := by
  have hlinked : s.Linked r.reference r := ⟨rfl, id, hr⟩
  rw [callEdges_eq, map_callEnds, hL.params hv hr, hL.only (x := .result r.reference) ⟨r, hlinked, rfl⟩,
    hL.only (x := .thrown r.reference) ⟨r, hlinked, rfl⟩, ← hL.slots hσ]
  rfl

theorem Grounded.connectCall (h : Grounded w o K Γ s) (hK : w.catalog.Closed o K) {id : Nat} {r : MethodRecord}
    (hr : s.methods[id]? = some r) {site : CallSite} {σ : SlotSite} (hσ : s.SiteAt site σ)
    (hn : ∀ n ∈ site.nodes, s.Plain n) (hj : ∀ φ ∈ w.catalog.joining r.reference σ, K φ) :
    Brings w o K Γ (w.catalog.joining r.reference σ) s (s.connectCall site id) := by
  have heq : s.connectCall site id = s.connectAll (Analysis.callEdges r site) := by
    unfold Analysis.connectCall
    rw [hr]
  obtain ⟨L, hL⟩ := h.labelled
  have hedges := hL.edges (callEdges_plain (h.valid.methods.record hr) hn)
  rw [hL.callEdges h.valid hr hσ] at hedges
  rw [h.joining hr] at hj ⊢
  rw [heq]
  exact h.connectAll hK hedges hj

/-! ## Targets -/

theorem Valid.chooser_unique (hv : s.Valid) {id : SelectorId} {κ κ' : Chooser} (hκ : s.Answers id κ)
    (hκ' : s.Answers id κ') : κ = κ' := by
  obtain ⟨key, hk, hκ⟩ := hκ
  obtain ⟨key', hk', hκ'⟩ := hκ'
  obtain rfl := hv.selectors.key hk hk'
  exact hκ.unique hκ'

theorem Grounded.withTarget (h : Grounded w o K Γ s) {id : Nat} {sel : Selector} {κ : Chooser} {m : QualifiedMethod}
    (hs : s.selectors[id]? = some sel) (hm : m ∉ sel.targets) (hp : s.Picked id sel m) (hκ : s.Answers id κ)
    (hK : K (.target κ m)) : Brings w o K Γ [] s (s.withTarget id m) := by
  have hstep : Step .client s [] (s.withTarget id m) _ := .target hs hm hp
  have hleads : s.Leads (s.withTarget id m) := .of_grows hstep.grows
  obtain ⟨L, hL⟩ := h.labelled
  refine .of_leads (h.aside hstep hleads rfl { h.sourced with selectors := ?_, noted := ?_ }
    rfl (fun hr => hr) rfl rfl rfl rfl (fun _ hφ => hφ.same hstep.grows rfl rfl)
    ⟨L, { hL with serves := ?_ }⟩) hleads
  · intro id' sel' κ' hκ' hs'
    rcases getElem?_modify_cases hs' with ⟨-, hs'⟩ | ⟨rfl, sel₀, hs₀, rfl⟩
    · exact h.sourced.selectors hκ' hs'
    · obtain rfl := h.valid.chooser_unique hκ hκ'
      obtain ⟨hserves, htargets⟩ := h.sourced.selectors hκ hs₀
      refine ⟨hserves, fun m' hm' => ?_⟩
      rcases OrderedSet.mem_insert.1 hm' with hm' | rfl
      · exact htargets m' hm'
      · exact hK
  · intro i r key k hr hk
    have := h.sourced.noted hr hk
    simpa [Analysis.withTarget] using this
  · intro id' sel' κ' site hκ' hs' hsite
    rcases getElem?_modify_cases hs' with ⟨-, hs'⟩ | ⟨rfl, sel₀, hs₀, rfl⟩
    · exact hL.serves hκ' hs' hsite
    · exact hL.serves hκ' hs₀ hsite

/-- Joining a call that a selector serves to one of its targets brings nothing but what follows. -/
theorem Grounded.joinSite (h : Grounded w o K Γ s) (hK : w.catalog.Closed o K) {id callee : Nat} {sel : Selector}
    {κ : Chooser} {r : MethodRecord} {site : CallSite} (hκ : s.Answers id κ) (hs : s.selectors[id]? = some sel)
    (hsite : site ∈ sel.sites) (hr : s.methods[callee]? = some r) (hm : K (.target κ r.reference)) :
    ∃ σ, s.SiteAt site σ ∧ Brings w o K Γ (w.catalog.joining r.reference σ) s (s.connectCall site callee) := by
  have hnodes := h.valid.site_plain hκ hs hsite
  obtain ⟨L, hL⟩ := h.labelled
  have hσ := hL.siteAt hnodes
  exact ⟨_, hσ, h.connectCall hK hr hσ hnodes fun φ hφ => hK.join hm (hL.serves hκ hs hsite) hφ⟩

structure Serving (id callee : Nat) (κ : Chooser) (sel : Selector) (m : QualifiedMethod) (s : Analysis) : Prop where
  answers : s.Answers id κ
  selector : ∃ sel', s.selectors[id]? = some sel' ∧ sel.Grows sel'
  callee : ∃ r, s.methods[callee]? = some r ∧ r.reference = m

theorem Serving.leads {id callee : Nat} {κ : Chooser} {sel : Selector} {m : QualifiedMethod}
    (h : Serving id callee κ sel m s) (hl : s.Leads s') : Serving id callee κ sel m s' where
  answers := hl.grows.answers h.answers
  selector := by
    obtain ⟨sel', hs, hg⟩ := h.selector
    obtain ⟨sel'', hs', hg'⟩ := hl.grows.selectors _ sel' hs
    exact ⟨sel'', hs', hg.trans hg'⟩
  callee := by
    obtain ⟨r, hr, hm⟩ := h.callee
    obtain ⟨r', hr', hg⟩ := hl.grows.methods _ r hr
    exact ⟨r', hr', hg.reference.trans hm⟩

theorem Grounded.serveNew (h : Grounded w o K Γ s) (hK : w.catalog.Closed o K) {id : Nat} {sel : Selector}
    {κ : Chooser} {t : ExactType} {m : QualifiedMethod} (hs : s.selectors[id]? = some sel) (hκ : s.Answers id κ)
    (hp : (s.pick sel t).1 = some m) (hm : m ∉ sel.targets) (hpicked : (s.pick sel t).2.Picked id sel m)
    (hself : w.catalog.resolveMethod m = some m) (ht : K (.target κ m)) : Brings w o K Γ [] s (s.serve id t) := by
  obtain ⟨hier, hpick, hl, -⟩ := pick_spec h.valid.hierarchy sel t
  have hlearn : Brings w o K Γ [] s (s.pick sel t).2 := hpick ▸ h.learn hl
  have hsel : (s.pick sel t).2.selectors[id]? = some sel := hpick ▸ hs
  have htarget := hlearn.grounded.withTarget hsel hm hpicked (hlearn.leads.grows.answers hκ) ht
  have hlinking : ∀ φ ∈ w.catalog.linking m, K φ := by
    rw [linking_of_some hself]
    exact fun φ hφ => List.mem_singleton.1 hφ ▸ hK.link ht
  have hlink := htarget.grounded.linkMethod hK hlinking
  have hnames := (moves_linkMethod (w := .client) htarget.grounded.valid [] m).2
  have hleads := hlearn.leads.trans (htarget.leads.trans hlink.leads)
  cases hc : (((s.pick sel t).2.withTarget id m).linkMethod m).1 with
  | none =>
    rw [hc] at hnames
    cases hself.symm.trans (hlink.grounded.resolveMethod_of_names_none hnames)
  | some callee =>
    rw [hc] at hnames
    obtain ⟨r, hr, hd⟩ := hlink.grounded.resolveMethod_of_names hnames
    obtain rfl : m = r.reference := Option.some.inj (hself.symm.trans hd)
    have hserving : Serving id callee κ sel r.reference (((s.pick sel t).2.withTarget id r.reference).linkMethod
        r.reference).2 :=
      ⟨hleads.grows.answers hκ, hleads.grows.selectors _ sel hs, r, hr, rfl⟩
    rw [serve_of_new hs hp hm hc]
    have hjoin : Brings w o K Γ (sel.sites.flatMap fun _ => []) _ _ := Brings.foldl
      (P := Serving id callee κ sel r.reference) (fun hl hserving => hserving.leads hl)
        sel.sites hlink.grounded hserving
      fun {s site} hsite h hserving => by
        obtain ⟨sel', hs', hg⟩ := hserving.selector
        obtain ⟨r', hr', hm'⟩ := hserving.callee
        obtain ⟨σ, -, hbrings⟩ := h.joinSite hK hserving.answers hs' (hg.sites.subset hsite) hr' (hm' ▸ ht)
        exact hbrings.forget
    exact .after hleads hjoin.forget

theorem Grounded.serve (h : Grounded w o K Γ s) (hK : w.catalog.Closed o K) {id : SelectorId} {n i : Nat}
    {t : ExactType} (hf : s.Feeds id n) (hi : i ∈ s.graph.held n) (ht : s.graph.type? i = some t) :
    Brings w o K Γ [] s (s.serve id t) := by
  have ⟨key, hk, hfeed⟩ := hf
  obtain ⟨sel, hs, hvs⟩ := h.valid.selectors.selector hk
  obtain ⟨κ, hκ⟩ := h.valid.exists_chosen hk
  obtain ⟨hier, hpick, hl, hdec⟩ := pick_spec h.valid.hierarchy sel t
  have hlearn : Brings w o K Γ [] s (s.pick sel t).2 := hpick ▸ h.learn hl
  cases hp : (s.pick sel t).1 with
  | none => rwa [serve_of_missing hs hp]
  | some m =>
    by_cases hm : m ∈ sel.targets
    · rwa [serve_of_mem hs hp hm]
    · rw [hp] at hdec
      obtain ⟨σ, hserves⟩ := (h.sourced.selectors ⟨key, hk, hκ⟩ hs).1
      have hholds : K (.holds κ.feed t) := by
        obtain ⟨L, hL⟩ := h.labelled
        rw [← hL.only ((hκ.standsFor_feed h.valid.methods).2 hfeed)]
        exact hL.holds (FlowGraph.mem_typesAt.2 ⟨i, hi, ht⟩)
      have hworld : w.catalog.pick κ.declared κ.filter? t = some m := by
        rw [hκ.declared, hκ.filter?, ← hvs.declared, ← hvs.filter?, ← (h.shows.learns hl).pick]
        exact hdec.view
      refine h.serveNew hK hs ⟨key, hk, hκ⟩ hp hm ?_ (resolveMethod_of_pick hworld)
        (hK.choose hserves hholds hworld)
      refine ⟨n, i, t, hlearn.leads.grows.feeds hf, hlearn.leads.grows.graph.mem_held hi,
        hlearn.leads.grows.graph.type? ht, ?_⟩
      rw [hpick]
      exact hdec

/-! ## Notices -/

theorem Grounded.deliver (h : Grounded w o K Γ s) (hK : w.catalog.Closed o K) {d : Notice}
    (ho : s.Owes (.notice d)) : Brings w o K Γ [] s (s.deliver d) := by
  obtain ⟨n, hl, hi⟩ := ho
  obtain ⟨x, hx, hhears⟩ := h.valid.listeners.hears hl
  obtain ⟨t, ht⟩ := FlowGraph.exists_type? (h.valid.graph.held hi)
  cases x with
  | observer label =>
    have heq : s.deliver d = { s with observations := s.observations ++ [(label, t)] } := by
      simp only [Analysis.deliver, hx, ht]
    rw [heq]
    exact h.note rfl _
  | selector id =>
    have heq : s.deliver d = s.serve id t := by simp only [Analysis.deliver, hx, ht]
    rw [heq]
    exact h.serve hK hhears hi ht
  | aggregation =>
    have hroot : n = root := hhears
    subst hroot
    have heq : s.deliver d = { (s.aggregate t.toDecl).2 with
        graph := ((s.aggregate t.toDecl).2.graph.add (s.aggregate t.toDecl).1 d.type).2 } := by
      simp only [Analysis.deliver, hx, ht]
    have hholds : K (.holds .root t) := by
      obtain ⟨L, hL⟩ := h.labelled
      rw [← hL.only (x := .root) rfl]
      exact hL.holds (FlowGraph.mem_typesAt.2 ⟨d.type, hi, ht⟩)
    obtain ⟨hagg, hslot⟩ := h.aggregate fun φ hφ => hK.aggregate hholds hφ
    have hgather := hagg.grounded.gather hK (hagg.leads.grows.graph.mem_held hi)
      (hagg.leads.grows.graph.type? ht) hslot
    rw [heq]
    exact .after hagg.leads hgather

theorem Grounded.drain (h : Grounded w o K Γ s) (hK : w.catalog.Closed o K) : Brings w o K Γ [] s s.drain := by
  fun_induction Analysis.drain s with
  | case1 s hnone => exact .refl h
  | case2 s d g hsome ih =>
    have htake := h.takeNotice hsome
    have hdeliver := htake.grounded.deliver hK (owes_of_takeNotice h.valid hsome)
    exact .after (htake.leads.trans hdeliver.leads) (ih hdeliver.grounded)

theorem Grounded.connect (h : Grounded w o K Γ s) (hK : w.catalog.Closed o K) {a b : Nat} {x y : Slot}
    (ha : s.StandsFor a x) (hb : s.StandsFor b y) (hf : K (.flow x y)) :
    Brings w o K Γ [.flow x y] s (s.connect a b) := by
  have hedge := h.connectEdge hK ha hb hf
  exact hedge.before (hedge.grounded.drain hK)

theorem Grounded.listen (h : Grounded w o K Γ s) (hK : w.catalog.Closed o K) {n : Nat} {l : ListenerId}
    (hstep : ∃ γ γ', Step .client s γ { s with graph := s.graph.listen n l } γ') :
    Brings w o K Γ [] s (s.listen n l) := by
  obtain ⟨γ, γ', hstep⟩ := hstep
  have hlisten := h.quiet hstep (fun _ => FlowGraph.held_listen _) (fun _ => FlowGraph.out_listen _)
    FlowGraph.types_listen FlowGraph.size_listen
  exact .after hlisten.leads (hlisten.grounded.drain hK)

theorem Grounded.linkElement (h : Grounded w o K Γ s) (hK : w.catalog.Closed o K) {t : ExactType}
    (ht : ∀ φ ∈ Fact.naming t.element, K φ) : Brings w o K Γ (Fact.naming t.element) s (s.linkElement t) := by
  unfold Analysis.linkElement Fact.naming at *
  split
  · next n hn =>
    rw [hn] at ht ⊢
    exact (h.linkClass hK (ht _ List.mem_cons_self)).1
  · next hn =>
    rw [hn]
    exact .refl h

theorem Grounded.instantiate (h : Grounded w o K Γ s) (hK : w.catalog.Closed o K) {n : Nat} {x : Slot}
    {t : ExactType} (hn : s.StandsFor n x) (ht : ∀ φ ∈ Fact.appear (some x) t, K φ) :
    Brings w o K Γ (Fact.appear (some x) t) s (s.instantiate n t) := by
  have hlink := h.linkElement hK fun φ hφ => ht φ (List.mem_append_left _ hφ)
  have htype := hlink.grounded.withType hK (hlink.leads.grows.standsFor hn)
    (ht _ (List.mem_append_right _ List.mem_cons_self))
    (ht _ (List.mem_append_right _ (List.mem_cons_of_mem _ List.mem_cons_self)))
    fun _ => mem_keys_linkElement
  rw [instantiate_eq]
  exact (hlink.append htype).before (htype.grounded.drain hK)

end Analysis

end TypeFlow
