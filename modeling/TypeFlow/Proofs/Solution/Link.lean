import TypeFlow.Proofs.Analysis.Link
import TypeFlow.Proofs.Solution.Grounded

/-!
# Grounded linking

Linking brings the facts of a name: a class with everything above it, the
method or field that is declared, or a problem. Initialising a class brings
the chain of its superclasses.
-/

namespace TypeFlow

namespace Analysis

variable {w : World} {o : Settings} {K : Fact → Prop} {Γ Γ' : List Fact} {s s' : Analysis} {L : NodeId → Slot}

/-! ## What the world says -/

theorem Grounded.resolveMethod (h : Grounded w o K Γ s) (m : QualifiedMethod) :
    s.hierarchy.view.resolveMethod m = w.catalog.resolveMethod m :=
  congrArg _ (h.shows.answer _)

theorem Grounded.resolveField (h : Grounded w o K Γ s) (f : QualifiedField) :
    s.hierarchy.view.resolveField f = w.catalog.resolveField f :=
  congrArg _ (h.shows.answer _)

theorem Grounded.method? (h : Grounded w o K Γ s) {id : Nat} {r : MethodRecord} (hr : s.methods[id]? = some r) :
    w.catalog.method? r.reference = some r.definition := by
  rw [← (h.valid.methods.record hr).method?]
  exact congrArg (Option.bind · _) (h.shows.lookup _).symm

theorem Grounded.resolveMethod_of_names (h : Grounded w o K Γ s) {m : QualifiedMethod} {id : MethodId}
    (hn : s.Names m (some id)) :
    ∃ r, s.methods[id]? = some r ∧ w.catalog.resolveMethod m = some r.reference := by
  obtain ⟨r, hr, hd⟩ := hn
  exact ⟨r, hr, (h.resolveMethod m).symm.trans hd.view⟩

theorem Grounded.resolveMethod_of_names_none (h : Grounded w o K Γ s) {m : QualifiedMethod} (hn : s.Names m none) :
    w.catalog.resolveMethod m = none := (h.resolveMethod m).symm.trans (Hierarchy.Decides.view hn)

/-! ## Classes -/

theorem Grounded.learn (h : Grounded w o K Γ s) {hier : Hierarchy} (hl : s.hierarchy.Learns hier) :
    Brings w o K Γ [] s { s with hierarchy := hier } := by
  have hstep : Step .client s [] { s with hierarchy := hier } [] := .learn hl
  exact h.unseen hstep fun φ hφ => hφ.same hstep.grows rfl rfl

theorem Grounded.report (h : Grounded w o K Γ s) {p : Problem} (hp : K (.problem p)) (hw : s.Warrants p) :
    Brings w o K Γ [.problem p] s (s.report p) := by
  have hstep : Step .driver s [] (s.report p) [] := .report hw (Or.inl rfl)
  have hleads := Leads.of_grows hstep.grows
  obtain ⟨L, hL⟩ := h.labelled
  refine ⟨h.aside hstep hleads rfl { h.sourced with problems := fun hmem => ?_ } rfl id rfl rfl rfl rfl ?_
    ⟨L, { hL with }⟩, hleads, fun φ hφ => ?_⟩
  · rcases OrderedSet.mem_insert.1 hmem with hmem | rfl
    · exact h.sourced.problems hmem
    · exact hp
  · exact fun φ hφ => hφ.same hstep.grows rfl rfl
  · rw [List.mem_singleton] at hφ
    exact hφ ▸ OrderedSet.mem_insert.2 (Or.inr rfl)

theorem mem_keys_of_classes {n : ClassName} : s.Has (.cls n) ↔ ∃ r, s.classes.find? n = some r :=
  Table.find?_isSome_iff.symm.trans Option.isSome_iff_exists

theorem Grounded.brings_linkNew (h : Grounded w o K Γ s) (hK : w.catalog.Closed o K) {n : ClassName}
    (hn : K (.cls n)) (hnew : n ∉ s.classes.keys) : Brings w o K Γ [.cls n] s (s.linkClass n).2 := by
  have hstep : Step .client s [] (s.linkClass n).2 [] := .linkClass s [] n
  obtain ⟨hier, c, p, hs, hfind, hproblems, -⟩ := linkClass_new hnew
  rw [hs] at hstep ⊢
  have hfound : ∀ m, m ∈ s.hierarchy.view.traverse .stack ClassDef.supertypes s.classes.keys [n] → K (.cls m) := by
    intro m hm
    refine Catalog.traverse_induction (P := fun m => K (.cls m)) (fun {k m} hk hm => ?_) (fun k hk => ?_) hm
    · cases hd : s.hierarchy.lookup k with
      | none => simp [Catalog.successors, Hierarchy.view, hd] at hm
      | some d =>
        refine hK.follows hk ?_
        have hd' : w.catalog.find? k = some d := (h.shows.lookup k).symm.trans hd
        rw [Catalog.consequences, hd']
        exact List.mem_map_of_mem (by simpa [Catalog.successors, Hierarchy.view, hd] using hm)
    · exact List.mem_singleton.1 hk ▸ hn
  have hkeys : ∀ m, m ∈ c.keys ↔
      m ∈ s.hierarchy.view.traverse .stack ClassDef.supertypes s.classes.keys [n] ∨ m ∈ s.classes.keys := by
    intro m
    rw [← Table.find?_isSome_iff, ← Table.find?_isSome_iff, hfind]
    split
    · next hm => simp [hm]
    · next hm => simp [hm]
  have hleads := Leads.of_grows hstep.grows
  obtain ⟨L, hL⟩ := h.labelled
  refine ⟨h.advance hstep hleads rfl { h.sourced with classes := ?_, problems := ?_ } ?_ ?_
    ⟨L, { hL with }⟩, hleads, ?_⟩
  · intro m r hr
    have hr := (hfind m).symm.trans hr
    split at hr
    · next hm =>
      cases hr
      exact ⟨hfound m hm, fun hi => absurd hi Bool.false_ne_true, congrArg Option.isNone (h.shows.lookup m)⟩
    · exact h.sourced.classes hr
  · intro q hq
    rcases (hproblems q).1 hq with hq | ⟨m, hm, hmissing, rfl⟩
    · exact h.sourced.problems hq
    · refine hK.follows (hfound m hm) ?_
      have hmissing' : w.catalog.find? m = none := (h.shows.lookup m).symm.trans hmissing
      rw [Catalog.consequences, hmissing']
      exact List.mem_cons_self
  · intro φ hne hφ
    cases φ with
    | cls m =>
      rcases (hkeys m).1 hφ with hm | hm
      · refine Or.inr (Or.inr fun ψ hψ => ?_)
        have hlookup : w.catalog.find? m = s.hierarchy.lookup m := (h.shows.lookup m).symm
        rw [Catalog.consequences, hlookup] at hψ
        cases hd : s.hierarchy.lookup m with
        | none =>
          rw [hd] at hψ
          rw [List.mem_singleton.1 hψ]
          exact (hproblems _).2 (Or.inr ⟨m, hm, hd, rfl⟩)
        | some d =>
          rw [hd] at hψ
          obtain ⟨k, hk, rfl⟩ := List.mem_map.1 hψ
          have hsucc : k ∈ s.hierarchy.view.successors ClassDef.supertypes m := by
            simpa [Catalog.successors, Hierarchy.view, hd] using hk
          exact (hkeys k).2 (Catalog.traverse_closed hm hsucc).symm
      · exact Or.inl hm
    | initialized m =>
      obtain ⟨r, hr, hi⟩ := hφ
      have hr := (hfind m).symm.trans hr
      split at hr
      · cases hr
        cases hi
      · exact Or.inl ⟨r, hr, hi⟩
    | holds | flow | problem | calls | serves | target => exact absurd rfl hne
    | _ => exact Or.inl hφ
  · exact fun φ hφ => hφ.same hstep.grows rfl rfl
  · intro φ hφ
    rw [List.mem_singleton.1 hφ]
    exact (hkeys n).2 (Catalog.mem_traverse_of_mem_work List.mem_cons_self).symm

theorem Grounded.isPresent (h : Grounded w o K Γ s) {n : ClassName} (hn : s.Has (.cls n)) :
    s.isPresent n = (w.catalog.find? n).isSome := by
  obtain ⟨r, hr⟩ := mem_keys_of_classes.1 hn
  unfold Analysis.isPresent
  rw [hr, Option.any_some, (h.sourced.classes hr).2.2, Option.not_isNone]
  rfl

theorem Grounded.linkClass (h : Grounded w o K Γ s) (hK : w.catalog.Closed o K) {n : ClassName} (hn : K (.cls n)) :
    Brings w o K Γ [.cls n] s (s.linkClass n).2 ∧ (s.linkClass n).1 = (w.catalog.find? n).isSome := by
  have hlink : Brings w o K Γ [.cls n] s (s.linkClass n).2 := by
    by_cases hmem : n ∈ s.classes.keys
    · rw [linkClass_of_mem hmem]
      exact .of_has h fun φ hφ => List.mem_singleton.1 hφ ▸ hmem
    · exact h.brings_linkNew hK hn hmem
  refine ⟨hlink, (linkClass_fst s n).trans (hlink.grounded.isPresent ?_)⟩
  exact hlink.has _ List.mem_cons_self

/-! ## Methods -/

theorem Grounded.aliasMethod (h : Grounded w o K Γ s) {m : QualifiedMethod} {id : Nat} {r : MethodRecord}
    (hm : s.methodId? m = none) (hr : s.methods[id]? = some r)
    (hd : s.hierarchy.Decides (fun c => c.resolveMethod m) (some r.reference)) (hK : K (.named m)) :
    Brings w o K Γ [.named m] s { s with aliases := s.aliases.insert m id } := by
  have hstep : Step .client s [] { s with aliases := s.aliases.insert m id } [] := .aliasMethod hm hr hd
  have hleads : s.Leads { s with aliases := s.aliases.insert m id } := .of_grows hstep.grows
  have hself : ∀ ψ ∈ w.catalog.consequences o (.named r.reference), s.Has ψ :=
    (h.kept (.named r.reference) (Or.inl ⟨r, rfl, id, hr⟩)).resolve_left fun hw => hw
  have htarget : w.catalog.resolveMethod m = some r.reference := (h.resolveMethod m).symm.trans hd.view
  have hsame : w.catalog.consequences o (.named m) = w.catalog.consequences o (.named r.reference) := by
    simp only [Catalog.consequences, htarget, Catalog.resolveMethod_idem htarget]
  obtain ⟨L, hL⟩ := h.labelled
  refine ⟨h.advance hstep hleads rfl { h.sourced with aliases := fun hk => ?_ } (fun φ hne hφ => ?_) ?_
    ⟨L, { hL with }⟩, hleads, fun φ hφ => ?_⟩
  · rcases Table.mem_keys_insert_cases hk with hk | rfl
    · exact h.sourced.aliases hk
    · exact hK
  · cases φ with
    | named k =>
      have hold : s.Has (.named k) ∨ k = m := by
        rcases hφ with hr | hk
        · exact Or.inl (Or.inl hr)
        · exact (Table.mem_keys_insert_cases hk).imp_left Or.inr
      -- what the declared method brought along is all that follows
      refine hold.imp_right fun he => Or.inr fun ψ hψ => hleads.has (hself ψ ?_)
      rwa [he, hsame] at hψ
    | holds | flow | problem | calls | serves | target => exact absurd rfl hne
    | _ => exact Or.inl hφ
  · exact fun φ hφ => hφ.same hstep.grows rfl rfl
  · rw [List.mem_singleton.1 hφ]
    exact Or.inr (Table.mem_keys_of_find? (Table.find?_insert_self _ _ _))

def recordSlot (s : Analysis) (m : QualifiedMethod) (n : Nat) : Slot :=
  if n < s.graph.nodes.size + (m.signature.params.length + 1) then .param m (n - s.graph.nodes.size)
  else if n = s.graph.nodes.size + (m.signature.params.length + 1) then .result m
  else .thrown m

theorem linked_push {r₀ : MethodRecord} {m : QualifiedMethod} {r : MethodRecord}
    (hm : s'.methods = s.methods.push r₀) : s'.Linked m r ↔ s.Linked m r ∨ r₀.reference = m ∧ r = r₀ := by
  constructor
  · rintro ⟨href, id, hr⟩
    rw [hm] at hr
    rcases getElem?_push_cases hr with hr | ⟨-, rfl⟩
    · exact Or.inl ⟨href, id, hr⟩
    · exact Or.inr ⟨href, rfl⟩
  · rintro (⟨href, id, hr⟩ | ⟨href, rfl⟩)
    · have hlt := (Array.getElem?_eq_some_iff.1 hr).1
      refine ⟨href, id, ?_⟩
      rw [hm, Array.getElem?_push, if_neg (Nat.ne_of_lt hlt)]
      exact hr
    · exact ⟨href, s.methods.size, by rw [hm, Array.getElem?_push, if_pos rfl]⟩

theorem result_newRecord (s : Analysis) (m : QualifiedMethod) (d : ClassDef) (f : MethodDef) :
    @Eq Nat (s.newRecord m d f).result (s.graph.nodes.size + (m.signature.params.length + 1)) :=
  FlowGraph.size_newNodes _ _

theorem thrown_newRecord (s : Analysis) (m : QualifiedMethod) (d : ClassDef) (f : MethodDef) :
    @Eq Nat (s.newRecord m d f).thrown (s.graph.nodes.size + (m.signature.params.length + 1) + 1) :=
  (FlowGraph.size_newNode _).trans (congrArg (· + 1) (FlowGraph.size_newNodes _ _))

/-- What an old slot stands for does not change when a record is added. -/
theorem standsFor_recordMethod {m : QualifiedMethod} {d : ClassDef} {f : MethodDef} {n : Nat} {x : Slot}
    (hx : (s.recordMethod m d f).2.StandsFor n x) :
    s.StandsFor n x ∨ s.graph.nodes.size ≤ n ∧ s.recordSlot m n = x := by
  have hlinked : ∀ {k r}, (s.recordMethod m d f).2.Linked k r → s.Linked k r ∨ m = k ∧ r = s.newRecord m d f :=
    fun hr => (linked_push rfl).1 hr
  have hresult := s.result_newRecord m d f
  have hthrown := s.thrown_newRecord m d f
  unfold recordSlot
  cases x with
  | param k i =>
    obtain ⟨r, hr, hn⟩ := hx
    rcases hlinked hr with hr | ⟨rfl, rfl⟩
    · exact Or.inl ⟨r, hr, hn⟩
    · obtain ⟨hi, rfl⟩ := FlowGraph.getElem?_newNodes hn
      rw [if_pos (Nat.add_lt_add_left hi _), Nat.add_sub_cancel_left]
      exact Or.inr ⟨Nat.le_add_right _ _, rfl⟩
  | result k =>
    obtain ⟨r, hr, hn⟩ := hx
    rcases hlinked hr with hr | ⟨rfl, rfl⟩
    · exact Or.inl ⟨r, hr, hn⟩
    · obtain rfl : _ = n := hresult.symm.trans hn
      rw [if_neg (Nat.lt_irrefl _), if_pos rfl]
      exact Or.inr ⟨Nat.le_add_right _ _, rfl⟩
  | thrown k =>
    obtain ⟨r, hr, hn⟩ := hx
    rcases hlinked hr with hr | ⟨rfl, rfl⟩
    · exact Or.inl ⟨r, hr, hn⟩
    · obtain rfl : _ = n := hthrown.symm.trans hn
      rw [if_neg (by omega), if_neg (by omega)]
      exact Or.inr ⟨by omega, rfl⟩
  | var k v =>
    obtain ⟨r, hr, hn⟩ := hx
    rcases hlinked hr with hr | ⟨rfl, rfl⟩
    · exact Or.inl ⟨r, hr, hn⟩
    · simp [newRecord] at hn
  | _ => exact Or.inl hx

theorem standsFor_recordSlot {m : QualifiedMethod} {d : ClassDef} {f : MethodDef} {n : Nat}
    (hle : s.graph.nodes.size ≤ n) (hn : n < (s.recordMethod m d f).2.graph.nodes.size) :
    (s.recordMethod m d f).2.StandsFor n (s.recordSlot m n) := by
  have hnew : (s.recordMethod m d f).2.Linked m (s.newRecord m d f) := (linked_push rfl).2 (Or.inr ⟨rfl, rfl⟩)
  rw [recordMethod_eq] at hn
  simp only [FlowGraph.size_newNode, FlowGraph.size_newNodes] at hn
  unfold recordSlot
  split
  · next hlt =>
    have hi : n - s.graph.nodes.size < m.signature.params.length + 1 := by omega
    exact ⟨_, hnew, (FlowGraph.newNodes_getElem? hi).trans (congrArg some (Nat.add_sub_cancel' hle))⟩
  · split
    · next heq => exact ⟨_, hnew, (s.result_newRecord m d f).trans heq.symm⟩
    · have hthrown : n = s.graph.nodes.size + (m.signature.params.length + 1) + 1 := by omega
      exact ⟨_, hnew, (s.thrown_newRecord m d f).trans hthrown.symm⟩

theorem Grounded.recordMethod (h : Grounded w o K Γ s) {m : QualifiedMethod} {d : ClassDef} {f : MethodDef}
    (hm : s.declarationId? m = none) (hd : s.hierarchy.classes.find? m.owner = some (some d))
    (hf : d.method? m.signature = some f) (hK : K (.method m)) (hn : K (.named m)) (hc : s.Has (.cls m.owner)) :
    Brings w o K Γ [.named m] s (s.recordMethod m d f).2 := by
  have hstep : Step .client s [] (s.recordMethod m d f).2 [] := .recordMethod hm hd hf hc
  have hleads : s.Leads (s.recordMethod m d f).2 := .of_grows hstep.grows
  have hlinked : ∀ {k r}, (s.recordMethod m d f).2.Linked k r ↔ s.Linked k r ∨ m = k ∧ r = s.newRecord m d f :=
    fun {k r} => @linked_push s _ (s.newRecord m d f) k r rfl
  have hnew : (s.recordMethod m d f).2.Has (.method m) := ⟨_, hlinked.2 (Or.inr ⟨rfl, rfl⟩)⟩
  have hself : w.catalog.resolveMethod m = some m :=
    Catalog.resolveMethod_self ((h.shows.lookup _).symm.trans (Hierarchy.lookup_of_find? hd)) hf
  have hfollows : ∀ ψ ∈ w.catalog.consequences o (.named m), (s.recordMethod m d f).2.Has ψ := by
    intro ψ hψ
    rw [Catalog.consequences, hself] at hψ
    simp only [List.mem_cons, List.not_mem_nil, or_false] at hψ
    rcases hψ with rfl | rfl | rfl
    · exact hleads.has hc
    · exact hnew
    · exact Or.inl hnew
  obtain ⟨L, hL⟩ := h.labelled
  have hL' := hL.extend h.valid hstep.grows rfl rfl (fun n => FlowGraph.typesAt_congr ?_ ?_) (fun n => ?_)
    (s.recordSlot m) standsFor_recordSlot standsFor_recordMethod
  · refine ⟨h.advance hstep hleads rfl
      { h.sourced with methods := ?_, selectors := ?_, noted := ?_, calls := ?_ } ?_ ?_ ⟨_, hL'⟩, hleads, ?_⟩
    · intro id r hr
      rcases getElem?_push_cases hr with hr | ⟨-, rfl⟩
      · exact h.sourced.methods hr
      · exact ⟨hK, hn, nofun⟩
    · exact fun hκ => h.sourced.selectors (h.valid.answers_of_same hstep.grows rfl hκ)
    · intro id r key k hr hk
      rcases getElem?_push_cases hr with hr | ⟨-, rfl⟩
      · exact h.sourced.noted hr hk
      · cases hk
    · intro id r key k κ hr hk hκ
      have hκ := h.valid.answers_of_same hstep.grows rfl hκ
      rcases getElem?_push_cases hr with hr | ⟨-, rfl⟩
      · exact h.sourced.calls hr hk hκ
      · cases hk
    · intro φ hne hφ
      cases φ with
      | method k =>
        obtain ⟨r, hr⟩ := hφ
        rcases hlinked.1 hr with hr | ⟨rfl, rfl⟩
        · exact Or.inl ⟨r, hr⟩
        · exact Or.inr (Or.inl (Or.inl ⟨s.methods.size, List.mem_append_right _ List.mem_cons_self,
            s.newRecord m d f, Array.getElem?_push_size, rfl⟩))
      | named k =>
        rcases hφ with ⟨r, hr⟩ | hk
        · rcases hlinked.1 hr with hr | ⟨rfl, rfl⟩
          · exact Or.inl (Or.inl ⟨r, hr⟩)
          · exact Or.inr (Or.inr hfollows)
        · exact Or.inl (Or.inr hk)
      | holds | flow | problem | calls | serves | target => exact absurd rfl hne
      | _ => exact Or.inl hφ
    · exact fun φ hφ => hφ.grow hstep.grows (List.subset_append_left _ _) (List.Subset.refl _) (List.Subset.refl _)
    · intro φ hφ
      exact List.mem_singleton.1 hφ ▸ Or.inl hnew
  · rw [recordMethod_eq]
    simp only [FlowGraph.held_newNode, FlowGraph.held_newNodes]
  · exact FlowGraph.types_newNodes _ _
  · rw [recordMethod_eq]
    simp only [FlowGraph.out_newNode]
    exact FlowGraph.newNodes_keeps _ (fun g => g.out n) (fun g => FlowGraph.out_newNode g n) _

theorem has_named_of_methodId? {m : QualifiedMethod} {id : MethodId}
    (hm : s.methodId? m = some id) : s.Has (.named m) :=
  isSome_methodId?_iff.1 (Option.isSome_of_eq_some hm)

theorem linking_of_some {c : Catalog} {m target : QualifiedMethod} (hr : c.resolveMethod m = some target) :
    c.linking m = [.named m] := by
  unfold Catalog.linking
  rw [hr]

theorem Grounded.linkMethod (h : Grounded w o K Γ s) (hK : w.catalog.Closed o K) {m : QualifiedMethod}
    (hm : ∀ φ ∈ w.catalog.linking m, K φ) : Brings w o K Γ (w.catalog.linking m) s (s.linkMethod m).2 := by
  cases hid : s.methodId? m with
  | some id =>
    obtain ⟨r, -, hr⟩ := h.resolveMethod_of_names (h.valid.methods.names_of_methodId? hid)
    rw [linkMethod_of_known hid, linking_of_some hr]
    exact .of_has h fun φ hφ => List.mem_singleton.1 hφ ▸ has_named_of_methodId? hid
  | none =>
    obtain ⟨hasked, hdec⟩ := h.valid.hierarchy.resolveMethod m
    have hlearn : Brings w o K Γ [] s (s.askedMethod m) :=
      h.learn (s.hierarchy.learns_ask (.declaration m.owner m.signature))
    have hworld : (s.hierarchy.resolveMethod m).1 = w.catalog.resolveMethod m := hasked.trans (h.resolveMethod m)
    cases hr : (s.hierarchy.resolveMethod m).1 with
    | none =>
      have hlinking : w.catalog.linking m
          = .cls m.owner :: if (w.catalog.find? m.owner).isSome then [.problem (.missingMethod m)] else [] := by
        unfold Catalog.linking
        rw [← hworld, hr]
      rw [hlinking] at hm
      rw [linkMethod_of_nothing hid hr, hlinking]
      obtain ⟨hlink, hpresent⟩ := hlearn.grounded.linkClass hK (hm _ List.mem_cons_self)
      have hboth := hlearn.append hlink
      rw [show ((s.askedMethod m).linkClass m.owner).1 = _ from hpresent]
      split
      · next hp =>
        rw [if_pos hp] at hm
        exact hboth.append (hboth.grounded.report (hm _ (List.mem_cons_of_mem _ List.mem_cons_self))
          ⟨(linkClass_fst _ _).symm.trans (hpresent.trans hp), hlink.leads.grows.decides (hr ▸ hdec)⟩)
      · exact hboth
    | some target =>
      rw [hr] at hdec hworld
      rw [linking_of_some hworld.symm] at hm ⊢
      have hnamed := hm _ List.mem_cons_self
      have hfollows : ∀ ψ ∈ [Fact.cls target.owner, .method target, .named target], K ψ := by
        intro ψ hψ
        refine hK.follows hnamed ?_
        rw [Catalog.consequences, ← hworld]
        exact hψ
      cases hd : s.declarationId? target with
      | some id =>
        obtain ⟨r, hget, rfl⟩ := exists_of_declarationId? hd
        rw [linkMethod_of_declared hid hr hd]
        exact .after hlearn.leads (hlearn.grounded.aliasMethod hid hget hdec hnamed)
      | none =>
        obtain ⟨_, d, f, hlookup, hf⟩ := Catalog.resolveMethod_some hdec.view
        rw [linkMethod_of_new hid hr hd hlookup hf]
        have hremember := hlearn.grounded.learn ((s.askedMethod m).hierarchy.learns_remember target.owner)
        have howner : Brings w o K Γ [.cls target.owner] (s.askedMethod m)
            ((s.askedMethod m).withOwner target.owner) :=
          .after hremember.leads (hremember.grounded.linkClass hK (hfollows _ List.mem_cons_self)).1
        obtain ⟨hier, c, p, hs, hcached, hrecorded⟩ := withOwner_frame (s.askedMethod m) target.owner
        have hcached : hier.classes.find? target.owner = some (some d) := hcached.trans (congrArg some hlookup)
        have hdec' := howner.leads.grows.decides hdec
        rw [hs] at howner hdec' ⊢
        have hrecord := howner.grounded.recordMethod hd hcached hf (hfollows _ (by simp)) (hfollows _ (by simp))
          (howner.has _ List.mem_cons_self)
        have hleads := hlearn.leads.trans howner.leads
        split
        · next he =>
          subst he
          exact .after hleads hrecord
        · next hne =>
          refine .after (hleads.trans hrecord.leads)
            (hrecord.grounded.aliasMethod ?_ Array.getElem?_push_size hdec' hnamed)
          exact methodId?_recordMethod
            (s := { s.askedMethod m with hierarchy := hier, classes := c, problems := p }) hid hne d f

/-! ## Initialisation -/

theorem Grounded.mark (h : Grounded w o K Γ s) {n : ClassName} (hp : s.isPresent n = true)
    (hK : K (.initialized n)) :
    Brings w o K (.initialized n :: Γ) [.initialized n] s
      { s with classes := s.classes.adjust n fun r => { r with initialized := true } } := by
  have hstep : Step .client s []
      { s with classes := s.classes.adjust n fun r => { r with initialized := true } } [.prepare n] :=
    .markInitialized n hp
  obtain ⟨r₀, hr₀, -⟩ := isPresent_iff.1 hp
  -- every record stays, that of `n` as initialised
  have hfind : ∀ {m r}, (s.classes.adjust n fun r => { r with initialized := true }).find? m = some r →
      s.classes.find? m = some r ∨ m = n ∧ ∃ r', s.classes.find? m = some r' ∧ r'.missing = r.missing := by
    intro m r hr
    rw [Table.find?_adjust] at hr
    split at hr
    · next hm =>
      obtain ⟨r', hr', rfl⟩ := Option.map_eq_some_iff.1 hr
      exact Or.inr ⟨hm, r', hr', rfl⟩
    · exact Or.inl hr
  have hleads := Leads.of_grows hstep.grows
  obtain ⟨L, hL⟩ := h.labelled
  refine ⟨h.advance hstep hleads rfl { h.sourced with classes := ?_ } (fun φ hne hφ => ?_) ?_ ⟨L, { hL with }⟩,
    hleads, fun φ hφ => ?_⟩
  · intro m r hr
    rcases hfind hr with hr | ⟨rfl, r', hr', hmissing⟩
    · exact h.sourced.classes hr
    · obtain ⟨hcls, -, hworld⟩ := h.sourced.classes hr'
      exact ⟨hcls, fun _ => hK, hmissing.symm.trans hworld⟩
  · cases φ with
    | cls m => exact Or.inl (by rw [Has, ← Table.keys_adjust]; exact hφ)
    | initialized m =>
      obtain ⟨r, hr, hi⟩ := hφ
      rcases hfind hr with hr | ⟨rfl, -⟩
      · exact Or.inl ⟨r, hr, hi⟩
      · exact Or.inr (Or.inl List.mem_cons_self)
    | holds | flow | problem | calls | serves | target => exact absurd rfl hne
    | _ => exact Or.inl hφ
  · exact fun φ hφ => hφ.grow hstep.grows (List.Subset.refl _) (List.Subset.refl _) (List.subset_cons_self _ _)
  · rw [List.mem_singleton.1 hφ]
    exact ⟨{ r₀ with initialized := true }, by rw [Table.find?_adjust, if_pos rfl, hr₀]; rfl, rfl⟩

theorem Grounded.markInitialized (h : Grounded w o K Γ s) (hK : w.catalog.Closed o K) {n : ClassName}
    (hp : s.isPresent n = true) (hi : K (.initialized n)) :
    Brings w o K (.initialized n :: Γ) ([.initialized n] ++ w.catalog.initializer o n) s (s.markInitialized n) := by
  have hmark := h.mark hp hi
  have hlearn := hmark.grounded.learn (s.hierarchy.learns_remember n)
  have hfirst := Brings.before hmark hlearn
  have hasked : (s.hierarchy.lookup n).any (fun d => (d.method? .classInitializer).isSome)
      = (w.catalog.method? ⟨n, .classInitializer⟩).isSome := by
    rw [h.shows.lookup n]
    unfold Catalog.method?
    cases hd : w.find? n <;> simp [World.catalog, hd]
  have hiff : (s.settings.classInitializers && (s.hierarchy.lookup n).any fun d =>
      (d.method? .classInitializer).isSome) =
        (o.classInitializers && (w.catalog.method? ⟨n, .classInitializer⟩).isSome) := by
    rw [hasked, h.settings]
  unfold Analysis.markInitialized Catalog.initializer
  simp only [Hierarchy.get, hiff]
  split
  · next hc =>
    refine hfirst.append (hfirst.grounded.linkMethod hK fun φ hφ => hK.follows hi ?_)
    rw [Catalog.consequences, Catalog.initializer, if_pos hc]
    exact List.mem_append_left _ hφ
  · rwa [List.append_nil]

/-- The classes `seen` were initialised on the way, so a chain that returns to one of them may stop there. -/
theorem Grounded.initializeAlong (hK : w.catalog.Closed o K) {names : List ClassName} {seen : List ClassName}
    {n : ClassName} (hnames : names = w.catalog.superclasses seen n) (h : Grounded w o K Γ s)
    (hseen : ∀ k ∈ seen, ∀ φ ∈ w.catalog.initializing k, s.Has φ) (hn : ∀ φ ∈ w.catalog.initializing n, K φ) :
    Brings w o K Γ (w.catalog.initializing n) s (s.initializeAlong names) := by
  induction names generalizing s Γ seen n with
  | nil =>
    by_cases hmem : n ∈ seen
    · exact .of_has h (hseen n hmem)
    · rw [Catalog.superclasses_of_not_mem hmem] at hnames
      cases hnames
  | cons name rest ih =>
    have hmem : n ∉ seen := by
      intro hmem
      rw [Catalog.superclasses_of_mem hmem] at hnames
      cases hnames
    rw [Catalog.superclasses_of_not_mem hmem] at hnames
    obtain ⟨rfl, hrest⟩ := List.cons.inj hnames
    obtain ⟨hlink, hpresent⟩ := h.linkClass hK (hn _ List.mem_cons_self)
    have hcls := hlink.has _ List.mem_cons_self
    unfold Analysis.initializeAlong
    simp only []
    cases hp : (w.catalog.find? name).isSome with
    | false =>
      have hfacts : w.catalog.initializing name = [.cls name] := by
        unfold Catalog.initializing
        rw [hp]
        rfl
      rw [hpresent, hp, hfacts]
      exact hlink
    | true =>
      have hfacts : w.catalog.initializing name = [.cls name, .initialized name] := by
        unfold Catalog.initializing
        rw [hp]
        rfl
      rw [hpresent, hp, hfacts]
      rw [hfacts] at hn
      have hi : K (.initialized name) := hn _ (by simp)
      have hboth : ∀ {s'}, (s.linkClass name).2.Leads s' → s'.Has (.initialized name) →
          ∀ φ ∈ [Fact.cls name, .initialized name], s'.Has φ := by
        intro s' hleads hinit φ hφ
        simp only [List.mem_cons, List.not_mem_nil, or_false] at hφ
        rcases hφ with rfl | rfl
        · exact hleads.has hcls
        · exact hinit
      split
      · next hdone =>
        refine hlink.mono (hboth (.refl _) ?_)
        cases hr : (s.linkClass name).2.classes.find? name with
        | none => simp [hr] at hdone
        | some r => exact ⟨r, hr, by simpa [hr] using hdone⟩
      · have hmark := hlink.grounded.markInitialized hK ((linkClass_fst s name).symm.trans (hpresent.trans hp)) hi
        have hinit := hmark.has _ (List.mem_append_left _ List.mem_cons_self)
        cases hparent : (w.catalog.find? name).bind ClassDef.superclass? with
        | none =>
          rw [hparent] at hrest
          subst hrest
          refine ⟨hmark.grounded.release fun ψ hψ => hmark.has ψ ?_, hlink.leads.trans hmark.leads,
            hboth hmark.leads hinit⟩
          simp only [Catalog.consequences, hparent] at hψ
          exact List.mem_append_right _ (by simpa using hψ)
        | some parent =>
          rw [hparent] at hrest
          have hup := ih hrest hmark.grounded ?_ ?_
          · refine ⟨hup.grounded.release fun ψ hψ => ?_, hlink.leads.trans (hmark.leads.trans hup.leads),
              hboth (hmark.leads.trans hup.leads) (hup.leads.has hinit)⟩
            simp only [Catalog.consequences, hparent] at hψ
            rcases List.mem_append.1 hψ with hψ | hψ
            · exact hup.leads.has (hmark.has ψ (List.mem_append_right _ hψ))
            · exact hup.has ψ (by simpa using hψ)
          · intro k hk φ hφ
            rcases List.mem_cons.1 hk with rfl | hk
            · rw [hfacts] at hφ
              exact hboth hmark.leads hinit φ hφ
            · exact (hlink.leads.trans hmark.leads).has (hseen k hk φ hφ)
          · intro φ hφ
            refine hK.follows hi ?_
            simp only [Catalog.consequences, hparent]
            exact List.mem_append_right _ (by simpa using hφ)

theorem Grounded.initializeClass (h : Grounded w o K Γ s) (hK : w.catalog.Closed o K) {n : ClassName}
    (hn : ∀ φ ∈ w.catalog.initializing n, K φ) :
    Brings w o K Γ (w.catalog.initializing n) s (s.initializeClass n) :=
  Grounded.initializeAlong hK (h.shows.superclasses [] n) h (fun _ hk => absurd hk List.not_mem_nil) hn

/-! ## Fields -/

theorem Grounded.fieldAlias (h : Grounded w o K Γ s) {f : QualifiedField} {record : FieldRecord}
    (hf : s.fields.find? f = none) (hr : s.fields.find? record.reference = some record)
    (hd : s.hierarchy.Decides (fun c => c.resolveField f) (some record.reference)) :
    Brings w o K Γ [] s { s with fields := s.fields.insert f record } := by
  have hstep : Step .client s [] { s with fields := s.fields.insert f record } [] := .fieldAlias hf hr hd
  have hleads : s.Leads { s with fields := s.fields.insert f record } := .of_grows hstep.grows
  have hold : ∀ {g n}, (s.fields.insert f record).find? g = some ⟨g, n⟩ → s.fields.find? g = some ⟨g, n⟩ := by
    intro g n hg
    rcases Table.find?_insert_cases hg with hg | ⟨rfl, rfl⟩
    · exact hg
    · exact hr
  obtain ⟨L, hL⟩ := h.labelled
  refine .of_leads (h.advance hstep hleads rfl { h.sourced with fields := fun hg => ?_ } (fun φ hne hφ => ?_) ?_
    ⟨L, { hL with
      slot := fun hn => hleads.grows.standsFor (hL.slot hn)
      only := fun {n x} hx => hL.only ?_ }⟩) hleads
  · rcases Table.find?_insert_cases hg with hg | ⟨-, rfl⟩
    · exact h.sourced.fields hg
    · exact h.sourced.fields hr
  · cases φ with
    | field g =>
      obtain ⟨n, hn⟩ := hφ
      exact Or.inl ⟨n, hold hn⟩
    | holds | flow | problem | calls | serves | target => exact absurd rfl hne
    | _ => exact Or.inl hφ
  · exact fun φ hφ => hφ.same hstep.grows rfl rfl
  · cases x with
    | field g => exact hold hx
    | _ => exact hx

theorem Grounded.newField (h : Grounded w o K Γ s) {f g : QualifiedField} (hf : s.fields.find? f = none)
    (hg : s.fields.find? g = none) (hd : s.hierarchy.Decides (fun c => c.resolveField f) (some g))
    (hs : s.hierarchy.Decides (fun c => c.resolveField g) (some g)) (hK : K (.field g))
    (hc : s.Has (.cls g.owner)) :
    Brings w o K Γ [.field g] s { s with
      graph := s.graph.newNode.2
      fields := (s.fields.insert g ⟨g, s.graph.newNode.1⟩).insert f ⟨g, s.graph.newNode.1⟩ } := by
  have hstep : Step .client s [] { s with
      graph := s.graph.newNode.2
      fields := (s.fields.insert g ⟨g, s.graph.newNode.1⟩).insert f ⟨g, s.graph.newNode.1⟩ } [] :=
    .newField hf hg hd hs hc
  have hleads := Leads.of_grows hstep.grows
  have hself : ((s.fields.insert g ⟨g, s.graph.newNode.1⟩).insert f ⟨g, s.graph.newNode.1⟩).find? g
      = some ⟨g, s.graph.newNode.1⟩ := by
    rw [Table.find?_insert, Table.find?_insert_self]
    split <;> rfl
  have hcases : ∀ {k r},
      ((s.fields.insert g ⟨g, s.graph.newNode.1⟩).insert f ⟨g, s.graph.newNode.1⟩).find? k = some r →
      s.fields.find? k = some r ∨ r = ⟨g, s.graph.newNode.1⟩ := by
    intro k r hr
    rcases Table.find?_insert_cases hr with hr | ⟨-, rfl⟩
    · exact (Table.find?_insert_cases hr).imp_right And.right
    · exact Or.inr rfl
  obtain ⟨L, hL⟩ := h.labelled
  have hL' := hL.withNode (x := .field g) h.valid hstep.grows rfl rfl rfl hself fun {n y} hy => by
    cases y with
    | field k =>
      refine (hcases hy).imp_right fun he => ?_
      cases he
      exact ⟨rfl, rfl⟩
    | _ => exact Or.inl hy
  refine ⟨h.advance hstep hleads rfl { h.sourced with fields := fun hr => ?_ } (fun φ hne hφ => ?_) ?_ hL', hleads,
    fun φ hφ => ?_⟩
  · rcases hcases hr with hr | rfl
    · exact h.sourced.fields hr
    · exact hK
  · cases φ with
    | field k =>
      obtain ⟨n, hn⟩ := hφ
      refine (hcases hn).imp (fun hn => ⟨n, hn⟩) fun he => Or.inr fun ψ hψ => ?_
      cases he
      rw [List.mem_singleton.1 hψ]
      exact hc
    | holds | flow | problem | calls | serves | target => exact absurd rfl hne
    | _ => exact Or.inl hφ
  · exact fun φ hφ => hφ.same hstep.grows rfl rfl
  · rw [List.mem_singleton.1 hφ]
    exact ⟨_, hself⟩

theorem Grounded.fieldSlot (h : Grounded w o K Γ s) {f : QualifiedField} {record : FieldRecord}
    (hf : s.fields.find? f = some record) :
    (∀ φ ∈ w.catalog.accessing f, s.Has φ) ∧ s.StandsFor record.node (w.catalog.fieldSlot f) := by
  obtain ⟨-, hself, hd⟩ := h.valid.nodes.field hf
  have hr : w.catalog.resolveField f = some record.reference := (h.resolveField f).symm.trans hd.view
  unfold Catalog.accessing Catalog.fieldSlot
  rw [hr]
  exact ⟨fun φ hφ => List.mem_singleton.1 hφ ▸ ⟨record.node, hself⟩, hself⟩

theorem Grounded.linkField (h : Grounded w o K Γ s) (hK : w.catalog.Closed o K) {f : QualifiedField}
    (hf : ∀ φ ∈ w.catalog.accessing f, K φ) : Brings w o K Γ (w.catalog.accessing f) s (s.linkField f).2 ∧
      (s.linkField f).2.StandsFor (s.linkField f).1 (w.catalog.fieldSlot f) := by
  cases hknown : s.fields.find? f with
  | some record =>
    obtain ⟨hhas, hslot⟩ := h.fieldSlot hknown
    rw [linkField_of_known hknown]
    exact ⟨.of_has h hhas, hslot⟩
  | none =>
    obtain ⟨hasked, hdec⟩ := h.valid.hierarchy.resolveField f
    have hlearn : Brings w o K Γ [] s (s.askedField f) := h.learn (s.hierarchy.learns_ask (.field f.owner f.name))
    have hworld : (s.hierarchy.resolveField f).1 = w.catalog.resolveField f := hasked.trans (h.resolveField f)
    cases hr : (s.hierarchy.resolveField f).1 with
    | none =>
      have haccess : w.catalog.accessing f
          = .cls f.owner :: if (w.catalog.find? f.owner).isSome then [.problem (.missingField f)] else [] := by
        unfold Catalog.accessing
        rw [← hworld, hr]
      have hslot : w.catalog.fieldSlot f = .root := by
        unfold Catalog.fieldSlot
        rw [← hworld, hr]
      rw [haccess] at hf
      rw [linkField_of_nothing hknown hr, haccess, hslot]
      obtain ⟨hlink, hpresent⟩ := hlearn.grounded.linkClass hK (hf _ List.mem_cons_self)
      have hboth := hlearn.append hlink
      rw [show ((s.askedField f).linkClass f.owner).1 = _ from hpresent]
      split
      · next hp =>
        rw [if_pos hp] at hf
        exact ⟨hboth.append (hboth.grounded.report (hf _ (List.mem_cons_of_mem _ List.mem_cons_self))
          ⟨(linkClass_fst _ _).symm.trans (hpresent.trans hp), hlink.leads.grows.decides (hr ▸ hdec)⟩), rfl⟩
      · exact ⟨hboth, rfl⟩
    | some g =>
      rw [hr] at hdec hworld
      have haccess : w.catalog.accessing f = [.field g] := by
        unfold Catalog.accessing
        rw [← hworld]
      have hslot : w.catalog.fieldSlot f = .field g := by
        unfold Catalog.fieldSlot
        rw [← hworld]
      have hidem := Catalog.resolveField_idem hworld.symm
      rw [haccess] at hf ⊢
      rw [hslot]
      have hfield := hf _ List.mem_cons_self
      cases hg : s.fields.find? g with
      | some record =>
        obtain ⟨-, hself, hd⟩ := h.valid.nodes.field hg
        obtain rfl : g = record.reference :=
          Option.some.inj (hidem.symm.trans ((h.resolveField g).symm.trans hd.view))
        rw [linkField_of_resolved hknown hr hg]
        have halias := hlearn.grounded.fieldAlias hknown hself hdec
        have hkeep := halias.leads.grows.fields _ _ hself
        exact ⟨⟨halias.grounded, hlearn.leads.trans halias.leads,
          fun φ hφ => List.mem_singleton.1 hφ ▸ ⟨record.node, hkeep⟩⟩, hkeep⟩
      | none =>
        rw [linkField_of_new hknown hr hg]
        have hlink := (hlearn.grounded.linkClass hK (hK.follows hfield List.mem_cons_self)).1
        have hself : (s.askedField f).hierarchy.Decides (fun c => c.resolveField g) (some g) :=
          fun c hc => Catalog.resolveField_idem (hdec c hc)
        have hsame : ((s.askedField f).linkClass g.owner).2.fields = s.fields := by
          obtain ⟨hier, c, p, hs, -⟩ := (s.askedField f).linkClass_frame g.owner
          rw [hs]
          rfl
        have hdec' := hlink.leads.grows.decides hdec
        have hself' := hlink.leads.grows.decides hself
        have hleads := hlearn.leads.trans hlink.leads
        generalize ((s.askedField f).linkClass g.owner).2 = s₁ at *
        have hnew := hlink.grounded.newField (hsame ▸ hknown) (hsame ▸ hg) hdec' hself' hfield
          (hlink.has _ List.mem_cons_self)
        have hfind : ((s₁.fields.insert g ⟨g, s₁.graph.newNode.1⟩).insert f ⟨g, s₁.graph.newNode.1⟩).find? g
            = some ⟨g, s₁.graph.newNode.1⟩ := by
          rw [Table.find?_insert, Table.find?_insert_self]
          split <;> rfl
        exact ⟨.after hleads hnew, hfind⟩

end Analysis

end TypeFlow
