import TypeFlow.Analysis.Settle
import TypeFlow.Proofs.Analysis.Flow
import TypeFlow.Proofs.Hierarchy.Shows

/-!
# Analyses that differ only in what they remember

Two analyses are alike when their hierarchies show the same world and all that
they derived is the same. What the hierarchies remember is not looked at except
through their answers, so every operation takes alike analyses to alike ones.

The first one may have reported missing entry points on top of the problems of
the second.
-/

namespace TypeFlow

/-- Whether `p` is `p'` with reports of missing entry points in between. -/
structure Problems.Adds (p p' : Problems) (missing : List QualifiedMethod) : Prop where
  others : p'.toList = p.toList.filter fun q => q.entry?.isNone
  entries : p.toList.filterMap Problem.entry? = missing

namespace Problems

variable {p p' : Problems} {missing : List QualifiedMethod}

theorem Adds.insert (h : p.Adds p' missing) {q : Problem} (hq : q.entry? = none) :
    Adds (p.insert q) (p'.insert q) missing := by
  have hmem : q ∈ p' ↔ q ∈ p := by
    rw [← OrderedSet.mem_toList, h.others, List.mem_filter, hq]
    exact and_iff_left rfl
  by_cases hp : q ∈ p
  · rw [OrderedSet.insert_of_mem hp, OrderedSet.insert_of_mem (hmem.2 hp)]
    exact h
  · constructor
    · rw [OrderedSet.toList_insert_of_not_mem hp, OrderedSet.toList_insert_of_not_mem (mt hmem.1 hp), h.others]
      simp [hq]
    · rw [OrderedSet.toList_insert_of_not_mem hp, ← h.entries]
      simp [hq]

theorem Adds.insertEntry (h : p.Adds p' missing) {m : QualifiedMethod} (hm : m ∉ missing) :
    Adds (p.insert (.missingEntry m)) p' (missing ++ [m]) := by
  have hp : .missingEntry m ∉ p := by
    intro hmem
    apply hm
    rw [← h.entries]
    exact List.mem_filterMap.2 ⟨_, hmem, rfl⟩
  constructor
  · rw [OrderedSet.toList_insert_of_not_mem hp, h.others]
    simp [Problem.entry?]
  · rw [OrderedSet.toList_insert_of_not_mem hp, ← h.entries]
    simp [Problem.entry?]

end Problems

namespace Analysis

/-- `s` with what `u` remembers and reported. -/
def beside (s u : Analysis) : Analysis :=
  { s with
    hierarchy := u.hierarchy
    problems := u.problems
    entries := u.entries
    reseed := u.reseed
    generation := u.generation
    observations := u.observations }

/-- Whether `s'` has derived what `s` has, both over the world `w`. -/
inductive Alike (w : World) (missing : List QualifiedMethod) (s : Analysis) : Analysis → Prop
  | intro {h : Hierarchy} {p : Problems} {entries : Table QualifiedMethod (List (Nat × ExactType))} {reseed : Bool}
      {generation : Nat} {observations : List (String × ExactType)} (hs : s.hierarchy.Shows w) (hs' : h.Shows w)
      (hp : s.problems.Adds p missing) :
      Alike w missing s { s with hierarchy := h, problems := p, entries, reseed, generation, observations }

variable {w : World} {missing : List QualifiedMethod} {s s' : Analysis}

namespace Alike

theorem shows (h : Alike w missing s s') : s.hierarchy.Shows w ∧ s'.hierarchy.Shows w := by
  obtain ⟨hs, hs', _⟩ := h
  exact ⟨hs, hs'⟩

/-- What does not look at what is remembered or reported is the same. -/
theorem same {α : Type} (h : Alike w missing s s') (f : Analysis → α)
    (hf : ∀ t u : Analysis, f (t.beside u) = f t) : f s' = f s := by
  cases h with
  | @intro h p entries reseed generation observations hs hs' hp =>
    exact hf s { s with hierarchy := h, problems := p, entries, reseed, generation, observations }

/-- An operation that does not look at what is remembered or reported takes alike analyses to alike ones. -/
theorem map (h : Alike w missing s s') (f : Analysis → Analysis)
    (hf : ∀ t u : Analysis, f (t.beside u) = (f t).beside u) : Alike w missing (f s) (f s') := by
  have hself : f s = (f s).beside s := hf s s
  have hhierarchy : (f s).hierarchy = ((f s).beside s).hierarchy := congrArg Analysis.hierarchy hself
  have hproblems : (f s).problems = ((f s).beside s).problems := congrArg Analysis.problems hself
  cases h with
  | @intro h p entries reseed generation observations hs hs' hp =>
    have hother : f { s with hierarchy := h, problems := p, entries, reseed, generation, observations } =
        { f s with hierarchy := h, problems := p, entries, reseed, generation, observations } :=
      hf s { s with hierarchy := h, problems := p, entries, reseed, generation, observations }
    rw [hother]
    refine .intro ?_ hs' ?_
    · rw [hhierarchy]
      exact hs
    · rw [hproblems]
      exact hp

theorem learn (h : Alike w missing s s') {h₁ h₂ : Hierarchy} (hs₁ : h₁.Shows w) (hs₂ : h₂.Shows w) :
    Alike w missing { s with hierarchy := h₁ } { s' with hierarchy := h₂ } := by
  obtain ⟨_, _, hp⟩ := h
  exact .intro hs₁ hs₂ hp

theorem report (h : Alike w missing s s') {q : Problem} (hq : q.entry? = none) :
    Alike w missing (s.report q) (s'.report q) := by
  obtain ⟨hs, hs', hp⟩ := h
  exact .intro hs hs' (hp.insert hq)

theorem foldl {α : Type} {op : Analysis → α → Analysis}
    (hop : ∀ {s s' : Analysis} (a : α), Alike w missing s s' → Alike w missing (op s a) (op s' a)) (l : List α)
    (h : Alike w missing s s') : Alike w missing (l.foldl op s) (l.foldl op s') := by
  induction l generalizing s s' with
  | nil => exact h
  | cons a l ih => exact ih (hop a h)

end Alike

/-! ## Linking -/

theorem alike_recordClass (h : Alike w missing s s') (name : ClassName) :
    Alike w missing (s.recordClass name) (s'.recordClass name) := by
  obtain ⟨hs, hs', hp⟩ := h
  obtain ⟨hfound, hs⟩ := hs.get name
  obtain ⟨hfound', hs'⟩ := hs'.get name
  unfold recordClass
  simp only [hfound, hfound']
  split
  · exact .intro hs hs' (hp.insert rfl)
  · exact .intro hs hs' hp

theorem alike_linkClass (h : Alike w missing s s') (name : ClassName) :
    (s'.linkClass name).1 = (s.linkClass name).1 ∧ Alike w missing (s.linkClass name).2 (s'.linkClass name).2 := by
  unfold linkClass
  rw [h.same Analysis.classes fun _ _ => rfl]
  simp only [h.shows.1.traverse, h.shows.2.traverse]
  split
  · exact ⟨h.same (isPresent · name) fun _ _ => rfl, h⟩
  · have hall := h.foldl (fun a h => alike_recordClass h a)
      (w.catalog.traverse .stack ClassDef.supertypes s.classes.keys [name])
    exact ⟨hall.same (isPresent · name) fun _ _ => rfl, hall⟩

theorem alike_recordMethod (h : Alike w missing s s') (m : QualifiedMethod) (d : ClassDef) (f : MethodDef) :
    (s'.recordMethod m d f).1 = (s.recordMethod m d f).1 ∧
      Alike w missing (s.recordMethod m d f).2 (s'.recordMethod m d f).2 :=
  ⟨h.same (fun u => (u.recordMethod m d f).1) fun _ _ => rfl,
    h.map (fun u => (u.recordMethod m d f).2) fun _ _ => rfl⟩

theorem Alike.withAlias (h : Alike w missing s s') (m : QualifiedMethod) (id : MethodId) :
    Alike w missing { s with aliases := s.aliases.insert m id } { s' with aliases := s'.aliases.insert m id } :=
  h.map (fun u => { u with aliases := u.aliases.insert m id }) fun _ _ => rfl

theorem alike_linkMethod (h : Alike w missing s s') (m : QualifiedMethod) :
    (s'.linkMethod m).1 = (s.linkMethod m).1 ∧ Alike w missing (s.linkMethod m).2 (s'.linkMethod m).2 := by
  obtain ⟨hresolved, hs⟩ := h.shows.1.resolveMethod m
  obtain ⟨hresolved', hs'⟩ := h.shows.2.resolveMethod m
  have h₁ := h.learn hs hs'
  unfold linkMethod
  rw [h.same (methodId? · m) fun _ _ => rfl]
  simp only [hresolved, hresolved']
  cases s.methodId? m with
  | some id => exact ⟨rfl, h⟩
  | none =>
    cases w.catalog.resolveMethod m with
    | none =>
      obtain ⟨hpresent, hclass⟩ := alike_linkClass h₁ m.owner
      simp only [hpresent]
      split
      · exact ⟨trivial, hclass.report rfl⟩
      · exact ⟨trivial, hclass⟩
    | some resolved =>
      simp only [h₁.same (declarationId? · resolved) fun _ _ => rfl]
      cases Analysis.declarationId? { s with hierarchy := (s.hierarchy.resolveMethod m).2 } resolved with
      | some id => exact ⟨rfl, h₁.withAlias m id⟩
      | none =>
        obtain ⟨hget, hs⟩ := hs.get resolved.owner
        obtain ⟨hget', hs'⟩ := hs'.get resolved.owner
        have h₂ := h₁.learn hs hs'
        simp only [hget, hget']
        cases (w.find? resolved.owner).bind fun d => (d.method? resolved.signature).map fun f => (d, f) with
        | none => exact ⟨rfl, h₂⟩
        | some found =>
          obtain ⟨d, f⟩ := found
          obtain ⟨hid, hrecord⟩ := alike_recordMethod (alike_linkClass h₂ resolved.owner).2 resolved d f
          simp only [hid]
          split
          · exact ⟨trivial, hrecord⟩
          · exact ⟨trivial, hrecord.withAlias m _⟩

theorem Alike.newField (h : Alike w missing s s') (f resolved : QualifiedField) :
    s'.newNode.1 = s.newNode.1 ∧ Alike w missing
      { s.newNode.2 with
        fields := (s.newNode.2.fields.insert resolved ⟨resolved, s.newNode.1⟩).insert f ⟨resolved, s.newNode.1⟩ }
      { s'.newNode.2 with
        fields := (s'.newNode.2.fields.insert resolved ⟨resolved, s'.newNode.1⟩).insert f
          ⟨resolved, s'.newNode.1⟩ } := by
  refine ⟨h.same (fun u => u.newNode.1) fun _ _ => rfl, ?_⟩
  exact h.map (fun u => { u.newNode.2 with
    fields := (u.newNode.2.fields.insert resolved ⟨resolved, u.newNode.1⟩).insert f ⟨resolved, u.newNode.1⟩ })
    fun _ _ => rfl

/-! ## Initialisation -/

theorem alike_markInitialized (h : Alike w missing s s') (name : ClassName) :
    Alike w missing (s.markInitialized name) (s'.markInitialized name) := by
  obtain ⟨hs, hs', hp⟩ := h
  obtain ⟨hfound, hs⟩ := hs.get name
  obtain ⟨hfound', hs'⟩ := hs'.get name
  unfold markInitialized
  simp only [hfound, hfound']
  split
  · refine (alike_linkMethod ?_ _).2
    exact .intro hs hs' hp
  · exact .intro hs hs' hp

theorem alike_initializeAlong (h : Alike w missing s s') (names : List ClassName) :
    Alike w missing (s.initializeAlong names) (s'.initializeAlong names) := by
  induction names generalizing s s' with
  | nil => exact h
  | cons name names ih =>
    obtain ⟨hpresent, hlink⟩ := alike_linkClass h name
    have hrecord := hlink.same (fun t => t.classes.find? name) fun _ _ => rfl
    unfold initializeAlong
    simp only [hpresent, hrecord]
    split
    · exact hlink
    · exact ih (alike_markInitialized hlink name)

theorem alike_initializeClass (h : Alike w missing s s') (name : ClassName) :
    Alike w missing (s.initializeClass name) (s'.initializeClass name) := by
  unfold initializeClass
  rw [h.shows.1.superclasses, h.shows.2.superclasses]
  exact alike_initializeAlong h _

theorem alike_linkField (h : Alike w missing s s') (f : QualifiedField) :
    (s'.linkField f).1 = (s.linkField f).1 ∧ Alike w missing (s.linkField f).2 (s'.linkField f).2 := by
  have hknown : s'.fields.find? f = s.fields.find? f := h.same (fun t => t.fields.find? f) fun _ _ => rfl
  obtain ⟨hresolved, hs⟩ := h.shows.1.resolveField f
  obtain ⟨hresolved', hs'⟩ := h.shows.2.resolveField f
  have h₁ := h.learn hs hs'
  unfold linkField
  simp only [hknown, hresolved, hresolved']
  cases s.fields.find? f with
  | some record => exact ⟨rfl, h⟩
  | none =>
    cases w.catalog.resolveField f with
    | none =>
      obtain ⟨hpresent, hclass⟩ := alike_linkClass h₁ f.owner
      simp only [hpresent]
      split
      · exact ⟨trivial, hclass.report rfl⟩
      · exact ⟨trivial, hclass⟩
    | some resolved =>
      have hknown₁ : s'.fields.find? resolved = s.fields.find? resolved :=
        h.same (fun t => t.fields.find? resolved) fun _ _ => rfl
      simp only [hknown₁]
      cases s.fields.find? resolved with
      | some record =>
        exact ⟨rfl, h₁.map (fun u => { u with fields := u.fields.insert f ⟨resolved, record.node⟩ }) fun _ _ => rfl⟩
      | none =>
        obtain ⟨_, hclass⟩ := alike_linkClass h₁ resolved.owner
        exact hclass.newField f resolved

/-! ## Notices -/

theorem Alike.mapGraph (h : Alike w missing s s') (f : FlowGraph → FlowGraph) :
    Alike w missing { s with graph := f s.graph } { s' with graph := f s'.graph } :=
  h.map (fun u => { u with graph := f u.graph }) fun _ _ => rfl

theorem alike_aggregate (h : Alike w missing s s') (t : DeclType) :
    (s'.aggregate t).1 = (s.aggregate t).1 ∧ Alike w missing (s.aggregate t).2 (s'.aggregate t).2 := by
  unfold aggregate
  rw [h.same (fun u => u.aggregates.find? t) fun _ _ => rfl]
  split
  · exact ⟨rfl, h⟩
  · split
    · exact ⟨rfl, h⟩
    · obtain ⟨hs, hs', hp⟩ := h
      exact ⟨rfl, .intro hs hs' hp⟩

theorem alike_connectAll (h : Alike w missing s s') (edges : List (NodeId × NodeId)) :
    Alike w missing (s.connectAll edges) (s'.connectAll edges) :=
  h.mapGraph fun g => edges.foldl (fun (g : FlowGraph) (e : NodeId × NodeId) => g.connect e.1 e.2) g

theorem alike_connectCall (h : Alike w missing s s') (site : CallSite) (callee : MethodId) :
    Alike w missing (s.connectCall site callee) (s'.connectCall site callee) := by
  unfold connectCall
  rw [h.same (fun u => u.methods[callee]?) fun _ _ => rfl]
  split
  · exact alike_connectAll h _
  · exact h

theorem alike_admits (h : Alike w missing s s') (sel : Selector) (t : ExactType) :
    (s'.admits sel t).1 = (s.admits sel t).1 ∧ Alike w missing (s.admits sel t).2 (s'.admits sel t).2 := by
  unfold admits
  cases sel.filter? with
  | none => exact ⟨rfl, h⟩
  | some declared =>
    obtain ⟨hok, hs⟩ := h.shows.1.isAssignable t declared
    obtain ⟨hok', hs'⟩ := h.shows.2.isAssignable t declared
    exact ⟨hok'.trans hok.symm, h.learn hs hs'⟩

theorem alike_pick (h : Alike w missing s s') (sel : Selector) (t : ExactType) :
    (s'.pick sel t).1 = (s.pick sel t).1 ∧ Alike w missing (s.pick sel t).2 (s'.pick sel t).2 := by
  obtain ⟨hok, h₁⟩ := alike_admits h sel t
  unfold pick
  simp only [hok]
  split
  · exact ⟨rfl, h₁⟩
  · cases t.dispatchClass? with
    | none => exact ⟨rfl, h₁⟩
    | some receiver =>
      obtain ⟨htarget, hs⟩ := h₁.shows.1.resolveImplementation receiver sel.declared.signature
      obtain ⟨htarget', hs'⟩ := h₁.shows.2.resolveImplementation receiver sel.declared.signature
      exact ⟨htarget'.trans htarget.symm, h₁.learn hs hs'⟩

theorem Alike.withTarget (h : Alike w missing s s') (id : SelectorId) (target : QualifiedMethod) :
    Alike w missing
      { s with selectors := s.selectors.modify id fun sel => { sel with targets := sel.targets.insert target } }
      { s' with selectors := s'.selectors.modify id fun sel =>
        { sel with targets := sel.targets.insert target } } :=
  h.map (Analysis.withTarget · id target) fun _ _ => rfl

theorem alike_serve (h : Alike w missing s s') (id : SelectorId) (t : ExactType) :
    Alike w missing (s.serve id t) (s'.serve id t) := by
  unfold serve
  rw [h.same (fun u => u.selectors[id]?) fun _ _ => rfl]
  cases s.selectors[id]? with
  | none => exact h
  | some sel =>
    obtain ⟨htarget, h₁⟩ := alike_pick h sel t
    simp only [htarget]
    cases (s.pick sel t).1 with
    | none => exact h₁
    | some target =>
      simp only []
      split
      · exact h₁
      · obtain ⟨hcallee, h₂⟩ := alike_linkMethod (h₁.withTarget id target) target
        simp only [hcallee]
        split
        · exact h₂
        · exact h₂.foldl (fun site h => alike_connectCall h site _) sel.sites

theorem alike_deliver (h : Alike w missing s s') (notice : Notice) :
    Alike w missing (s.deliver notice) (s'.deliver notice) := by
  unfold deliver
  rw [h.same (fun u => u.listeners[notice.listener]?) fun _ _ => rfl,
    h.same (fun u => u.graph.type? notice.type) fun _ _ => rfl]
  split
  · next t _ _ =>
    obtain ⟨hnode, h₁⟩ := alike_aggregate h t.toDecl
    simp only [hnode]
    exact h₁.mapGraph fun g => (g.add _ notice.type).2
  · exact alike_serve h _ _
  · obtain ⟨hs, hs', hp⟩ := h
    exact .intro hs hs' hp
  · exact h

theorem alike_drain (h : Alike w missing s s') : Alike w missing s.drain s'.drain := by
  have htake : s'.graph.takeNotice = s.graph.takeNotice := h.same (fun u => u.graph.takeNotice) fun _ _ => rfl
  fun_induction drain s generalizing s' with
  | case1 s hnone =>
    rw [drain_of_calm (htake.trans hnone)]
    exact h
  | case2 s notice g hsome ih =>
    rw [drain_of_notice (htake.trans hsome)]
    have hnext := alike_deliver (h.mapGraph fun _ => g) notice
    exact ih hnext (hnext.same (fun u => u.graph.takeNotice) fun _ _ => rfl)

/-! ## Flow -/

theorem alike_connect (h : Alike w missing s s') (a b : NodeId) :
    Alike w missing (s.connect a b) (s'.connect a b) :=
  alike_drain (h.mapGraph fun g => g.connect a b)

theorem alike_listen (h : Alike w missing s s') (n : NodeId) (l : ListenerId) :
    Alike w missing (s.listen n l) (s'.listen n l) :=
  alike_drain (h.mapGraph fun g => g.listen n l)

theorem alike_linkElement (h : Alike w missing s s') (t : ExactType) :
    Alike w missing (s.linkElement t) (s'.linkElement t) := by
  unfold linkElement
  split
  · exact (alike_linkClass h _).2
  · exact h

theorem alike_instantiate (h : Alike w missing s s') (n : NodeId) (t : ExactType) :
    Alike w missing (s.instantiate n t) (s'.instantiate n t) := by
  have hlink := alike_linkElement h t
  rw [instantiate_eq, instantiate_eq]
  exact alike_drain (hlink.mapGraph fun g => (g.intern t).2.addAll [n, root] (g.intern t).1)

theorem alike_consult (h : Alike w missing s s') (t : DeclType) : Alike w missing (s.consult t) (s'.consult t) := by
  unfold consult
  split
  · next name _ =>
    split
    · exact h
    · obtain ⟨hfound, hs⟩ := h.shows.1.get name
      obtain ⟨hfound', hs'⟩ := h.shows.2.get name
      have h₁ := h.learn hs hs'
      simp only [hfound, hfound']
      split
      · exact (alike_linkClass h₁ name).2
      · exact h₁
  · exact h

theorem alike_wireSupertypes (h : Alike w missing s s') (t : DeclType) (n : NodeId) :
    Alike w missing (s.wireSupertypes t n) (s'.wireSupertypes t n) := by
  have hlookup : s'.hierarchy.lookup = s.hierarchy.lookup :=
    funext fun name => (h.shows.2.lookup name).trans (h.shows.1.lookup name).symm
  have h₁ := alike_consult h t
  unfold wireSupertypes
  simp only [hlookup]
  split
  · exact alike_connect h₁ n root
  · refine h₁.foldl (fun super h => ?_) _
    obtain ⟨htarget, h₂⟩ := alike_aggregate h super
    simp only [htarget]
    exact alike_connect h₂ n _

theorem alike_poolNode (h : Alike w missing s s') (key : ItemKey) :
    (s'.poolNode key).1 = (s.poolNode key).1 ∧ Alike w missing (s.poolNode key).2 (s'.poolNode key).2 := by
  unfold poolNode
  rw [h.same (fun u => u.itemPools.find? key) fun _ _ => rfl]
  split
  · exact ⟨rfl, h⟩
  · obtain ⟨hs, hs', hp⟩ := h
    exact ⟨rfl, .intro hs hs' hp⟩

theorem alike_itemPool (h : Alike w missing s s') (component : DeclType) :
    (s'.itemPool component).1 = (s.itemPool component).1 ∧
      Alike w missing (s.itemPool component).2 (s'.itemPool component).2 := by
  obtain ⟨hnode, h₁⟩ := alike_poolNode h (ItemKey.ofType component)
  obtain ⟨hobject, h₂⟩ := alike_poolNode h₁ .object
  unfold itemPool
  simp only [hnode, hobject]
  split
  · exact ⟨rfl, alike_connect (alike_connect h₂ _ _) _ _⟩
  · exact ⟨rfl, h₁⟩

theorem alike_newSelector (h : Alike w missing s s') (key : SelectorKey) (declared : QualifiedMethod)
    (receiver? : Option NodeId) :
    (s'.newSelector key declared receiver?).1 = (s.newSelector key declared receiver?).1 ∧
      Alike w missing (s.newSelector key declared receiver?).2 (s'.newSelector key declared receiver?).2 := by
  obtain ⟨hs, hs', hp⟩ := h
  cases key with
  | shared m => exact ⟨rfl, .intro hs hs' hp⟩
  | perSite caller receiver m =>
    cases receiver? with
    | some n =>
      refine ⟨rfl, alike_listen ?_ n s.listeners.size⟩
      exact .intro hs hs' hp
    | none => exact ⟨rfl, .intro hs hs' hp⟩

theorem Alike.withSite (h : Alike w missing s s') (id : SelectorId) (key : CallKey) (site : CallSite) :
    Alike w missing (s.withSite id key site) (s'.withSite id key site) :=
  h.map (Analysis.withSite · id key site) fun _ _ => rfl

theorem alike_selectorFor (h : Alike w missing s s') (receiver : Local)
    (declared : QualifiedMethod) (site : CallSite) :
    (s'.selectorFor receiver declared site).1 = (s.selectorFor receiver declared site).1 ∧
      Alike w missing (s.selectorFor receiver declared site).2 (s'.selectorFor receiver declared site).2 := by
  unfold selectorFor
  rw [h.same (fun u => u.selectorKeys.find? (u.selectorKey site.caller receiver declared)) fun _ _ => rfl,
    h.same (selectorKey · site.caller receiver declared) fun _ _ => rfl]
  split
  · exact ⟨rfl, h⟩
  · exact alike_newSelector h _ _ _

theorem alike_linkDynamicCall (h : Alike w missing s s') (receiver : Local) (declared : QualifiedMethod)
    (site : CallSite) :
    Alike w missing (s.linkDynamicCall receiver declared site) (s'.linkDynamicCall receiver declared site) := by
  obtain ⟨hid, h₁⟩ := alike_selectorFor h receiver declared site
  have h₂ := h₁.withSite (s.selectorFor receiver declared site).1 ⟨receiver, declared.signature⟩ site
  rw [linkDynamicCall_eq, linkDynamicCall_eq, hid,
    h₂.same (targetsOf · (s.selectorFor receiver declared site).1) fun _ _ => rfl]
  refine h₂.foldl (fun target h => ?_) _
  rw [h.same (methodId? · target) fun _ _ => rfl]
  split
  · exact alike_drain (alike_connectCall h site _)
  · exact h

theorem alike_runTask (h : Alike w missing s s') (t : Task) : Alike w missing (s.runTask t) (s'.runTask t) := by
  cases t with
  | wire t n => exact alike_wireSupertypes h t n
  | attach id declared =>
    obtain ⟨hnode, h₁⟩ := alike_aggregate h (.object declared)
    have hsel := h₁.same (fun u => u.selectors[id]?) fun _ _ => rfl
    unfold runTask
    simp only [hnode, hsel]
    split
    · exact alike_listen h₁ _ _
    · exact h₁

/-! ## Bodies -/

theorem alike_connectNodes (h : Alike w missing s s') (source? target? : Option NodeId) :
    Alike w missing (s.connectNodes source? target?) (s'.connectNodes source? target?) := by
  unfold connectNodes
  split
  · exact alike_connect h _ _
  · exact h

theorem alike_instantiateLocal (h : Alike w missing s s') (f : Frame) (dst : Local) (t : ExactType) :
    Alike w missing (s.instantiateLocal f dst t) (s'.instantiateLocal f dst t) := by
  unfold instantiateLocal
  split
  · exact alike_instantiate h _ t
  · exact h

theorem alike_linkType (h : Alike w missing s s') (t : DeclType) :
    Alike w missing (s.linkType t) (s'.linkType t) := by
  unfold linkType
  split
  · exact (alike_linkClass h _).2
  · exact h

theorem alike_accessField (h : Alike w missing s s') (instance? : Option Local) (field : QualifiedField) :
    (s'.accessField instance? field).1 = (s.accessField instance? field).1 ∧
      Alike w missing (s.accessField instance? field).2 (s'.accessField instance? field).2 := by
  unfold accessField
  simp only []
  split
  · exact alike_linkField (alike_initializeClass h field.owner) field
  · exact alike_linkField h field

theorem alike_allocateArrays (h : Alike w missing s s') (f : Frame) (dst : Local) (type : DeclType) (count : Nat) :
    Alike w missing (s.allocateArrays f dst type count) (s'.allocateArrays f dst type count) := by
  unfold allocateArrays
  split
  · exact h
  · refine (alike_instantiateLocal h f dst _).foldl (fun inner h => ?_) _
    obtain ⟨hpool, h₁⟩ := alike_itemPool h inner.toDecl
    simp only [hpool]
    exact alike_instantiate h₁ _ inner

theorem alike_linkMonitors (h : Alike w missing s s') (object? : Option NodeId) :
    Alike w missing (s.linkMonitors object?) (s'.linkMonitors object?) := by
  unfold linkMonitors
  rw [h.same Analysis.settings fun _ _ => rfl]
  refine h.foldl (fun m h => ?_) _
  obtain ⟨hid, h₁⟩ := alike_linkMethod h m
  simp only [hid, h₁.same Analysis.methods fun _ _ => rfl]
  split
  · exact h₁
  · exact alike_connectNodes h₁ object? _

theorem alike_call (h : Alike w missing s s') (f : Frame) (dst? instance? : Option Local) (callee : QualifiedMethod)
    (args : List Local) (binding : Binding) :
    Alike w missing (s.call f dst? instance? callee args binding)
      (s'.call f dst? instance? callee args binding) := by
  have hinit : Alike w missing (if binding = .static then s.initializeClass callee.owner else s)
      (if binding = .static then s'.initializeClass callee.owner else s') := by
    split
    · exact alike_initializeClass h callee.owner
    · exact h
  obtain ⟨hid, h₁⟩ := alike_linkMethod hinit callee
  unfold call
  simp only [hid]
  split
  · exact alike_linkDynamicCall h _ _ _
  · split
    · exact alike_drain (alike_connectCall h₁ _ _)
    · exact h₁

theorem alike_transfer (h : Alike w missing s s') (f : Frame) (i : Instr) :
    Alike w missing (s.transfer f i) (s'.transfer f i) := by
  cases i with
  | move dst src => exact alike_connectNodes h _ _
  | cast dst src target => exact alike_connectNodes (alike_linkType h target) _ _
  | nullConst dst => exact h
  | textConst dst value => exact alike_instantiateLocal h f dst _
  | classConst dst constant => exact alike_instantiateLocal (alike_linkType h constant) f dst _
  | new dst cls => exact alike_instantiateLocal h f dst _
  | newArray dst item length =>
    simp only [transfer]
    split
    · exact alike_instantiateLocal h f dst _
    · exact h
  | newMultiArray dst type lengths => exact alike_allocateArrays h f dst type _
  | loadField dst instance? field type =>
    obtain ⟨hnode, h₁⟩ := alike_accessField h instance? field
    simp only [transfer, hnode]
    exact alike_connectNodes h₁ _ _
  | storeField instance? field src type =>
    obtain ⟨hnode, h₁⟩ := alike_accessField h instance? field
    simp only [transfer, hnode]
    exact alike_connectNodes h₁ _ _
  | loadItem dst array type =>
    obtain ⟨hpool, h₁⟩ := alike_itemPool h type
    simp only [transfer, hpool]
    split
    · exact alike_connectNodes h₁ _ _
    · exact h
  | storeItem array index src type =>
    obtain ⟨hpool, h₁⟩ := alike_itemPool h type
    simp only [transfer, hpool]
    split
    · exact alike_connectNodes h₁ _ _
    · exact h
  | cloneArray dst array => exact alike_connectNodes h _ _
  | call dst? instance? callee args binding => exact alike_call h f dst? instance? callee args binding
  | instanceTest dst src tested => exact alike_linkType h tested
  | initClass cls => exact alike_initializeClass h cls
  | phi dst sources => exact h.foldl (fun src h => alike_connectNodes h (f.node? src) (f.node? dst)) sources
  | enterMonitor object => exact alike_linkMonitors h _
  | exitMonitor object => exact alike_linkMonitors h _
  | jump target => exact h
  | branch condition thenBlock elseBlock => exact h
  | ret value? => exact alike_connectNodes h _ _
  | raise exception => exact alike_connectNodes h _ _

theorem alike_transferHandler (h : Alike w missing s s') (f : Frame) (x : Handler) :
    Alike w missing (s.transferHandler f x) (s'.transferHandler f x) := by
  unfold transferHandler
  simp only []
  split
  · exact alike_connectNodes (alike_linkClass h _).2 _ _
  · exact alike_connectNodes h _ _

theorem alike_transferBlock (h : Alike w missing s s') (f : Frame) (b : Block) :
    Alike w missing (s.transferBlock f b) (s'.transferBlock f b) :=
  (h.foldl (fun i h => alike_transfer h f i) b.instrs).foldl (fun x h => alike_transferHandler h f x) b.handlers

theorem alike_processBody (h : Alike w missing s s') (id : MethodId) (r : MethodRecord) (body : Body) :
    Alike w missing (s.processBody id r body) (s'.processBody id r body) := by
  obtain ⟨hs, hs', hp⟩ := h
  refine Alike.foldl (fun b h => alike_transferBlock h _ b) body.blocks (alike_drain (alike_connectAll ?_ _))
  exact .intro hs hs' hp

theorem alike_runBody (h : Alike w missing s s') (id : MethodId) (r : MethodRecord) :
    Alike w missing
      (match r.definition.body? with
        | some body => s.processBody id r body
        | none => s)
      (match r.definition.body? with
        | some body => s'.processBody id r body
        | none => s') := by
  split
  · exact alike_processBody h id r _
  · exact h

theorem alike_processMethod (h : Alike w missing s s') (id : MethodId) :
    Alike w missing (s.processMethod id) (s'.processMethod id) := by
  unfold processMethod
  rw [h.same (fun u => u.methods[id]?) fun _ _ => rfl]
  split
  · exact h
  · next r _ =>
    split
    · exact h
    · have hmarked : Alike w missing (s.marked id) (s'.marked id) := h.map (marked · id) fun _ _ => rfl
      have hbody := alike_runBody hmarked id r
      simp only []
      split
      · exact alike_linkMonitors hbody none
      · exact hbody

/-! ## Runs -/

theorem alike_processMethods (h : Alike w missing s s') (fuel : Nat) :
    Alike w missing (processMethods fuel s) (processMethods fuel s') := by
  induction fuel generalizing s s' with
  | zero => exact h
  | succ fuel ih =>
    unfold processMethods
    rw [h.same Analysis.worklist fun _ _ => rfl]
    split
    · exact h
    · next rest _ => exact ih (alike_processMethod (h.map (fun u => { u with worklist := rest }) fun _ _ => rfl) _)

theorem alike_runTasks (h : Alike w missing s s') : Alike w missing s.runTasks s'.runTasks := by
  have htasks : s'.deferred = s.deferred := h.same Analysis.deferred fun _ _ => rfl
  unfold runTasks
  rw [htasks]
  have htaken := h.map (fun u => { u with deferred := [] }) fun _ _ => rfl
  refine htaken.foldl (fun task h => alike_runTask ?_ task) s.deferred
  exact h.map (fun u => { u with tally := { u.tally with tasksRun := u.tally.tasksRun + 1 } }) fun _ _ => rfl

theorem alike_runWaves (h : Alike w missing s s') (methods fuel : Nat) :
    Alike w missing (runWaves methods fuel s) (runWaves methods fuel s') := by
  induction fuel generalizing s s' with
  | zero => exact h
  | succ fuel ih =>
    have htally := h.map (fun u => { u with tally := { u.tally with waves := u.tally.waves + 1 } }) fun _ _ => rfl
    have hmethods := alike_processMethods htally methods
    unfold runWaves
    simp only [hmethods.same Analysis.deferred fun _ _ => rfl]
    split
    · exact hmethods
    · exact ih (alike_runTasks hmethods)

/-! ## Entry points -/

theorem alike_withEntries (h : Alike w missing s s')
    (entries entries' : Table QualifiedMethod (List (Nat × ExactType))) :
    Alike w missing { s with entries := entries } { s' with entries := entries' } := by
  obtain ⟨hs, hs', hp⟩ := h
  exact .intro hs hs' hp

theorem alike_addEntry (h : Alike w missing s s') (m : QualifiedMethod) :
    (s'.addEntry m).1 = (s.addEntry m).1 ∧ Alike w missing (s.addEntry m).2 (s'.addEntry m).2 := by
  obtain ⟨hid, hlink⟩ := alike_linkMethod h m
  have hrecord := hlink.same Analysis.methods fun _ _ => rfl
  unfold addEntry
  simp only [hid, hrecord]
  split
  · exact ⟨rfl, hlink⟩
  · refine ⟨rfl, ?_⟩
    split
    · split
      · exact alike_withEntries (alike_initializeClass hlink _) _ _
      · exact alike_withEntries hlink _ _
    · exact alike_withEntries hlink _ _

theorem alike_seedParam (h : Alike w missing s s') (m : QualifiedMethod) (index : Nat) (t : ExactType) :
    (∃ u u', s.seedParam m index t = .ok u ∧ s'.seedParam m index t = .ok u' ∧ Alike w missing u u') ∨
      ∃ e, s.seedParam m index t = .error e ∧ s'.seedParam m index t = .error e := by
  unfold seedParam
  rw [h.same (method? · m) fun _ _ => rfl]
  cases s.method? m with
  | none => exact Or.inr ⟨_, rfl, rfl⟩
  | some r =>
    simp only []
    cases r.params[index]? with
    | none => exact Or.inr ⟨_, rfl, rfl⟩
    | some n =>
      refine Or.inl ⟨_, _, rfl, rfl, ?_⟩
      exact alike_withEntries (alike_instantiate h n t) _ _

end Analysis

end TypeFlow
