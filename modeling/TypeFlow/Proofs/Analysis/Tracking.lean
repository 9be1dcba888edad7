import TypeFlow.Proofs.Analysis.Process
import TypeFlow.Proofs.Hierarchy.Agreement

/-!
# The same operation over two worlds

An analysis looks at its world through the hierarchy alone, and the hierarchy
remembers every name that it looked up. So an operation comes to the same state
over each world that agrees on the names remembered in the end: names that
nobody asked for, found or not, have no say in it.
-/

namespace TypeFlow

namespace Analysis

/-- From `s` an operation came to `t`, and over the world `w` to `t'`: the same state, if `w` agrees on what `t`
remembers. -/
structure Tracks (w : World) (s t t' : Analysis) : Prop where
  learns : s.hierarchy.Learns t.hierarchy
  same : t.hierarchy.Agrees w → t' = t.setWorld w

structure TracksTo {α : Type} (w : World) (s : Analysis) (p p' : α × Analysis) : Prop where
  learns : s.hierarchy.Learns p.2.hierarchy
  same : p.2.hierarchy.Agrees w → p' = (p.1, p.2.setWorld w)

variable {α β : Type} {w : World} {s t t' : Analysis} {p p' : α × Analysis}

/-! ## One after the other -/

theorem Tracks.refl (s : Analysis) : Tracks w s s (s.setWorld w) := ⟨.refl _, fun _ => rfl⟩

theorem Tracks.trans (h : Tracks w s t t') {k : Analysis → Analysis} (hk : Tracks w t (k t) (k (t.setWorld w))) :
    Tracks w s (k t) (k t') where
  learns := h.learns.trans hk.learns
  same ha := by
    rw [h.same (hk.learns.agrees ha)]
    exact hk.same ha

theorem Tracks.transTo (h : Tracks w s t t') {k : Analysis → α × Analysis}
    (hk : TracksTo w t (k t) (k (t.setWorld w))) : TracksTo w s (k t) (k t') where
  learns := h.learns.trans hk.learns
  same ha := by
    rw [h.same (hk.learns.agrees ha)]
    exact hk.same ha

theorem TracksTo.snd (h : TracksTo w s p p') : Tracks w s p.2 p'.2 :=
  ⟨h.learns, fun ha => congrArg Prod.snd (h.same ha)⟩

/-- What is done next may depend on the result. -/
theorem TracksTo.bind (h : TracksTo w s p p') {k : α → Analysis → Analysis}
    (hk : Tracks w p.2 (k p.1 p.2) (k p.1 (p.2.setWorld w))) : Tracks w s (k p.1 p.2) (k p'.1 p'.2) where
  learns := h.learns.trans hk.learns
  same ha := by
    rw [h.same (hk.learns.agrees ha)]
    exact hk.same ha

theorem TracksTo.bindTo (h : TracksTo w s p p') {k : α → Analysis → β × Analysis}
    (hk : TracksTo w p.2 (k p.1 p.2) (k p.1 (p.2.setWorld w))) : TracksTo w s (k p.1 p.2) (k p'.1 p'.2) where
  learns := h.learns.trans hk.learns
  same ha := by
    rw [h.same (hk.learns.agrees ha)]
    exact hk.same ha

/-- An operation that does not look at the hierarchy. -/
theorem Tracks.blind {k : Analysis → Analysis} (s : Analysis)
    (hk : ∀ t h, k { t with hierarchy := h } = { k t with hierarchy := h }) :
    Tracks w s (k s) (k (s.setWorld w)) := by
  have hself : k s = { k s with hierarchy := s.hierarchy } := hk s s.hierarchy
  have hsame : (k s).hierarchy = ({ k s with hierarchy := s.hierarchy } : Analysis).hierarchy :=
    congrArg Analysis.hierarchy hself
  refine ⟨hsame ▸ .refl _, fun _ => (hk s (s.hierarchy.setWorld w)).trans ?_⟩
  rw [← hsame]
  rfl

theorem TracksTo.blind {k : Analysis → α × Analysis} (s : Analysis)
    (hk : ∀ t h, k { t with hierarchy := h } = ((k t).1, { (k t).2 with hierarchy := h })) :
    TracksTo w s (k s) (k (s.setWorld w)) := by
  have hself : k s = ((k s).1, { (k s).2 with hierarchy := s.hierarchy }) := hk s s.hierarchy
  have hsame : (k s).2.hierarchy = s.hierarchy := congrArg (fun q : α × Analysis => q.2.hierarchy) hself
  refine ⟨hsame ▸ .refl _, fun _ => (hk s (s.hierarchy.setWorld w)).trans ?_⟩
  rw [← hsame]
  rfl

theorem TracksTo.pair (h : Tracks w s t t') (a : α) : TracksTo w s (a, t) (a, t') :=
  ⟨h.learns, fun ha => congrArg (a, ·) (h.same ha)⟩

theorem TracksTo.map (h : TracksTo w s p p') (f : α → β) : TracksTo w s (f p.1, p.2) (f p'.1, p'.2) :=
  ⟨h.learns, fun ha => congrArg (fun q : α × Analysis => (f q.1, q.2)) (h.same ha)⟩

theorem Tracks.ite {c : Prop} [Decidable c] {u u' : Analysis} (ht : Tracks w s t t') (hu : Tracks w s u u') :
    Tracks w s (if c then t else u) (if c then t' else u') := by
  split
  · exact ht
  · exact hu

/-- It is enough that the second one comes to `t'` if the worlds agree. -/
theorem Tracks.of_agrees (h : Tracks w s t t') {u : Analysis} (hu : t.hierarchy.Agrees w → u = t') :
    Tracks w s t u :=
  ⟨h.learns, fun ha => (hu ha).trans (h.same ha)⟩

theorem Tracks.foldl {op : Analysis → α → Analysis} (hop : ∀ s a, Tracks w s (op s a) (op (s.setWorld w) a))
    (l : List α) (s : Analysis) : Tracks w s (l.foldl op s) (l.foldl op (s.setWorld w)) := by
  induction l generalizing s with
  | nil => exact .refl s
  | cons a l ih => exact (hop s a).trans (k := l.foldl op) (ih (op s a))

theorem Tracks.mapGraph (s : Analysis) (f : FlowGraph → FlowGraph) :
    Tracks w s { s with graph := f s.graph } { s.setWorld w with graph := f s.graph } :=
  .blind (k := fun t => { t with graph := f t.graph }) s fun _ _ => rfl

/-! ## Asking the hierarchy -/

theorem TracksTo.asked {a a' : α × Hierarchy} (hl : s.hierarchy.Learns a.2)
    (ha : a.2.Agrees w → a' = (a.1, a.2.setWorld w)) :
    TracksTo w s (a.1, { s with hierarchy := a.2 }) (a'.1, { s.setWorld w with hierarchy := a'.2 }) := by
  refine ⟨hl, fun hagrees => ?_⟩
  rw [ha hagrees]
  rfl

theorem tracks_get (s : Analysis) (n : ClassName) :
    TracksTo w s ((s.hierarchy.get n).1, { s with hierarchy := (s.hierarchy.get n).2 })
      (((s.setWorld w).hierarchy.get n).1, { s.setWorld w with hierarchy := ((s.setWorld w).hierarchy.get n).2 }) :=
  .asked (s.hierarchy.learns_remember n) Hierarchy.get_setWorld

theorem tracks_resolveMethod (s : Analysis) (m : QualifiedMethod) :
    TracksTo w s ((s.hierarchy.resolveMethod m).1, s.askedMethod m)
      (((s.setWorld w).hierarchy.resolveMethod m).1, (s.setWorld w).askedMethod m) :=
  .asked (s.hierarchy.learns_ask _) Hierarchy.resolveMethod_setWorld

theorem tracks_resolveField (s : Analysis) (f : QualifiedField) :
    TracksTo w s ((s.hierarchy.resolveField f).1, s.askedField f)
      (((s.setWorld w).hierarchy.resolveField f).1, (s.setWorld w).askedField f) :=
  .asked (s.hierarchy.learns_ask _) Hierarchy.resolveField_setWorld

/-! ## Linking -/

theorem tracks_recordClass (s : Analysis) (name : ClassName) :
    Tracks w s (s.recordClass name) ((s.setWorld w).recordClass name) := by
  unfold recordClass
  refine (tracks_get s name).bind (k := fun found t =>
    if found.isNone then
      Analysis.report { t with classes := t.classes.insert name ⟨found.isNone, false⟩ } (.missingClass name)
    else { t with classes := t.classes.insert name ⟨found.isNone, false⟩ }) ?_
  have hrecord := Tracks.blind (w := w) (k := fun t => { t with
    classes := t.classes.insert name ⟨(s.hierarchy.get name).1.isNone, false⟩ })
    { s with hierarchy := (s.hierarchy.get name).2 } fun _ _ => rfl
  exact .ite (hrecord.trans (k := (report · (.missingClass name)))
    (.blind (k := (report · (.missingClass name))) _ fun _ _ => rfl)) hrecord

/-- The names to be recorded are those that are looked up to find them. -/
theorem tracks_linkClass (s : Analysis) (name : ClassName) :
    TracksTo w s (s.linkClass name) ((s.setWorld w).linkClass name) := by
  by_cases hn : name ∈ s.classes.keys
  · rw [linkClass_of_mem hn, linkClass_of_mem (s := s.setWorld w) hn]
    exact .pair (.refl s) _
  · have hrecord := Tracks.foldl (w := w) tracks_recordClass
      (s.hierarchy.view.traverse .stack ClassDef.supertypes s.classes.keys [name]) s
    rw [linkClass_of_not_mem hn, linkClass_of_not_mem (s := s.setWorld w) hn]
    refine ⟨hrecord.learns, fun ha => ?_⟩
    have hmet : (s.setWorld w).hierarchy.view.traverse .stack ClassDef.supertypes s.classes.keys [name]
        = s.hierarchy.view.traverse .stack ClassDef.supertypes s.classes.keys [name] := by
      refine Catalog.traverse_congr_met fun n hn => hrecord.learns.lookup_setWorld ha ?_
      rw [hierarchy_recordClasses]
      exact s.hierarchy.mem_keys_rememberAll hn
    have hsame := hrecord.same ha
    rw [show (s.setWorld w).classes.keys = s.classes.keys from rfl, hmet, hsame]
    rfl

/-- A name that turns out to lead nowhere is reported, if its class is there. -/
theorem tracks_linkOwner (s : Analysis) (owner : ClassName) (p : Problem) :
    Tracks w s (if (s.linkClass owner).1 then (s.linkClass owner).2.report p else (s.linkClass owner).2)
      (if ((s.setWorld w).linkClass owner).1 then ((s.setWorld w).linkClass owner).2.report p
        else ((s.setWorld w).linkClass owner).2) := by
  refine (tracks_linkClass s owner).bind (k := fun present t => if present then t.report p else t) ?_
  exact .ite (.blind (k := (report · p)) _ fun _ _ => rfl) (.refl _)

def recordAs (s : Analysis) (m resolved : QualifiedMethod) (d : ClassDef) (f : MethodDef) :
    Option MethodId × Analysis :=
  let (id, s) := s.recordMethod resolved d f
  (some id, if resolved = m then s else { s with aliases := s.aliases.insert m id })

def linkFound (s : Analysis) (m resolved : QualifiedMethod) (declaring? : Option ClassDef) :
    Option MethodId × Analysis :=
  match declaring?.bind fun d => (d.method? resolved.signature).map fun f => (d, f) with
  | none => (none, s)
  | some (d, f) => (s.linkClass resolved.owner).2.recordAs m resolved d f

def linkResolved (s : Analysis) (m : QualifiedMethod) : Option QualifiedMethod → Option MethodId × Analysis
  | none => (none,
      if (s.linkClass m.owner).1 then (s.linkClass m.owner).2.report (.missingMethod m)
      else (s.linkClass m.owner).2)
  | some resolved =>
    match s.declarationId? resolved with
    | some id => (some id, { s with aliases := s.aliases.insert m id })
    | none =>
      linkFound { s with hierarchy := (s.hierarchy.get resolved.owner).2 } m resolved
        (s.hierarchy.get resolved.owner).1

theorem linkMethod_of_unknown {m : QualifiedMethod} (hm : s.methodId? m = none) :
    s.linkMethod m = (s.askedMethod m).linkResolved m (s.hierarchy.resolveMethod m).1 := by
  unfold linkMethod
  rw [hm]
  rfl

theorem tracks_linkFound (s : Analysis) (m resolved : QualifiedMethod) (declaring? : Option ClassDef) :
    TracksTo w s (s.linkFound m resolved declaring?) ((s.setWorld w).linkFound m resolved declaring?) := by
  unfold linkFound
  cases declaring?.bind fun d => (d.method? resolved.signature).map fun f => (d, f) with
  | none => exact .pair (.refl s) none
  | some found =>
    refine (tracks_linkClass s resolved.owner).snd.transTo (k := (recordAs · m resolved found.1 found.2)) ?_
    refine .blind (k := (recordAs · m resolved found.1 found.2)) _ fun t h => ?_
    by_cases hm : resolved = m
    · simp only [recordAs, if_pos hm]
      rfl
    · simp only [recordAs, if_neg hm]
      rfl

theorem tracks_linkResolved (s : Analysis) (m : QualifiedMethod) (resolved? : Option QualifiedMethod) :
    TracksTo w s (s.linkResolved m resolved?) ((s.setWorld w).linkResolved m resolved?) := by
  unfold linkResolved
  cases resolved? with
  | none => exact .pair (tracks_linkOwner s m.owner _) none
  | some resolved =>
    have hsame : (s.setWorld w).declarationId? resolved = s.declarationId? resolved := rfl
    simp only [hsame]
    cases s.declarationId? resolved with
    | some id =>
      exact .blind (k := fun t => (some id, { t with aliases := t.aliases.insert m id })) s fun _ _ => rfl
    | none =>
      exact (tracks_get s resolved.owner).bindTo (k := fun found t => t.linkFound m resolved found)
        (tracks_linkFound _ m resolved _)

theorem tracks_linkMethod (s : Analysis) (m : QualifiedMethod) :
    TracksTo w s (s.linkMethod m) ((s.setWorld w).linkMethod m) := by
  cases hm : s.methodId? m with
  | some id =>
    rw [linkMethod_of_known hm, linkMethod_of_known (s := s.setWorld w) hm]
    exact .pair (.refl s) _
  | none =>
    rw [linkMethod_of_unknown hm, linkMethod_of_unknown (s := s.setWorld w) hm]
    exact (tracks_resolveMethod s m).bindTo (k := fun resolved? t => t.linkResolved m resolved?)
      (tracks_linkResolved _ m _)

/-! ## Initialisation -/

def linkInitializer (s : Analysis) (name : ClassName) (found : Option ClassDef) : Analysis :=
  if s.settings.classInitializers && found.any fun d => (d.method? .classInitializer).isSome then
    (s.linkMethod ⟨name, .classInitializer⟩).2
  else s

theorem tracks_linkInitializer (s : Analysis) (name : ClassName) (found : Option ClassDef) :
    Tracks w s (s.linkInitializer name found) ((s.setWorld w).linkInitializer name found) :=
  .ite (tracks_linkMethod s _).snd (.refl s)

def noteInitialized (s : Analysis) (name : ClassName) : Analysis :=
  { s with classes := s.classes.adjust name fun r => { r with initialized := true } }

theorem tracks_markInitialized (s : Analysis) (name : ClassName) :
    Tracks w s (s.markInitialized name) ((s.setWorld w).markInitialized name) := by
  have hnote : Tracks w s (s.noteInitialized name) ((s.setWorld w).noteInitialized name) :=
    .blind (k := (noteInitialized · name)) s fun _ _ => rfl
  have hget := hnote.transTo
    (k := fun t => ((t.hierarchy.get name).1, { t with hierarchy := (t.hierarchy.get name).2 }))
    (tracks_get _ name)
  exact hget.bind (k := fun found t => t.linkInitializer name found) (tracks_linkInitializer _ name _)

theorem mem_keys_markInitialized (s : Analysis) (name : ClassName) :
    name ∈ (s.markInitialized name).hierarchy.classes.keys :=
  Hierarchy.mem_keys_of_retains
    (tracks_linkInitializer (w := ∅) { s.noteInitialized name with hierarchy := s.hierarchy.remember name } name
      (s.hierarchy.lookup name)).learns.retains (s.hierarchy.mem_keys_remember name)

/-- The first class of a chain and then the others, which may differ unless the first one was looked up. -/
theorem tracks_initializeCons (s : Analysis) (name : ClassName) {names names' : List ClassName}
    (hnames : ∀ t : Analysis, s.hierarchy.Learns t.hierarchy → name ∈ t.hierarchy.classes.keys →
      Tracks w t (t.initializeAlong names) ((t.setWorld w).initializeAlong names')) :
    Tracks w s (s.initializeAlong (name :: names)) ((s.setWorld w).initializeAlong (name :: names')) := by
  have hlink := tracks_linkClass (w := w) s name
  have hmark := hlink.snd.trans (k := (markInitialized · name)) (tracks_markInitialized _ name)
  have hrest := hnames _ hmark.learns (mem_keys_markInitialized _ name)
  unfold initializeAlong
  simp only []
  by_cases hstop : !(s.linkClass name).1 || ((s.linkClass name).2.classes.find? name).any ClassRecord.initialized
  · rw [if_pos hstop]
    refine hlink.snd.of_agrees fun ha => ?_
    rw [hlink.same ha]
    exact if_pos hstop
  · rw [if_neg hstop]
    refine ⟨hmark.learns.trans hrest.learns, fun ha => ?_⟩
    have hmarked := hmark.same (hrest.learns.agrees ha)
    have hlinked := hlink.same (((tracks_markInitialized (w := w) _ name).learns.trans hrest.learns).agrees ha)
    rw [hlinked] at hmarked ⊢
    rw [show ((s.linkClass name).2.setWorld w).classes = (s.linkClass name).2.classes from rfl,
      if_neg hstop, hmarked]
    exact hrest.same ha

/-- The chains are those of a hierarchy from before. -/
theorem tracks_initializeAlong {h : Hierarchy} (seen : List ClassName) (name : ClassName)
    (hl : h.Learns s.hierarchy) :
    Tracks w s (s.initializeAlong (h.view.superclasses seen name))
      ((s.setWorld w).initializeAlong ((h.setWorld w).view.superclasses seen name)) := by
  -- On the chain: a class is looked up when it is linked, before the rest of the chain has a say.
  have hfind : ∀ {n : ClassName} {t : Analysis}, h.Learns t.hierarchy → n ∈ t.hierarchy.classes.keys →
      t.hierarchy.Agrees w → (h.setWorld w).view.find? n = h.view.find? n := fun hl hn ha =>
    hl.lookup_setWorld ha hn
  fun_induction Catalog.superclasses h.view seen name generalizing s with
  | case1 seen name hn =>
    rw [Catalog.superclasses_of_mem hn]
    exact .refl s
  | case2 seen name hn hd =>
    rw [Catalog.superclasses_of_not_mem hn]
    refine tracks_initializeCons s name fun t ht hname => (Tracks.refl t).of_agrees fun ha => ?_
    rw [hfind (hl.trans ht) hname ha, hd]
    rfl
  | case3 seen name hn d hd hs =>
    rw [Catalog.superclasses_of_not_mem hn]
    refine tracks_initializeCons s name fun t ht hname => (Tracks.refl t).of_agrees fun ha => ?_
    rw [hfind (hl.trans ht) hname ha, hd, Option.bind_some, hs]
    rfl
  | case4 seen name hn d hd parent hs ih =>
    rw [Catalog.superclasses_of_not_mem hn]
    refine tracks_initializeCons s name fun t ht hname => (ih (hl.trans ht)).of_agrees fun ha => ?_
    rw [hfind (n := name) ((hl.trans ht).trans (ih (hl.trans ht)).learns)
      (Hierarchy.mem_keys_of_retains (ih (hl.trans ht)).learns.retains hname) ha, hd, Option.bind_some, hs]

theorem tracks_initializeClass (s : Analysis) (name : ClassName) :
    Tracks w s (s.initializeClass name) ((s.setWorld w).initializeClass name) :=
  tracks_initializeAlong [] name (.refl s.hierarchy)

/-! ## Fields -/

def newField (s : Analysis) (f resolved : QualifiedField) : NodeId × Analysis :=
  (s.newNode.1, { s.newNode.2 with
    fields := (s.newNode.2.fields.insert resolved ⟨resolved, s.newNode.1⟩).insert f ⟨resolved, s.newNode.1⟩ })

def linkResolvedField (s : Analysis) (f : QualifiedField) : Option QualifiedField → NodeId × Analysis
  | none => (root,
      if (s.linkClass f.owner).1 then (s.linkClass f.owner).2.report (.missingField f) else (s.linkClass f.owner).2)
  | some resolved =>
    match s.fields.find? resolved with
    | some record => (record.node, { s with fields := s.fields.insert f ⟨resolved, record.node⟩ })
    | none => (s.linkClass resolved.owner).2.newField f resolved

theorem linkField_of_unknown {f : QualifiedField} (hf : s.fields.find? f = none) :
    s.linkField f = (s.askedField f).linkResolvedField f (s.hierarchy.resolveField f).1 := by
  unfold linkField
  rw [hf]
  rfl

theorem tracks_linkResolvedField (s : Analysis) (f : QualifiedField) (resolved? : Option QualifiedField) :
    TracksTo w s (s.linkResolvedField f resolved?) ((s.setWorld w).linkResolvedField f resolved?) := by
  unfold linkResolvedField
  cases resolved? with
  | none => exact .pair (tracks_linkOwner s f.owner _) root
  | some resolved =>
    have hsame : (s.setWorld w).fields.find? resolved = s.fields.find? resolved := rfl
    simp only [hsame]
    cases s.fields.find? resolved with
    | some record =>
      exact .blind (k := fun t => (record.node, { t with fields := t.fields.insert f ⟨resolved, record.node⟩ })) s
        fun _ _ => rfl
    | none =>
      exact (tracks_linkClass s resolved.owner).snd.transTo (k := (newField · f resolved))
        (.blind (k := (newField · f resolved)) _ fun _ _ => rfl)

theorem tracks_linkField (s : Analysis) (f : QualifiedField) :
    TracksTo w s (s.linkField f) ((s.setWorld w).linkField f) := by
  cases hf : s.fields.find? f with
  | some record =>
    rw [linkField_of_known hf, linkField_of_known (s := s.setWorld w) hf]
    exact .pair (.refl s) _
  | none =>
    rw [linkField_of_unknown hf, linkField_of_unknown (s := s.setWorld w) hf]
    exact (tracks_resolveField s f).bindTo (k := fun resolved? t => t.linkResolvedField f resolved?)
      (tracks_linkResolvedField _ f _)

/-! ## Notices -/

theorem tracks_aggregate (s : Analysis) (t : DeclType) :
    TracksTo w s (s.aggregate t) ((s.setWorld w).aggregate t) := by
  cases ht : s.aggregate? t with
  | some n =>
    rw [aggregate_of_some ht, aggregate_of_some (s := s.setWorld w) ht]
    exact .pair (.refl s) n
  | none =>
    rw [aggregate_of_none ht, aggregate_of_none (s := s.setWorld w) ht]
    exact .blind (k := fun u => (u.graph.newNode.1, { u with
      graph := u.graph.newNode.2
      aggregates := u.aggregates.insert t u.graph.newNode.1
      deferred := u.deferred ++ [.wire t u.graph.newNode.1] })) s fun _ _ => rfl

theorem tracks_connectAll (s : Analysis) (edges : List (NodeId × NodeId)) :
    Tracks w s (s.connectAll edges) ((s.setWorld w).connectAll edges) :=
  .blind (k := (connectAll · edges)) s fun _ _ => rfl

theorem tracks_connectCall (s : Analysis) (site : CallSite) (callee : MethodId) :
    Tracks w s (s.connectCall site callee) ((s.setWorld w).connectCall site callee) := by
  have hsame : (s.setWorld w).methods[callee]? = s.methods[callee]? := rfl
  unfold connectCall
  rw [hsame]
  cases s.methods[callee]? with
  | none => exact .refl s
  | some r => exact tracks_connectAll s _

theorem tracks_admits (s : Analysis) (sel : Selector) (t : ExactType) :
    TracksTo w s (s.admits sel t) ((s.setWorld w).admits sel t) := by
  unfold admits
  cases sel.filter? with
  | none => exact .pair (.refl s) true
  | some declared => exact .asked (s.hierarchy.learns_isAssignable t declared) Hierarchy.isAssignable_setWorld

theorem tracks_resolveImplementation (s : Analysis) (receiver : ClassName) (sig : Signature) :
    TracksTo w s
      ((s.hierarchy.resolveImplementation receiver sig).1,
        { s with hierarchy := (s.hierarchy.resolveImplementation receiver sig).2 })
      (((s.setWorld w).hierarchy.resolveImplementation receiver sig).1,
        { s.setWorld w with hierarchy := ((s.setWorld w).hierarchy.resolveImplementation receiver sig).2 }) :=
  .asked (s.hierarchy.learns_ask _) Hierarchy.resolveImplementation_setWorld

def pickAdmitted (s : Analysis) (sel : Selector) (t : ExactType) : Option QualifiedMethod × Analysis :=
  match t.dispatchClass? with
  | none => (none, s)
  | some receiver =>
    ((s.hierarchy.resolveImplementation receiver sel.declared.signature).1,
      { s with hierarchy := (s.hierarchy.resolveImplementation receiver sel.declared.signature).2 })

theorem tracks_pickAdmitted (s : Analysis) (sel : Selector) (t : ExactType) :
    TracksTo w s (s.pickAdmitted sel t) ((s.setWorld w).pickAdmitted sel t) := by
  unfold pickAdmitted
  cases t.dispatchClass? with
  | none => exact .pair (.refl _) none
  | some receiver => exact tracks_resolveImplementation _ receiver _

theorem tracks_pick (s : Analysis) (sel : Selector) (t : ExactType) :
    TracksTo w s (s.pick sel t) ((s.setWorld w).pick sel t) := by
  refine (tracks_admits s sel t).bindTo (k := fun ok u => if !ok then (none, u) else u.pickAdmitted sel t) ?_
  split
  · exact .pair (.refl _) none
  · exact tracks_pickAdmitted _ sel t

def takeTarget (s : Analysis) (id : SelectorId) (sel : Selector) (target : QualifiedMethod) : Analysis :=
  match ((s.withTarget id target).linkMethod target).1 with
  | none => ((s.withTarget id target).linkMethod target).2
  | some callee =>
    sel.sites.foldl (fun s site => s.connectCall site callee) ((s.withTarget id target).linkMethod target).2

theorem tracks_takeTarget (s : Analysis) (id : SelectorId) (sel : Selector) (target : QualifiedMethod) :
    Tracks w s (s.takeTarget id sel target) ((s.setWorld w).takeTarget id sel target) := by
  have htarget : Tracks w s (s.withTarget id target) ((s.setWorld w).withTarget id target) :=
    .blind (k := (withTarget · id target)) s fun _ _ => rfl
  refine (htarget.transTo (k := (linkMethod · target)) (tracks_linkMethod _ target)).bind (k := fun callee? t =>
    match callee? with
    | none => t
    | some callee => sel.sites.foldl (fun s site => s.connectCall site callee) t) ?_
  split
  · exact .refl _
  · exact .foldl (fun s site => tracks_connectCall s site _) sel.sites _

theorem tracks_serve (s : Analysis) (id : SelectorId) (t : ExactType) :
    Tracks w s (s.serve id t) ((s.setWorld w).serve id t) := by
  have hsame : (s.setWorld w).selectors[id]? = s.selectors[id]? := rfl
  unfold serve
  rw [hsame]
  cases s.selectors[id]? with
  | none => exact .refl s
  | some sel =>
    refine (tracks_pick s sel t).bind (k := fun target? u =>
      match target? with
      | none => u
      | some target => if target ∈ sel.targets then u else u.takeTarget id sel target) ?_
    split
    · exact .refl _
    · exact .ite (.refl _) (tracks_takeTarget _ id sel _)

theorem tracks_deliver (s : Analysis) (notice : Notice) :
    Tracks w s (s.deliver notice) ((s.setWorld w).deliver notice) := by
  have hlistener : (s.setWorld w).listeners[notice.listener]? = s.listeners[notice.listener]? := rfl
  have htype : (s.setWorld w).graph.type? notice.type = s.graph.type? notice.type := rfl
  unfold deliver
  rw [hlistener, htype]
  split
  · next t _ _ =>
    exact (tracks_aggregate s t.toDecl).bind (k := fun n u => { u with graph := (u.graph.add n notice.type).2 })
      (.mapGraph _ fun g => (g.add _ notice.type).2)
  · exact tracks_serve s _ _
  · next label t _ _ =>
    exact .blind (k := fun u => { u with observations := u.observations ++ [(label, t)] }) s fun _ _ => rfl
  · exact .refl s

theorem tracks_drain (s : Analysis) : Tracks w s s.drain (s.setWorld w).drain := by
  fun_induction drain s with
  | case1 s hnone =>
    rw [drain_of_calm (s := s.setWorld w) hnone]
    exact .refl s
  | case2 s notice g hsome ih =>
    rw [drain_of_notice (s := s.setWorld w) hsome]
    have htaken : Tracks w s { s with graph := g } { s.setWorld w with graph := g } := .mapGraph s fun _ => g
    exact (htaken.trans (k := (deliver · notice)) (tracks_deliver _ notice)).trans (k := drain) ih

/-! ## Flow -/

theorem tracks_connect (s : Analysis) (a b : NodeId) : Tracks w s (s.connect a b) ((s.setWorld w).connect a b) :=
  (Tracks.mapGraph s fun g => g.connect a b).trans (k := drain) (tracks_drain _)

theorem tracks_listen (s : Analysis) (n : NodeId) (l : ListenerId) :
    Tracks w s (s.listen n l) ((s.setWorld w).listen n l) :=
  (Tracks.mapGraph s fun g => g.listen n l).trans (k := drain) (tracks_drain _)

theorem tracks_linkElement (s : Analysis) (t : ExactType) :
    Tracks w s (s.linkElement t) ((s.setWorld w).linkElement t) := by
  unfold linkElement
  split
  · exact (tracks_linkClass s _).snd
  · exact .refl s

theorem tracks_instantiate (s : Analysis) (n : NodeId) (t : ExactType) :
    Tracks w s (s.instantiate n t) ((s.setWorld w).instantiate n t) := by
  rw [instantiate_eq, instantiate_eq]
  exact ((tracks_linkElement s t).trans (k := (withType · t [n, root]))
    (.blind (k := (withType · t [n, root])) _ fun _ _ => rfl)).trans (k := drain) (tracks_drain _)

theorem tracks_consult (s : Analysis) (t : DeclType) : Tracks w s (s.consult t) ((s.setWorld w).consult t) := by
  unfold consult
  split
  · next name _ =>
    refine .ite (.refl s) ?_
    exact (tracks_get s name).bind (k := fun found u => if found.isNone then (u.linkClass name).2 else u)
      (.ite (tracks_linkClass _ name).snd (.refl _))
  · exact .refl s

def wireTo (s : Analysis) (n : NodeId) (supers : List DeclType) : Analysis :=
  if supers.isEmpty then s.connect n root
  else supers.foldl (fun s super => (s.aggregate super).2.connect n (s.aggregate super).1) s

theorem tracks_wireTo (s : Analysis) (n : NodeId) (supers : List DeclType) :
    Tracks w s (s.wireTo n supers) ((s.setWorld w).wireTo n supers) := by
  refine .ite (tracks_connect s n root) (.foldl (fun s super => ?_) supers s)
  exact (tracks_aggregate s super).bind (k := fun target u => u.connect n target) (tracks_connect _ n _)

theorem tracks_wireSupertypes (s : Analysis) (t : DeclType) (n : NodeId) :
    Tracks w s (s.wireSupertypes t n) ((s.setWorld w).wireSupertypes t n) := by
  have hconsult := tracks_consult (w := w) s t
  have hwire := tracks_wireTo (w := w) (s.consult t) n (directSupertypes s.hierarchy.lookup t)
  refine (hconsult.trans (k := (wireTo · n (directSupertypes s.hierarchy.lookup t))) hwire).of_agrees fun ha => ?_
  -- The supertypes are read off before the class is looked up, and decided by it afterwards.
  have hdecided := (moves_consult (w := .driver) s t []).2 (s.hierarchy.setWorld w).view
    (hconsult.learns.fits_setWorld (hwire.learns.agrees ha))
  exact congrArg (((s.setWorld w).consult t).wireTo n) hdecided

theorem tracks_poolNode (s : Analysis) (key : ItemKey) :
    TracksTo w s (s.poolNode key) ((s.setWorld w).poolNode key) := by
  cases hk : s.itemPools.find? key with
  | some n =>
    rw [poolNode_of_some hk, poolNode_of_some (s := s.setWorld w) hk]
    exact .pair (.refl s) (n, false)
  | none =>
    rw [poolNode_of_none hk, poolNode_of_none (s := s.setWorld w) hk]
    exact .blind (k := fun u => ((u.graph.newNode.1, true), { u with
      graph := u.graph.newNode.2
      itemPools := u.itemPools.insert key u.graph.newNode.1 })) s fun _ _ => rfl

def tiePool (s : Analysis) (n : NodeId) : Analysis :=
  ((s.poolNode .object).2.connect n (s.poolNode .object).1.1).connect (s.poolNode .object).1.1 n

theorem tracks_tiePool (s : Analysis) (n : NodeId) : Tracks w s (s.tiePool n) ((s.setWorld w).tiePool n) := by
  refine (tracks_poolNode s .object).bind (k := fun object u => (u.connect n object.1).connect object.1 n) ?_
  exact (tracks_connect _ n _).trans (k := (connect · _ n)) (tracks_connect _ _ n)

theorem tracks_itemPool (s : Analysis) (component : DeclType) :
    TracksTo w s (s.itemPool component) ((s.setWorld w).itemPool component) := by
  have heq : ∀ u : Analysis, u.itemPool component = ((u.poolNode (.ofType component)).1.1,
      if (u.poolNode (.ofType component)).1.2 && ItemKey.ofType component ≠ .object &&
          (ItemKey.ofType component).carriesReferences then
        (u.poolNode (.ofType component)).2.tiePool (u.poolNode (.ofType component)).1.1
      else (u.poolNode (.ofType component)).2) := by
    intro u
    unfold itemPool
    simp only []
    split
    · rfl
    · rfl
  rw [heq, heq]
  exact (tracks_poolNode s _).bindTo (k := fun node u => (node.1,
    if node.2 && ItemKey.ofType component ≠ .object && (ItemKey.ofType component).carriesReferences then
      u.tiePool node.1
    else u)) (.pair (.ite (tracks_tiePool _ _) (.refl _)) _)

/-! ## Dynamic calls -/

theorem tracks_newSelector (s : Analysis) (key : SelectorKey) (declared : QualifiedMethod)
    (receiver? : Option NodeId) :
    TracksTo w s (s.newSelector key declared receiver?) ((s.setWorld w).newSelector key declared receiver?) := by
  cases key with
  | shared m => exact .blind (k := (newSelector · (.shared m) declared receiver?)) s fun _ _ => rfl
  | perSite caller receiver m =>
    cases receiver? with
    | none => exact .blind (k := (newSelector · (.perSite caller receiver m) declared none)) s fun _ _ => rfl
    | some n =>
      have hpush := Tracks.blind (w := w) (k := fun u => { u with
          listeners := u.listeners.push (.selector u.selectors.size)
          selectors := u.selectors.push ⟨declared, some declared.owner, u.listeners.size, ∅, []⟩
          selectorKeys := u.selectorKeys.insert (.perSite caller receiver m) u.selectors.size }) s fun _ _ => rfl
      exact .pair (hpush.trans (k := (listen · n s.listeners.size)) (tracks_listen _ n _)) s.selectors.size

theorem tracks_selectorFor (s : Analysis) (receiver : Local) (declared : QualifiedMethod) (site : CallSite) :
    TracksTo w s (s.selectorFor receiver declared site) ((s.setWorld w).selectorFor receiver declared site) := by
  have hkey : (s.setWorld w).selectorKey site.caller receiver declared =
      s.selectorKey site.caller receiver declared :=
    rfl
  have hfind : (s.setWorld w).selectorKeys.find? (s.selectorKey site.caller receiver declared) =
    s.selectorKeys.find? (s.selectorKey site.caller receiver declared) := rfl
  unfold selectorFor
  rw [hkey, hfind]
  split
  · exact .pair (.refl s) _
  · exact tracks_newSelector s _ declared _

theorem tracks_joinAll (s : Analysis) (site : CallSite) (targets : List QualifiedMethod) :
    Tracks w s (s.joinAll site targets) ((s.setWorld w).joinAll site targets) := by
  refine .foldl (fun s target => ?_) targets s
  have hsame : (s.setWorld w).methodId? target = s.methodId? target := rfl
  rw [hsame]
  split
  · exact (tracks_connectCall s site _).trans (k := drain) (tracks_drain _)
  · exact .refl s

def joinSite (s : Analysis) (receiver : Local) (declared : QualifiedMethod) (site : CallSite) (id : SelectorId) :
    Analysis :=
  (s.withSite id ⟨receiver, declared.signature⟩ site).joinAll site
    ((s.withSite id ⟨receiver, declared.signature⟩ site).targetsOf id)

theorem tracks_linkDynamicCall (s : Analysis) (receiver : Local) (declared : QualifiedMethod) (site : CallSite) :
    Tracks w s (s.linkDynamicCall receiver declared site)
      ((s.setWorld w).linkDynamicCall receiver declared site) := by
  rw [linkDynamicCall_eq, linkDynamicCall_eq]
  refine (tracks_selectorFor s receiver declared site).bind
    (k := fun id u => u.joinSite receiver declared site id) ?_
  generalize (s.selectorFor receiver declared site).1 = id
  generalize (s.selectorFor receiver declared site).2 = u
  have hsite : Tracks w u (u.withSite id ⟨receiver, declared.signature⟩ site)
      ((u.setWorld w).withSite id ⟨receiver, declared.signature⟩ site) :=
    .blind (k := (withSite · id ⟨receiver, declared.signature⟩ site)) u fun _ _ => rfl
  exact hsite.trans (k := fun u => u.joinAll site (u.targetsOf id)) (tracks_joinAll _ site _)

def attach (s : Analysis) (id : SelectorId) (n : NodeId) : Analysis :=
  match s.selectors[id]? with
  | some sel => s.listen n sel.listener
  | none => s

theorem tracks_attach (s : Analysis) (id : SelectorId) (n : NodeId) :
    Tracks w s (s.attach id n) ((s.setWorld w).attach id n) := by
  have hsame : (s.setWorld w).selectors[id]? = s.selectors[id]? := rfl
  unfold attach
  rw [hsame]
  split
  · exact tracks_listen s _ _
  · exact .refl s

theorem tracks_runTask (s : Analysis) (t : Task) : Tracks w s (s.runTask t) ((s.setWorld w).runTask t) := by
  cases t with
  | wire t n => exact tracks_wireSupertypes s t n
  | attach id declared =>
    exact (tracks_aggregate s (.object declared)).bind (k := fun n u => u.attach id n) (tracks_attach _ id _)

/-! ## Bodies -/

theorem tracks_connectNodes (s : Analysis) (source? target? : Option NodeId) :
    Tracks w s (s.connectNodes source? target?) ((s.setWorld w).connectNodes source? target?) := by
  unfold connectNodes
  split
  · exact tracks_connect s _ _
  · exact .refl s

theorem tracks_instantiateLocal (s : Analysis) (f : Frame) (dst : Local) (t : ExactType) :
    Tracks w s (s.instantiateLocal f dst t) ((s.setWorld w).instantiateLocal f dst t) := by
  unfold instantiateLocal
  split
  · exact tracks_instantiate s _ t
  · exact .refl s

theorem tracks_linkType (s : Analysis) (t : DeclType) : Tracks w s (s.linkType t) ((s.setWorld w).linkType t) := by
  unfold linkType
  split
  · exact (tracks_linkClass s _).snd
  · exact .refl s

theorem tracks_accessField (s : Analysis) (instance? : Option Local) (field : QualifiedField) :
    TracksTo w s (s.accessField instance? field) ((s.setWorld w).accessField instance? field) :=
  (Tracks.ite (tracks_initializeClass s field.owner) (.refl s)).transTo (k := (linkField · field))
    (tracks_linkField _ field)

def allocateInner (s : Analysis) (inner : ExactType) : Analysis :=
  (s.itemPool inner.toDecl).2.instantiate (s.itemPool inner.toDecl).1 inner

theorem tracks_allocateInner (s : Analysis) (inner : ExactType) :
    Tracks w s (s.allocateInner inner) ((s.setWorld w).allocateInner inner) :=
  (tracks_itemPool s inner.toDecl).bind (k := fun pool u => u.instantiate pool inner) (tracks_instantiate _ _ inner)

theorem tracks_allocateArrays (s : Analysis) (f : Frame) (dst : Local) (type : DeclType) (count : Nat) :
    Tracks w s (s.allocateArrays f dst type count) ((s.setWorld w).allocateArrays f dst type count) := by
  unfold allocateArrays
  cases ExactType.ofDecl? type with
  | none => exact .refl s
  | some t =>
    exact (tracks_instantiateLocal s f dst t).trans (k := fun u => (innerArrays t count).foldl allocateInner u)
      (.foldl tracks_allocateInner (innerArrays t count) _)

theorem tracks_linkMonitor (object? : Option NodeId) (s : Analysis) (m : QualifiedMethod) :
    Tracks w s (linkMonitor object? s m) (linkMonitor object? (s.setWorld w) m) := by
  refine (tracks_linkMethod s m).bind (k := fun id? u =>
    match id? with
    | none => u
    | some id => u.connectNodes object? ((u.methods[id]?).bind fun r => r.params[1]?)) ?_
  split
  · exact .refl _
  · exact tracks_connectNodes _ object? _

theorem tracks_linkMonitors (s : Analysis) (object? : Option NodeId) :
    Tracks w s (s.linkMonitors object?) ((s.setWorld w).linkMonitors object?) :=
  .foldl (tracks_linkMonitor object?) (monitorMethods s.settings.asyncMonitors) s

theorem tracks_runMethod (s : Analysis) (callee : QualifiedMethod) (site : CallSite) :
    Tracks w s (s.runMethod callee site) ((s.setWorld w).runMethod callee site) := by
  refine (tracks_linkMethod s callee).bind (k := fun id? u =>
    match id? with
    | some id => (u.connectCall site id).drain
    | none => u) ?_
  split
  · exact (tracks_connectCall _ site _).trans (k := drain) (tracks_drain _)
  · exact .refl _

theorem tracks_call (s : Analysis) (f : Frame) (dst? instance? : Option Local) (callee : QualifiedMethod)
    (args : List Local) (binding : Binding) :
    Tracks w s (s.call f dst? instance? callee args binding)
      ((s.setWorld w).call f dst? instance? callee args binding) := by
  have hdirect : Tracks w s
      ((if binding = .static then s.initializeClass callee.owner else s).runMethod callee
        (f.site dst? instance? args))
      ((if binding = .static then (s.setWorld w).initializeClass callee.owner else s.setWorld w).runMethod callee
        (f.site dst? instance? args)) :=
    (Tracks.ite (tracks_initializeClass s callee.owner) (.refl s)).trans
      (k := (runMethod · callee (f.site dst? instance? args))) (tracks_runMethod _ callee _)
  unfold call
  cases binding.receiver? with
  | none => exact hdirect
  | some owner =>
    cases instance? with
    | none => exact hdirect
    | some receiver => exact tracks_linkDynamicCall s receiver _ _

theorem tracks_transfer (s : Analysis) (f : Frame) (i : Instr) :
    Tracks w s (s.transfer f i) ((s.setWorld w).transfer f i) := by
  cases i with
  | move dst src => exact tracks_connectNodes s _ _
  | cast dst src target =>
    exact (tracks_linkType s target).trans (k := (connectNodes · (f.node? src) (f.node? dst)))
      (tracks_connectNodes _ _ _)
  | nullConst dst => exact .refl s
  | textConst dst value => exact tracks_instantiateLocal s f dst _
  | classConst dst constant =>
    exact (tracks_linkType s constant).trans (k := (instantiateLocal · f dst (.ofClass classClass)))
      (tracks_instantiateLocal _ f dst _)
  | new dst cls => exact tracks_instantiateLocal s f dst _
  | newArray dst item length =>
    simp only [transfer]
    split
    · exact tracks_instantiateLocal s f dst _
    · exact .refl s
  | newMultiArray dst type lengths => exact tracks_allocateArrays s f dst type _
  | loadField dst instance? field type =>
    exact (tracks_accessField s instance? field).bind (k := fun node u => u.connectNodes (some node) (f.node? dst))
      (tracks_connectNodes _ _ _)
  | storeField instance? field src type =>
    exact (tracks_accessField s instance? field).bind (k := fun node u => u.connectNodes (f.node? src) (some node))
      (tracks_connectNodes _ _ _)
  | loadItem dst array type =>
    refine .ite ?_ (.refl s)
    exact (tracks_itemPool s type).bind (k := fun pool u => u.connectNodes (some pool) (f.node? dst))
      (tracks_connectNodes _ _ _)
  | storeItem array index src type =>
    refine .ite ?_ (.refl s)
    exact (tracks_itemPool s type).bind (k := fun pool u => u.connectNodes (f.node? src) (some pool))
      (tracks_connectNodes _ _ _)
  | cloneArray dst array => exact tracks_connectNodes s _ _
  | call dst? instance? callee args binding => exact tracks_call s f dst? instance? callee args binding
  | instanceTest dst src tested => exact tracks_linkType s tested
  | initClass cls => exact tracks_initializeClass s cls
  | phi dst sources => exact .foldl (fun s src => tracks_connectNodes s (f.node? src) (f.node? dst)) sources s
  | enterMonitor object => exact tracks_linkMonitors s _
  | exitMonitor object => exact tracks_linkMonitors s _
  | jump target => exact .refl s
  | branch condition thenBlock elseBlock => exact .refl s
  | ret value? => exact tracks_connectNodes s _ _
  | raise exception => exact tracks_connectNodes s _ _

theorem tracks_transferHandler (s : Analysis) (f : Frame) (x : Handler) :
    Tracks w s (s.transferHandler f x) ((s.setWorld w).transferHandler f x) := by
  unfold transferHandler
  cases x.catches with
  | none => exact tracks_connectNodes s _ _
  | some name =>
    exact (tracks_linkClass s name).snd.trans (k := (connectNodes · (some f.thrown) (x.dst?.bind f.node?)))
      (tracks_connectNodes _ _ _)

theorem tracks_transferBlock (s : Analysis) (f : Frame) (b : Block) :
    Tracks w s (s.transferBlock f b) ((s.setWorld w).transferBlock f b) :=
  (Tracks.foldl (fun s i => tracks_transfer s f i) b.instrs s).trans
    (k := fun u => b.handlers.foldl (fun s h => s.transferHandler f h) u)
    (.foldl (fun s x => tracks_transferHandler s f x) b.handlers _)

theorem tracks_runBody (s : Analysis) (f : Frame) (params : List NodeId) (body : Body) :
    Tracks w s (s.runBody f params body) ((s.setWorld w).runBody f params body) :=
  ((tracks_connectAll s _).trans (k := drain) (tracks_drain _)).trans
    (k := fun u => body.blocks.foldl (fun s b => s.transferBlock f b) u)
    (.foldl (fun s b => tracks_transferBlock s f b) body.blocks _)

end Analysis

end TypeFlow
