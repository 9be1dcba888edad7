import TypeFlow.Proofs.Analysis.Cover

/-!
# Linking by steps

Linking a member is a sequence of steps, and says what the member was found to
be: the linked method that a reference resolves to, the node of the field, or
nothing when the reference leads nowhere.
-/

namespace TypeFlow

namespace Analysis

/-- Whether `id?` is the linked method that `m` resolves to; none when it resolves to nothing. -/
def Names (s : Analysis) (m : QualifiedMethod) (id? : Option MethodId) : Prop :=
  match id? with
  | some id => ∃ r, s.methods[id]? = some r ∧ s.hierarchy.Decides (fun c => c.resolveMethod m) (some r.reference)
  | none => s.hierarchy.Decides (fun c => c.resolveMethod m) none

variable {w : Actor} {s s' : Analysis} {γ : List Duty}

theorem MethodsValid.names_self (hv : s.MethodsValid) {id : Nat} {r : MethodRecord} (hr : s.methods[id]? = some r) :
    s.Names r.reference (some id) := by
  refine ⟨r, hr, fun c hc => ?_⟩
  have hd := hc _ _ (hv.record hr).declaring
  exact Catalog.resolveMethod_self hd (hv.record hr).definition

theorem MethodsValid.names_of_methodId? (hv : s.MethodsValid) {m : QualifiedMethod} {id : Nat}
    (hm : s.methodId? m = some id) : s.Names m (some id) := by
  rcases Option.or_eq_some_iff.1 hm with hd | ⟨_, ha⟩
  · obtain ⟨r, hr, rfl⟩ := exists_of_declarationId? hd
    exact hv.names_self hr
  · exact hv.named ha

theorem Runs.of_names {R : Sense} {m : QualifiedMethod} {flow : MethodRecord → List (NodeId × NodeId)}
    {id : Nat} {r : MethodRecord} (hr : s.methods[id]? = some r) (hm : R.method m (some r.reference))
    (hf : ∀ e ∈ flow r, R.flows e.1 e.2) : s.Runs R m flow := by
  refine ⟨some r.reference, hm, fun target ht => ?_⟩
  cases ht
  exact ⟨r, ⟨rfl, id, hr⟩, hf⟩

theorem declarationId?_eq_none {m : QualifiedMethod}
    (h : ∀ {id : Nat} {r}, s.methods[id]? = some r → r.reference ≠ m) : s.declarationId? m = none := by
  refine Array.findIdx?_eq_none_iff.2 fun r hr => decide_eq_false ?_
  obtain ⟨i, hi, rfl⟩ := Array.mem_iff_getElem.1 hr
  exact h (Array.getElem?_eq_getElem hi)

theorem isSome_methodId?_iff {m : QualifiedMethod} :
    (s.methodId? m).isSome ↔ (∃ r, s.Linked m r) ∨ m ∈ s.aliases.keys := by
  unfold methodId?
  rw [Option.isSome_or, Bool.or_eq_true, Table.find?_isSome_iff]
  refine or_congr_left ⟨fun h => ?_, fun ⟨r, hr, id, hid⟩ => ?_⟩
  · obtain ⟨id, hid⟩ := Option.isSome_iff_exists.1 h
    obtain ⟨r, hr, href⟩ := exists_of_declarationId? hid
    exact ⟨r, href, id, hr⟩
  · cases hd : s.declarationId? m with
    | some _ => rfl
    | none => exact absurd hr (reference_ne_of_declarationId? hd hid)

theorem methodId?_recordMethod {m target : QualifiedMethod} (hm : s.methodId? m = none) (hne : target ≠ m)
    (d : ClassDef) (f : MethodDef) : (s.recordMethod target d f).2.methodId? m = none := by
  obtain ⟨hd, ha⟩ := Option.or_eq_none_iff.1 hm
  refine Option.or_eq_none_iff.2 ⟨declarationId?_eq_none fun {id r} hr => ?_, ha⟩
  rcases getElem?_push_cases hr with hr | ⟨_, rfl⟩
  · exact reference_ne_of_declarationId? hd hr
  · exact hne

/-! ## Classes -/

theorem hierarchy_recordClasses (names : List ClassName) (s : Analysis) :
    (names.foldl recordClass s).hierarchy = s.hierarchy.rememberAll names := by
  induction names generalizing s with
  | nil => rfl
  | cons k names ih =>
    rw [List.foldl_cons, ih, (s.recordClass_eq k).1, Hierarchy.rememberAll, Hierarchy.rememberAll,
      List.foldl_cons]

theorem isPresent_iff {name : ClassName} :
    s.isPresent name = true ↔ ∃ r, s.classes.find? name = some r ∧ r.missing = false := by
  unfold isPresent
  cases s.classes.find? name with
  | none => simp
  | some r => simp

theorem linkClass_of_mem {n : ClassName} (hn : n ∈ s.classes.keys) : s.linkClass n = (s.isPresent n, s) := by
  unfold linkClass
  rw [if_pos (by simpa [Table.contains] using hn)]

theorem linkClass_of_not_mem {n : ClassName} (hn : n ∉ s.classes.keys) : s.linkClass n =
    (((s.hierarchy.view.traverse .stack ClassDef.supertypes s.classes.keys [n]).foldl recordClass s).isPresent n,
      (s.hierarchy.view.traverse .stack ClassDef.supertypes s.classes.keys [n]).foldl recordClass s) := by
  unfold linkClass
  rw [if_neg (by simpa [Table.contains] using hn)]

/-- Linking a class that is not linked records it with everything above it, each class as it was looked up. -/
theorem linkClass_new {n : ClassName} (hn : n ∉ s.classes.keys) :
    ∃ hier c p, (s.linkClass n).2 = { s with hierarchy := hier, classes := c, problems := p } ∧
      (∀ m, c.find? m = if m ∈ s.hierarchy.view.traverse .stack ClassDef.supertypes s.classes.keys [n]
        then some ⟨(s.hierarchy.lookup m).isNone, false⟩ else s.classes.find? m) ∧
      (∀ q, q ∈ p ↔ q ∈ s.problems ∨ ∃ m ∈ s.hierarchy.view.traverse .stack ClassDef.supertypes s.classes.keys [n],
        s.hierarchy.lookup m = none ∧ q = .missingClass m) ∧
      ∀ m ∈ s.hierarchy.view.traverse .stack ClassDef.supertypes s.classes.keys [n], m ∈ hier.classes.keys := by
  obtain ⟨hier, c, p, hs, -⟩ := s.linkClass_frame n
  have heq : (s.linkClass n).2
      = (s.hierarchy.view.traverse .stack ClassDef.supertypes s.classes.keys [n]).foldl recordClass s :=
    congrArg Prod.snd (linkClass_of_not_mem hn)
  obtain ⟨hfind, hproblems⟩ :=
    recordClasses_spec (s.hierarchy.view.traverse .stack ClassDef.supertypes s.classes.keys [n]) s
  have hhier := hierarchy_recordClasses (s.hierarchy.view.traverse .stack ClassDef.supertypes s.classes.keys [n]) s
  rw [← heq, hs] at hfind hproblems hhier
  refine ⟨hier, c, p, hs, hfind, hproblems, fun m hm => ?_⟩
  rw [show hier = _ from hhier]
  exact s.hierarchy.mem_keys_rememberAll hm

theorem linkClass_fst (s : Analysis) (n : ClassName) : (s.linkClass n).1 = (s.linkClass n).2.isPresent n := by
  unfold linkClass
  split <;> rfl

theorem mem_keys_linkClass (s : Analysis) (n : ClassName) : n ∈ (s.linkClass n).2.classes.keys := by
  by_cases hn : n ∈ s.classes.keys
  · rw [linkClass_of_mem hn]
    exact hn
  · obtain ⟨hier, c, p, hs, hfind, -, -⟩ := linkClass_new hn
    have hmet : n ∈ s.hierarchy.view.traverse .stack ClassDef.supertypes s.classes.keys [n] :=
      (Catalog.mem_traverse_of_mem_work List.mem_cons_self).resolve_left hn
    rw [hs]
    exact Table.mem_keys_of_find? ((hfind n).trans (if_pos hmet))

theorem moves_linkClass (s : Analysis) (γ : List Duty) (name : ClassName) :
    Moves w s γ (s.linkClass name).2 γ := (Step.linkClass s γ name).moves

/-! ## Methods -/

def askedMethod (s : Analysis) (m : QualifiedMethod) : Analysis :=
  { s with hierarchy := (s.hierarchy.resolveMethod m).2 }

def withOwner (s : Analysis) (owner : ClassName) : Analysis :=
  (Analysis.linkClass { s with hierarchy := s.hierarchy.remember owner } owner).2

theorem linkMethod_of_known {m : QualifiedMethod} {id : MethodId} (hm : s.methodId? m = some id) :
    s.linkMethod m = (some id, s) := by
  unfold linkMethod
  rw [hm]

theorem linkMethod_of_nothing {m : QualifiedMethod} (hm : s.methodId? m = none)
    (hr : (s.hierarchy.resolveMethod m).1 = none) :
    s.linkMethod m = (none,
      if ((s.askedMethod m).linkClass m.owner).1 then
        ((s.askedMethod m).linkClass m.owner).2.report (.missingMethod m)
      else ((s.askedMethod m).linkClass m.owner).2) := by
  simp only [linkMethod, hm, hr]
  rfl

theorem linkMethod_of_declared {m target : QualifiedMethod} {id : MethodId} (hm : s.methodId? m = none)
    (hr : (s.hierarchy.resolveMethod m).1 = some target) (hd : s.declarationId? target = some id) :
    s.linkMethod m = (some id, { s.askedMethod m with aliases := s.aliases.insert m id }) := by
  have hd' : (s.askedMethod m).declarationId? target = some id := hd
  simp only [linkMethod, hm, hr]
  rw [askedMethod] at hd'
  simp only [hd']
  rfl

theorem linkMethod_of_new {m target : QualifiedMethod} {d : ClassDef} {f : MethodDef} (hm : s.methodId? m = none)
    (hr : (s.hierarchy.resolveMethod m).1 = some target) (hd : s.declarationId? target = none)
    (hl : (s.askedMethod m).hierarchy.lookup target.owner = some d) (hf : d.method? target.signature = some f) :
    s.linkMethod m = (some s.methods.size,
      if target = m then (((s.askedMethod m).withOwner target.owner).recordMethod target d f).2
      else { (((s.askedMethod m).withOwner target.owner).recordMethod target d f).2 with
        aliases := s.aliases.insert m s.methods.size }) := by
  have hd' : (s.askedMethod m).declarationId? target = none := hd
  obtain ⟨h, c, p, hs, _⟩ := linkClass_frame
    { s.askedMethod m with hierarchy := (s.askedMethod m).hierarchy.remember target.owner } target.owner
  simp only [linkMethod, hm, hr]
  rw [askedMethod] at hd' hl
  simp only [hd', Hierarchy.get, hl, Option.bind_some, hf, Option.map_some]
  rw [withOwner, hs]
  simp only [askedMethod] at hs ⊢
  rw [hs]
  rfl

theorem moves_withOwner (s : Analysis) (γ : List Duty) (owner : ClassName) : Moves w s γ (s.withOwner owner) γ :=
  (Step.learn (s.hierarchy.learns_remember owner)).moves.trans (moves_linkClass _ γ owner)

/-- Looking a class up and linking it changes no record; the class is known from then on. -/
theorem withOwner_frame (s : Analysis) (owner : ClassName) :
    ∃ h c p, s.withOwner owner = { s with hierarchy := h, classes := c, problems := p } ∧
      h.classes.find? owner = some (s.hierarchy.lookup owner) ∧ owner ∈ c.keys := by
  obtain ⟨h, c, p, hs, hl⟩ := linkClass_frame { s with hierarchy := s.hierarchy.remember owner } owner
  have hmem := mem_keys_linkClass { s with hierarchy := s.hierarchy.remember owner } owner
  rw [hs] at hmem
  exact ⟨h, c, p, hs, hl.retains _ _ (s.hierarchy.find?_remember_self owner), hmem⟩

theorem moves_linkMethod (hv : s.Valid) (γ : List Duty) (m : QualifiedMethod) :
    Moves w s γ (s.linkMethod m).2 γ ∧ (s.linkMethod m).2.Names m (s.linkMethod m).1 := by
  cases hm : s.methodId? m with
  | some id =>
    rw [linkMethod_of_known hm]
    exact ⟨.refl s γ, hv.methods.names_of_methodId? hm⟩
  | none =>
    obtain ⟨-, hdec⟩ := hv.hierarchy.resolveMethod m
    have hlearn := s.hierarchy.learns_ask (.declaration m.owner m.signature)
    have hasked : Moves w s γ (s.askedMethod m) γ := (Step.learn hlearn).moves
    cases hr : (s.hierarchy.resolveMethod m).1 with
    | none =>
      rw [hr] at hdec
      have hlink := hasked.trans (moves_linkClass _ γ m.owner)
      have hnone : ((s.askedMethod m).linkClass m.owner).2.Names m none :=
        (moves_linkClass (w := w) _ γ m.owner).grows.decides hdec
      rw [linkMethod_of_nothing hm hr]
      split
      · next hpresent => exact ⟨hlink.tail
          (.report ⟨(linkClass_fst _ _).symm.trans hpresent, hnone⟩ (Or.inr rfl)), hnone⟩
      · exact ⟨hlink, hnone⟩
    | some target =>
      rw [hr] at hdec
      cases hd : s.declarationId? target with
      | some id =>
        obtain ⟨r, hget, rfl⟩ := exists_of_declarationId? hd
        rw [linkMethod_of_declared hm hr hd]
        exact ⟨hasked.tail (.aliasMethod hm hget hdec), r, hget, hdec⟩
      | none =>
        obtain ⟨_, d, f, hlookup, hf⟩ := Catalog.resolveMethod_some hdec.view
        rw [linkMethod_of_new hm hr hd hlookup hf]
        have howner := hasked.trans (moves_withOwner _ γ target.owner)
        obtain ⟨h, c, p, hs, hcached, hrecorded⟩ := withOwner_frame (s.askedMethod m) target.owner
        have hlookup' : h.classes.find? target.owner = some (some d) := hcached.trans (congrArg some hlookup)
        rw [hs] at howner ⊢
        have hrecord := howner.tail (.recordMethod hd hlookup' hf hrecorded)
        have hdec' : h.Decides (fun c => c.resolveMethod m) (some target) := by
          have hgrows := (moves_withOwner (w := w) (s.askedMethod m) γ target.owner).grows
          rw [hs] at hgrows
          exact hgrows.decides hdec
        have hnew : ((s.askedMethod m).methods.push (newRecord { s.askedMethod m with
            hierarchy := h, classes := c, problems := p } target d f))[s.methods.size]? = some _ :=
          Array.getElem?_push_size
        split
        · exact ⟨hrecord, _, hnew, hdec'⟩
        · next hne =>
          refine ⟨hrecord.tail (.aliasMethod ?_ hnew hdec'), _, hnew, hdec'⟩
          exact methodId?_recordMethod
            (s := { s.askedMethod m with hierarchy := h, classes := c, problems := p }) hm hne d f

/-- Linking a method leaves the selectors alone. -/
theorem selectors_linkMethod (s : Analysis) (m : QualifiedMethod) : (s.linkMethod m).2.selectors = s.selectors := by
  have hclass : ∀ (s : Analysis) (name : ClassName), (s.linkClass name).2.selectors = s.selectors := by
    intro s name
    obtain ⟨h, c, p, hs, -⟩ := s.linkClass_frame name
    rw [hs]
  unfold linkMethod
  split
  · rfl
  · simp only []
    split
    · split
      · exact hclass _ m.owner
      · exact hclass _ m.owner
    · next resolved _ =>
      split
      · rfl
      · split
        · rfl
        · split
          · exact hclass _ resolved.owner
          · exact hclass _ resolved.owner

/-- A method that was linked under some name is known by it. -/
theorem isSome_methodId?_linkMethod (hv : s.Valid) {m : QualifiedMethod} {id : MethodId}
    (h : (s.linkMethod m).1 = some id) : ((s.linkMethod m).2.methodId? m).isSome := by
  cases hm : s.methodId? m with
  | some known =>
    rw [linkMethod_of_known hm, hm]
    rfl
  | none =>
    cases hr : (s.hierarchy.resolveMethod m).1 with
    | none =>
      rw [linkMethod_of_nothing hm hr] at h
      cases h
    | some target =>
      rw [isSome_methodId?_iff]
      cases hd : s.declarationId? target with
      | some known =>
        rw [linkMethod_of_declared hm hr hd]
        exact Or.inr (Table.mem_keys_of_find? (Table.find?_insert_self _ _ _))
      | none =>
        obtain ⟨-, hdec⟩ := hv.hierarchy.resolveMethod m
        rw [hr] at hdec
        obtain ⟨_, d, f, hlookup, hf⟩ := Catalog.resolveMethod_some hdec.view
        rw [linkMethod_of_new hm hr hd hlookup hf]
        split
        · next heq =>
          subst heq
          exact Or.inl ⟨_, rfl, _, Array.getElem?_push_size⟩
        · exact Or.inr (Table.mem_keys_of_find? (Table.find?_insert_self _ _ _))

/-! ## Initialisation -/

theorem initiated_of_mem_keys {name : ClassName} (hn : name ∈ s.classes.keys)
    (h : (!s.isPresent name || (s.classes.find? name).any ClassRecord.initialized) = true) : s.Initiated name := by
  obtain ⟨r, hr⟩ := Option.isSome_iff_exists.1 (Table.find?_isSome_iff.2 hn)
  refine ⟨r, hr, ?_⟩
  unfold isPresent at h
  simpa [hr] using h

/-- A class that is marked is looked up and has its initialiser linked; its superclass is still to come. -/
theorem moves_markInitialized (hv : s.Valid) (γ : List Duty) {name : ClassName} (hp : s.isPresent name = true) :
    Moves w s γ (s.markInitialized name) (.prepare name :: γ) ∧ (s.markInitialized name).Initiated name ∧
      (s.markInitialized name).hierarchy.classes.find? name = some (s.hierarchy.lookup name) ∧
      ∀ d, s.hierarchy.lookup name = some d → s.settings.classInitializers = true →
        (d.method? .classInitializer).isSome = true →
          ∃ r, (s.markInitialized name).Linked ⟨name, .classInitializer⟩ r := by
  obtain ⟨s₁, hs₁⟩ : ∃ s₁, s₁ = { s with
      hierarchy := s.hierarchy.remember name
      classes := s.classes.adjust name fun r => { r with initialized := true } } := ⟨_, rfl⟩
  have hmark : Moves w s γ s₁ (.prepare name :: γ) :=
    hs₁ ▸ (Step.markInitialized name hp).moves.tail (.learn (s.hierarchy.learns_remember name))
  have hcached : s₁.hierarchy.classes.find? name = some (s.hierarchy.lookup name) :=
    hs₁ ▸ s.hierarchy.find?_remember_self name
  have hinitiated : s₁.Initiated name := by
    obtain ⟨r, hr, -⟩ := isPresent_iff.1 hp
    refine ⟨{ r with initialized := true }, ?_, Or.inr rfl⟩
    rw [hs₁, Table.find?_adjust, if_pos rfl, hr]
    rfl
  have heq : s.markInitialized name = if s.settings.classInitializers &&
      (s.hierarchy.lookup name).any fun d => (d.method? .classInitializer).isSome
      then (s₁.linkMethod ⟨name, .classInitializer⟩).2 else s₁ := by
    rw [hs₁]
    rfl
  rw [heq]
  split
  · obtain ⟨hlink, hnames⟩ :=
      moves_linkMethod (w := w) (hmark.valid hv) (.prepare name :: γ) ⟨name, .classInitializer⟩
    refine ⟨hmark.trans hlink, hlink.grows.initiated hinitiated, hlink.grows.hierarchy _ _ hcached,
      fun d hd _ hdeclared => ?_⟩
    -- the class declares its initialiser, so that is what the reference resolves to
    obtain ⟨f, hf⟩ := Option.isSome_iff_exists.1 hdeclared
    have hself : (s₁.linkMethod ⟨name, .classInitializer⟩).2.hierarchy.view.resolveMethod ⟨name, .classInitializer⟩
        = some ⟨name, .classInitializer⟩ :=
      Catalog.resolveMethod_self ((hmark.trans hlink).learns.lookup name |>.trans hd) hf
    cases hid : (s₁.linkMethod ⟨name, .classInitializer⟩).1 with
    | none =>
      rw [hid] at hnames
      cases hself.symm.trans (Hierarchy.Decides.view hnames)
    | some id =>
      rw [hid] at hnames
      obtain ⟨r, hr, hd⟩ := hnames
      exact ⟨r, Option.some.inj (hd.view.symm.trans hself), id, hr⟩
  · next hnot =>
    refine ⟨hmark, hinitiated, hcached, fun d hd hasked hdeclared => absurd ?_ hnot⟩
    rw [hasked, hd, Option.any_some, hdeclared]
    rfl

/-- Along a chain of superclasses each mark is followed by what it stands for, once the rest of the chain is done.
Where the chain returns to a class of before, that class is marked. -/
theorem moves_initializeAlong (hv : s.Valid) (γ : List Duty) {c : Catalog}
    (hc : ∀ n, s.hierarchy.lookup n = c.find? n)
    (seen : List ClassName) (name : ClassName) (hseen : ∀ n ∈ seen, s.Initiated n) :
    Moves w s γ (s.initializeAlong (c.superclasses seen name)) γ ∧
      (s.initializeAlong (c.superclasses seen name)).Initiated name := by
  obtain ⟨names, hnames⟩ : ∃ names, names = c.superclasses seen name := ⟨_, rfl⟩
  rw [← hnames]
  induction names generalizing s γ seen name with
  | nil =>
    by_cases hmem : name ∈ seen
    · exact ⟨.refl s γ, hseen name hmem⟩
    · rw [Catalog.superclasses_of_not_mem hmem] at hnames
      cases hnames
  | cons first rest ih =>
    have hmem : name ∉ seen := by
      intro hmem
      rw [Catalog.superclasses_of_mem hmem] at hnames
      cases hnames
    rw [Catalog.superclasses_of_not_mem hmem] at hnames
    obtain ⟨rfl, hrest⟩ := List.cons.inj hnames
    have hlink := moves_linkClass (w := w) s γ first
    have hlinked := mem_keys_linkClass s first
    have hv₁ := hlink.valid hv
    unfold initializeAlong
    simp only [linkClass_fst]
    split
    · next hstop => exact ⟨hlink, initiated_of_mem_keys hlinked hstop⟩
    · next hgo =>
      simp only [Bool.or_eq_true, Bool.not_eq_true', not_or, Bool.not_eq_false] at hgo
      obtain ⟨hmark, hinitiated, hcached, hclinit⟩ := moves_markInitialized (w := w) hv₁ γ hgo.1
      have hboth := hlink.trans hmark
      have hlookup : (s.linkClass first).2.hierarchy.lookup first = c.find? first :=
        (hlink.learns.lookup first).trans (hc first)
      rw [hlookup] at hcached hclinit
      generalize (s.linkClass first).2.markInitialized first = s₂ at hmark hinitiated hcached hclinit hboth ⊢
      obtain ⟨hup, habove⟩ : Moves w s₂ (.prepare first :: γ) (s₂.initializeAlong rest) (.prepare first :: γ) ∧
          ∀ parent, (c.find? first).bind ClassDef.superclass? = some parent →
            (s₂.initializeAlong rest).Initiated parent := by
        cases hparent : (c.find? first).bind ClassDef.superclass? with
        | none =>
          rw [hparent] at hrest
          exact hrest ▸ ⟨.refl s₂ _, nofun⟩
        | some parent =>
          rw [hparent] at hrest
          obtain ⟨hup, habove⟩ := ih (hboth.valid hv) (.prepare first :: γ)
            (fun n => (hboth.learns.lookup n).trans (hc n)) (first :: seen) parent
            (List.forall_mem_cons.2 ⟨hinitiated, fun n hn => hboth.grows.initiated (hseen n hn)⟩) hrest
          exact ⟨hup, fun _ hp => Option.some.inj hp ▸ habove⟩
      refine ⟨(hboth.trans hup).tail (.fulfil fun d hd => (List.mem_cons.1 hd).symm.imp_right ?_),
        hup.grows.initiated hinitiated⟩
      rintro rfl
      refine ⟨_, hup.grows.hierarchy _ _ hcached, fun d hd => ⟨fun hasked hdeclared => ?_, fun parent hp => ?_⟩⟩
      · obtain ⟨r, hr⟩ := hclinit d hd ((hmark.trans hup).grows.settings ▸ hasked) hdeclared
        obtain ⟨r', hr', -⟩ := hup.grows.linked hr
        exact ⟨r', hr'⟩
      · exact habove parent (by rw [hd, Option.bind_some, hp])

theorem moves_initializeClass (hv : s.Valid) (γ : List Duty) (name : ClassName) :
    Moves w s γ (s.initializeClass name) γ ∧ (s.initializeClass name).Initiated name :=
  moves_initializeAlong hv γ (c := s.hierarchy.view) (fun _ => rfl) [] name fun _ hn => absurd hn List.not_mem_nil

/-! ## Fields -/

def askedField (s : Analysis) (f : QualifiedField) : Analysis :=
  { s with hierarchy := (s.hierarchy.resolveField f).2 }

theorem linkField_of_known {f : QualifiedField} {record : FieldRecord} (hf : s.fields.find? f = some record) :
    s.linkField f = (record.node, s) := by
  unfold linkField
  rw [hf]

theorem linkField_of_nothing {f : QualifiedField} (hf : s.fields.find? f = none)
    (hr : (s.hierarchy.resolveField f).1 = none) :
    s.linkField f = (root,
      if ((s.askedField f).linkClass f.owner).1 then ((s.askedField f).linkClass f.owner).2.report (.missingField f)
      else ((s.askedField f).linkClass f.owner).2) := by
  simp only [linkField, hf, hr]
  rfl

theorem linkField_of_resolved {f target : QualifiedField} {record : FieldRecord} (hf : s.fields.find? f = none)
    (hr : (s.hierarchy.resolveField f).1 = some target) (ht : s.fields.find? target = some record) :
    s.linkField f = (record.node, { s.askedField f with fields := s.fields.insert f ⟨target, record.node⟩ }) := by
  simp only [linkField, hf, hr, ht]
  rfl

theorem linkField_of_new {f target : QualifiedField} (hf : s.fields.find? f = none)
    (hr : (s.hierarchy.resolveField f).1 = some target) (ht : s.fields.find? target = none) :
    s.linkField f = (((s.askedField f).linkClass target.owner).2.graph.newNode.1,
      { ((s.askedField f).linkClass target.owner).2 with
        graph := ((s.askedField f).linkClass target.owner).2.graph.newNode.2
        fields := (((s.askedField f).linkClass target.owner).2.fields.insert target
          ⟨target, ((s.askedField f).linkClass target.owner).2.graph.newNode.1⟩).insert f
          ⟨target, ((s.askedField f).linkClass target.owner).2.graph.newNode.1⟩ }) := by
  simp only [linkField, hf, hr, ht]
  rfl

theorem NodesValid.fieldAt (hv : s.NodesValid) {f : QualifiedField} {record : FieldRecord}
    (hf : s.fields.find? f = some record) : s.FieldAt s.edges f record.node := by
  obtain ⟨_, hself, hd⟩ := hv.field hf
  exact ⟨some record.reference, hd, record, hself, rfl⟩

theorem moves_linkField (hv : s.Valid) (γ : List Duty) (f : QualifiedField) :
    Moves w s γ (s.linkField f).2 γ ∧
      (s.linkField f).2.FieldAt (s.linkField f).2.edges f (s.linkField f).1 := by
  cases hf : s.fields.find? f with
  | some record =>
    rw [linkField_of_known hf]
    exact ⟨.refl s γ, hv.nodes.fieldAt hf⟩
  | none =>
    obtain ⟨-, hdec⟩ := hv.hierarchy.resolveField f
    have hlearn := s.hierarchy.learns_ask (.field f.owner f.name)
    have hasked : Moves w s γ (s.askedField f) γ := (Step.learn hlearn).moves
    cases hr : (s.hierarchy.resolveField f).1 with
    | none =>
      rw [hr] at hdec
      have hlink := moves_linkClass (w := w) (s.askedField f) γ f.owner
      rw [linkField_of_nothing hf hr]
      split
      · next hpresent =>
        have hnone := hlink.grows.decides hdec
        exact ⟨(hasked.trans hlink).tail
          (.report ⟨(linkClass_fst _ _).symm.trans hpresent, hnone⟩ (Or.inr rfl)), none, hnone, rfl⟩
      · exact ⟨hasked.trans hlink, none, hlink.grows.decides hdec, rfl⟩
    | some target =>
      rw [hr] at hdec
      have hself : (s.askedField f).hierarchy.Decides (fun c => c.resolveField target) (some target) :=
        fun c hc => Catalog.resolveField_idem (hdec c hc)
      cases ht : s.fields.find? target with
      | some record =>
        have hv' := hasked.valid hv
        obtain ⟨_, _, hd⟩ := hv'.nodes.field ht
        obtain rfl : target = record.reference := Option.some.inj (hself.unique hd)
        have hstep := hasked.tail (.fieldAlias hf ht hdec)
        rw [linkField_of_resolved hf hr ht]
        refine ⟨hstep, (hstep.valid hv).nodes.fieldAt ?_⟩
        exact Table.find?_insert_self _ _ _
      | none =>
        have hlink := moves_linkClass (w := w) (s.askedField f) γ target.owner
        have hsame : ((s.askedField f).linkClass target.owner).2.fields = s.fields := by
          obtain ⟨h, c, p, hs, _⟩ := (s.askedField f).linkClass_frame target.owner
          rw [hs]
          rfl
        have hrecorded := mem_keys_linkClass (s.askedField f) target.owner
        rw [linkField_of_new hf hr ht]
        generalize ((s.askedField f).linkClass target.owner).2 = s₁ at hlink hsame hrecorded ⊢
        have hstep := (hasked.trans hlink).tail (.newField (hsame ▸ hf) (hsame ▸ ht) (hlink.grows.decides hdec)
          (hlink.grows.decides hself) hrecorded)
        have hrec : ((s₁.fields.insert target ⟨target, s₁.graph.newNode.1⟩).insert f
            ⟨target, s₁.graph.newNode.1⟩).find? f = some ⟨target, s₁.graph.newNode.1⟩ :=
          Table.find?_insert_self _ _ _
        exact ⟨hstep, (hstep.valid hv).nodes.fieldAt hrec⟩

theorem Valid.fieldAt_plain (hv : s.Valid) {R : Sense} {f : QualifiedField} {node : Nat} (hf : s.FieldAt R f node) :
    s.Plain node := by
  obtain ⟨resolved?, _, hn⟩ := hf
  cases resolved? with
  | none => exact hn ▸ hv.nodes.root
  | some resolved =>
    obtain ⟨record, hrec, rfl⟩ := hn
    exact (hv.nodes.field hrec).1

end Analysis

end TypeFlow
