import TypeFlow.Proofs.Analysis.Transfer

/-!
# Names are followed

Applying an instruction follows every name in it, and what comes later only
adds to that. Nothing is said of the classes of receivers: a dynamic call leaves
them to the aggregates.
-/

namespace TypeFlow

theorem DeclType.mem_namings {t : DeclType} {x : Naming} :
    x ∈ t.namings ↔ ∃ name, t.className? = some name ∧ x = .cls name := by
  unfold namings
  cases t.className? with
  | none => simp
  | some name => simp

theorem DeclType.base_of_className? {t : DeclType} {name : ClassName} (h : t.className? = some name) :
    t.base = .object name := by
  induction t with
  | object n => exact congrArg object (Option.some.inj h)
  | array item ih => exact ih h
  | void => cases h
  | primitive p => cases h

theorem ExactType.ofDecl?_of_className? {t : DeclType} {name : ClassName} (h : t.className? = some name) :
    ofDecl? t = some ⟨.object name, t.dims⟩ := by
  unfold ofDecl?
  rw [DeclType.base_of_className? h]

namespace Analysis

variable {s : Analysis} {f : Frame} {x : Naming}

/-! ## Classes -/

theorem mem_keys_linkType {t : DeclType} {name : ClassName} (ht : t.className? = some name) :
    name ∈ (s.linkType t).classes.keys := by
  unfold linkType
  rw [ht]
  exact mem_keys_linkClass s name

theorem mem_keys_initializeClass (hv : s.Valid) (name : ClassName) :
    name ∈ (s.initializeClass name).classes.keys := by
  obtain ⟨r, hr, -⟩ := (moves_initializeClass (w := .client) hv [] name).2
  exact Table.mem_keys_of_find? hr

theorem mem_keys_instantiate (hv : s.Valid) {n : Nat} (hn : s.Plain n) {t : ExactType} {name : ClassName}
    (ht : t.element.className? = some name) : name ∈ (s.instantiate n t).classes.keys := by
  have hlink := moves_linkElement (w := .client) s t []
  obtain ⟨htype, -⟩ := moves_withType (w := .client) (hlink.valid hv) (hlink.grows.plain hn) nofun
    (fun _ => mem_keys_linkElement) []
  rw [instantiate_eq]
  exact htype.grows.classes (mem_keys_linkElement ht)

theorem mem_keys_instantiateLocal (hv : s.Valid) (hf : s.FrameValid f) {dst : Local} (hdst : dst < f.locals.size)
    {t : ExactType} {name : ClassName} (ht : t.element.className? = some name) :
    name ∈ (s.instantiateLocal f dst t).classes.keys := by
  have hnode : f.node? dst = some f.locals[dst] := Array.getElem?_eq_getElem hdst
  unfold instantiateLocal
  rw [hnode]
  exact mem_keys_instantiate hv (hf.node hnode) ht

theorem mem_keys_allocateArrays (hv : s.Valid) (hf : s.FrameValid f) {dst : Local} (hdst : dst < f.locals.size)
    {type : DeclType} {name : ClassName} (ht : type.className? = some name) (count : Nat) :
    name ∈ (s.allocateArrays f dst type count).classes.keys := by
  unfold allocateArrays
  rw [ExactType.ofDecl?_of_className? ht]
  have hmem := mem_keys_instantiateLocal hv hf hdst (t := ⟨.object name, type.dims⟩) rfl
  obtain ⟨hinst, -⟩ := moves_instantiateLocal (w := .client) (t := ⟨.object name, type.dims⟩) hv hf dst nofun []
  obtain ⟨hinner, -⟩ := moves_allocateInner (w := .client) (hinst.valid hv)
    (innerArrays ⟨.object name, type.dims⟩ count) nofun []
  exact hinner.grows.classes hmem

/-! ## Members -/

/-- What is missing from a class is reported, when it is not the class itself that is missing. -/
theorem reported_linkClass (s : Analysis) (owner : ClassName) (p : Problem) :
    (if (s.linkClass owner).1 then (s.linkClass owner).2.report p else (s.linkClass owner).2).Reported owner p := by
  obtain ⟨r, hr⟩ := Option.isSome_iff_exists.1 (Table.find?_isSome_iff.2 (mem_keys_linkClass s owner))
  rw [linkClass_fst, isPresent, hr]
  cases hm : r.missing with
  | true =>
    rw [Option.any_some, hm, if_neg (by decide)]
    exact ⟨r, hr, Or.inl hm⟩
  | false =>
    rw [Option.any_some, hm, if_pos (by decide)]
    exact ⟨r, hr, Or.inr (OrderedSet.mem_insert.2 (Or.inr rfl))⟩

theorem reported_linkMethod (hv : s.Valid) {m : QualifiedMethod} (hid : (s.linkMethod m).1 = none) :
    (s.linkMethod m).2.Reported m.owner (.missingMethod m) := by
  cases hm : s.methodId? m with
  | some id =>
    rw [linkMethod_of_known hm] at hid
    cases hid
  | none =>
    cases hr : (s.hierarchy.resolveMethod m).1 with
    | none =>
      rw [linkMethod_of_nothing hm hr]
      exact reported_linkClass (s.askedMethod m) m.owner _
    | some target =>
      cases hd : s.declarationId? target with
      | some id =>
        rw [linkMethod_of_declared hm hr hd] at hid
        cases hid
      | none =>
        obtain ⟨-, hdec⟩ := hv.hierarchy.resolveMethod m
        rw [hr] at hdec
        obtain ⟨_, d, f, hlookup, hf⟩ := Catalog.resolveMethod_some hdec.view
        rw [linkMethod_of_new hm hr hd hlookup hf] at hid
        cases hid

theorem follows_linkMethod (hv : s.Valid) (m : QualifiedMethod) : (s.linkMethod m).2.Follows (.method m) := by
  obtain ⟨-, hnames⟩ := moves_linkMethod (w := .client) hv [] m
  cases hid : (s.linkMethod m).1 with
  | none =>
    rw [hid] at hnames
    obtain ⟨r, hr, -⟩ := reported_linkMethod hv hid
    exact ⟨none, hnames, Table.mem_keys_of_find? hr⟩
  | some id =>
    rw [hid] at hnames
    obtain ⟨r, hr, hd⟩ := hnames
    exact ⟨some r.reference, hd, r, rfl, id, hr⟩

theorem follows_linkField (hv : s.Valid) (f : QualifiedField) : (s.linkField f).2.Follows (.field f) := by
  cases hf : s.fields.find? f with
  | some record =>
    rw [linkField_of_known hf]
    obtain ⟨-, hself, hd⟩ := hv.nodes.field hf
    exact ⟨some record.reference, hd, Table.mem_keys_of_find? hself⟩
  | none =>
    obtain ⟨-, hdec⟩ := hv.hierarchy.resolveField f
    cases hr : (s.hierarchy.resolveField f).1 with
    | none =>
      rw [hr] at hdec
      have hlink := moves_linkClass (w := .client) (s.askedField f) [] f.owner
      have hmem := mem_keys_linkClass (s.askedField f) f.owner
      rw [linkField_of_nothing hf hr]
      split
      · exact ⟨none, hlink.grows.decides hdec, hmem⟩
      · exact ⟨none, hlink.grows.decides hdec, hmem⟩
    | some target =>
      rw [hr] at hdec
      cases ht : s.fields.find? target with
      | some record =>
        rw [linkField_of_resolved hf hr ht]
        exact ⟨some target, hdec, Table.mem_keys_insert.2 (Or.inl (Table.mem_keys_of_find? ht))⟩
      | none =>
        have hlink := moves_linkClass (w := .client) (s.askedField f) [] target.owner
        rw [linkField_of_new hf hr ht]
        refine ⟨some target, hlink.grows.decides hdec, Table.mem_keys_insert.2 (Or.inl ?_)⟩
        exact Table.mem_keys_insert.2 (Or.inr rfl)

theorem follows_accessField (hv : s.Valid) (instance? : Option Local) (field : QualifiedField) :
    (s.accessField instance? field).2.Follows (if instance?.isNone then .cls field.owner else .field field) := by
  unfold accessField
  by_cases hstatic : instance?.isNone
  · have hmem := mem_keys_initializeClass hv field.owner
    obtain ⟨hinit, -⟩ := moves_initializeClass (w := .client) hv [] field.owner
    obtain ⟨hlink, -⟩ := moves_linkField (w := .client) (hinit.valid hv) [] field
    simp only [hstatic, if_true]
    exact hlink.grows.classes hmem
  · simp only [hstatic]
    exact follows_linkField hv field

theorem grows_runMethod (hv : s.Valid) (callee : QualifiedMethod) {site : CallSite}
    (hn : ∀ n ∈ site.nodes, s.Plain n) : (s.linkMethod callee).2.Grows (s.runMethod callee site) := by
  obtain ⟨hlink, hnames⟩ := moves_linkMethod (w := .client) hv [] callee
  unfold runMethod
  cases hid : (s.linkMethod callee).1 with
  | none => exact .refl _
  | some id =>
    rw [hid] at hnames
    obtain ⟨r, hr, -⟩ := hnames
    have hv₁ := hlink.valid hv
    obtain ⟨hconnect, -⟩ := moves_connectCall (w := .client) hv₁ hr (fun n hmem => hlink.grows.plain (hn n hmem)) []
    have hdrain := moves_drain (w := .client) (hconnect.valid hv₁) []
    exact (hconnect.trans hdrain).grows

theorem follows_runMethod (hv : s.Valid) (callee : QualifiedMethod) {site : CallSite}
    (hn : ∀ n ∈ site.nodes, s.Plain n) : (s.runMethod callee site).Follows (.method callee) :=
  (grows_runMethod hv callee hn).follows (follows_linkMethod hv callee)

theorem grows_loadField (hv : s.Valid) (hf : s.FrameValid f) (dst : Local) (instance? : Option Local)
    (field : QualifiedField) (type : DeclType) :
    (s.accessField instance? field).2.Grows (s.transfer f (.loadField dst instance? field type)) := by
  obtain ⟨haccess, hat⟩ := moves_accessField (w := .client) hv instance? field []
  have hv₁ := haccess.valid hv
  exact (moves_connectNodes (w := .client) hv₁ (some (s.accessField instance? field).1) (f.node? dst)
    (fun a ha => Option.some.inj ha ▸ hv₁.fieldAt_plain hat)
    (fun _ hn => (hf.grow haccess.grows).node hn) []).1.grows

theorem grows_storeField (hv : s.Valid) (hf : s.FrameValid f) (instance? : Option Local) (field : QualifiedField)
    (src : Local) (type : DeclType) :
    (s.accessField instance? field).2.Grows (s.transfer f (.storeField instance? field src type)) := by
  obtain ⟨haccess, hat⟩ := moves_accessField (w := .client) hv instance? field []
  have hv₁ := haccess.valid hv
  exact (moves_connectNodes (w := .client) hv₁ (f.node? src) (some (s.accessField instance? field).1)
    (fun _ hn => (hf.grow haccess.grows).node hn)
    (fun a ha => Option.some.inj ha ▸ hv₁.fieldAt_plain hat) []).1.grows

/-! ## Instructions -/

theorem follows_call (hv : s.Valid) (hf : s.FrameValid f) (dst? instance? : Option Local) (callee : QualifiedMethod)
    (args : List Local) (binding : Binding)
    (hx : x ∈ (Instr.call dst? instance? callee args binding).namings f.locals.size) :
    (s.call f dst? instance? callee args binding).Follows x := by
  have hsite := hf.site dst? instance? args
  simp only [Instr.namings] at hx
  unfold call
  cases howner : binding.receiver? with
  | some owner =>
    rw [howner] at hx
    cases instance? with
    | none => cases hx
    | some receiver => exact List.mem_singleton.1 hx ▸ trivial
  | none =>
    rw [howner] at hx
    obtain rfl := List.mem_singleton.1 hx
    by_cases hb : binding = .static
    · have hmem := mem_keys_initializeClass hv callee.owner
      obtain ⟨hinit, -⟩ := moves_initializeClass (w := .client) hv [] callee.owner
      obtain ⟨hrun, -⟩ := moves_runMethod (w := .client) (hinit.valid hv) callee
        (fun n hn => hinit.grows.plain (hsite n hn)) []
      simp only [if_pos hb]
      exact hrun.grows.classes hmem
    · simp only [if_neg hb]
      exact follows_runMethod hv callee hsite

/-- Only the instructions that name something are of interest; for each of them the name is followed first, and what
is done with the nodes comes after it. -/
theorem follows_transfer (hv : s.Valid) (hf : s.FrameValid f) (i : Instr) (hx : x ∈ i.namings f.locals.size) :
    (s.transfer f i).Follows x := by
  cases i with
  | cast dst src target =>
    obtain ⟨name, hname, rfl⟩ := DeclType.mem_namings.1 hx
    have hlink := moves_linkType (w := .client) s target []
    obtain ⟨hflow, -⟩ := moves_flow (w := .client) (hlink.valid hv) (hf.grow hlink.grows) src dst []
    exact hflow.grows.classes (mem_keys_linkType hname)
  | classConst dst constant =>
    obtain ⟨name, hname, rfl⟩ := DeclType.mem_namings.1 hx
    have hlink := moves_linkType (w := .client) s constant []
    obtain ⟨hinst, -⟩ := moves_instantiateLocal (w := .client) (t := .ofClass classClass) (hlink.valid hv)
      (hf.grow hlink.grows) dst nofun []
    exact hinst.grows.classes (mem_keys_linkType hname)
  | new dst cls =>
    obtain ⟨hdst, hx⟩ := List.mem_ite_nil_right.1 hx
    obtain rfl := List.mem_singleton.1 hx
    exact mem_keys_instantiateLocal hv hf hdst rfl
  | newArray dst item length =>
    obtain ⟨hdst, hx⟩ := List.mem_ite_nil_right.1 hx
    obtain ⟨name, hname, rfl⟩ := DeclType.mem_namings.1 hx
    simp only [transfer, ExactType.ofDecl?_of_className? (t := .array item) hname]
    exact mem_keys_instantiateLocal hv hf hdst rfl
  | newMultiArray dst type lengths =>
    obtain ⟨hdst, hx⟩ := List.mem_ite_nil_right.1 hx
    obtain ⟨name, hname, rfl⟩ := DeclType.mem_namings.1 hx
    exact mem_keys_allocateArrays hv hf hdst hname lengths.length
  | loadField dst instance? field type =>
    obtain rfl := List.mem_singleton.1 hx
    exact (grows_loadField hv hf dst instance? field type).follows (follows_accessField hv instance? field)
  | storeField instance? field src type =>
    obtain rfl := List.mem_singleton.1 hx
    exact (grows_storeField hv hf instance? field src type).follows (follows_accessField hv instance? field)
  | call dst? instance? callee args binding => exact follows_call hv hf dst? instance? callee args binding hx
  | instanceTest dst src tested =>
    obtain ⟨name, hname, rfl⟩ := DeclType.mem_namings.1 hx
    exact mem_keys_linkType hname
  | initClass cls =>
    obtain rfl := List.mem_singleton.1 hx
    exact mem_keys_initializeClass hv cls
  | _ => cases hx

theorem follows_transferHandler (hv : s.Valid) (hf : s.FrameValid f) (h : Handler) (hx : x ∈ h.namings) :
    (s.transferHandler f h).Follows x := by
  obtain ⟨name, hname, rfl⟩ : ∃ name, h.catches = some name ∧ x = .cls name := by
    unfold Handler.namings at hx
    cases hcatch : h.catches with
    | none => simp [hcatch] at hx
    | some name => exact ⟨name, rfl, by simpa [hcatch] using hx⟩
  have hlink := moves_linkClass (w := .client) s [] name
  have hf₁ := hf.grow hlink.grows
  obtain ⟨hconnect, -⟩ := moves_connectNodes (w := .client) (hlink.valid hv) (some f.thrown) (h.dst?.bind f.node?)
    (fun _ hn => Option.some.inj hn ▸ hf₁.thrown) (fun _ hn => hf₁.bind hn) []
  unfold transferHandler
  simp only [hname]
  exact hconnect.grows.classes (mem_keys_linkClass s name)

end Analysis

end TypeFlow
