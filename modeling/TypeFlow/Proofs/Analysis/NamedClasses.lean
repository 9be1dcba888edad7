import TypeFlow.Proofs.Analysis.ClosedWorld
import TypeFlow.Proofs.Analysis.Fixpoint

/-!
# The records of named classes

After a run each name in a linked body has led to the record of a class: of the
class itself, where the name is that of a class; of the class that declares the
member, where it is that of an owner. The declared class of a receiver gets a
record from the aggregates, which exist in fast mode only and link no class
that is there.
-/

namespace TypeFlow

/-- The class of which a name leaves a record. A member that is nowhere leaves one of
the class that it was asked for. -/
def Naming.recorded? (s : Analysis) : Naming → Option ClassName
  | cls name => some name
  | field f => some (((s.hierarchy.view.resolveField f).map QualifiedField.owner).getD f.owner)
  | method m => some (((s.hierarchy.view.resolveMethod m).map QualifiedMethod.owner).getD m.owner)
  | receiver owner =>
    if s.settings.precision = .fast ∧ owner ≠ objectClass ∧ s.hierarchy.view.find? owner = none then some owner
    else none

theorem Instr.call_of_receiver_mem {i : Instr} {locals : Nat} {owner : ClassName}
    (h : .receiver owner ∈ i.namings locals) : ∃ dst? receiver callee args binding,
      i = .call dst? (some receiver) callee args binding ∧ binding.receiver? = some owner := by
  have htype : ∀ t : DeclType, .receiver owner ∉ t.namings := by
    intro t ht
    obtain ⟨name, -, he⟩ := DeclType.mem_namings.1 ht
    cases he
  cases i with
  | call dst? instance? callee args binding =>
    simp only [namings] at h
    cases ho : binding.receiver? with
    | none =>
      simp only [ho, List.mem_singleton] at h
      split at h <;> cases h
    | some owner' =>
      cases instance? with
      | none => simp [ho] at h
      | some receiver =>
        simp only [ho, List.mem_singleton] at h
        cases h
        exact ⟨dst?, receiver, callee, args, binding, rfl, ho⟩
  | cast dst src target => exact absurd h (htype target)
  | classConst dst constant => exact absurd h (htype constant)
  | new dst cls => cases List.mem_singleton.1 (List.mem_ite_nil_right.1 h).2
  | newArray dst item length => exact absurd (List.mem_ite_nil_right.1 h).2 (htype item)
  | newMultiArray dst type lengths => exact absurd (List.mem_ite_nil_right.1 h).2 (htype type)
  | loadField dst instance? field type =>
    simp only [namings, List.mem_singleton] at h
    split at h <;> cases h
  | storeField instance? field src type =>
    simp only [namings, List.mem_singleton] at h
    split at h <;> cases h
  | instanceTest dst src tested => exact absurd h (htype tested)
  | initClass cls => cases List.mem_singleton.1 h
  | _ => cases h

theorem Body.call_of_receiver_mem {body : Body} {owner : ClassName} (h : .receiver owner ∈ body.namings) :
    ∃ dst? receiver callee args binding, binding.receiver? = some owner ∧
      .call dst? (some receiver) callee args binding ∈ body.instrs := by
  rcases List.mem_append.1 h with h | h
  · obtain ⟨i, hi, hx⟩ := List.mem_flatMap.1 h
    obtain ⟨dst?, receiver, callee, args, binding, rfl, ho⟩ := Instr.call_of_receiver_mem hx
    exact ⟨dst?, receiver, callee, args, binding, ho, hi⟩
  · obtain ⟨c, -, hx⟩ := List.mem_flatMap.1 h
    simp [Handler.namings] at hx

namespace Analysis

def RecordsClass (s : Analysis) (name : ClassName) : Prop :=
  ∃ r, s.classes.find? name = some r ∧ (r.missing = true ↔ s.hierarchy.view.find? name = none) ∧
    (.missingClass name ∈ s.problems ↔ s.hierarchy.view.find? name = none)

variable {s : Analysis} {name : ClassName}

theorem ClosedWorld.recordsClass (h : s.ClosedWorld) (hn : name ∈ s.classes.keys) : s.RecordsClass name := by
  obtain ⟨r, hr⟩ := Option.isSome_iff_exists.1 (Table.find?_isSome_iff.2 hn)
  have hreported : .missingClass name ∈ s.problems ↔ r.missing = true := by
    rw [h.reported, hr]
    simp
  exact ⟨r, hr, h.missing hr, hreported.trans (h.missing hr)⟩

theorem mem_keys_of_isPresent (h : s.isPresent name = true) : name ∈ s.classes.keys := by
  obtain ⟨r, hr, -⟩ := isPresent_iff.1 h
  exact Table.mem_keys_of_find? hr

/-! ## Members -/

theorem mem_keys_of_field (hv : s.Valid) (hc : s.ClosedWorld) {f : QualifiedField} (h : s.Follows (.field f)) :
    ((s.hierarchy.view.resolveField f).map QualifiedField.owner).getD f.owner ∈ s.classes.keys := by
  obtain ⟨found?, hd, hfound⟩ := h
  rw [show s.hierarchy.view.resolveField f = found? from hd.view]
  cases found? with
  | none => exact hfound
  | some found =>
    obtain ⟨record, hrecord⟩ := Option.isSome_iff_exists.1 (Table.find?_isSome_iff.2 hfound)
    obtain ⟨-, -, hself⟩ := hv.nodes.field hrecord
    obtain rfl : found = record.reference :=
      Option.some.inj ((Catalog.resolveField_idem hd.view).symm.trans hself.view)
    exact mem_keys_of_isPresent (hc.fields hrecord).1

theorem mem_keys_of_method (hc : s.ClosedWorld) {m : QualifiedMethod} (h : s.Follows (.method m)) :
    ((s.hierarchy.view.resolveMethod m).map QualifiedMethod.owner).getD m.owner ∈ s.classes.keys := by
  obtain ⟨found?, hd, hfound⟩ := h
  rw [show s.hierarchy.view.resolveMethod m = found? from hd.view]
  cases found? with
  | none => exact hfound
  | some found =>
    obtain ⟨r, rfl, id, hr⟩ := hfound
    exact mem_keys_of_isPresent (hc.methods hr).1

/-! ## Receivers -/

theorem Sound.looked_of_registered (h : s.Sound) (hs : s.isSettled) (hp : s.settings.precision = .fast)
    {receiver : Local} {declared : QualifiedMethod} {site : CallSite} (hreg : s.Registered receiver declared site)
    (hne : declared.owner ≠ objectClass) : s.Looked (.object declared.owner) := by
  obtain ⟨id, sel, r, hkey, -⟩ := hreg
  have hshared : s.selectorKeys.find? (.shared declared) = some id := by
    unfold selectorKey at hkey
    rwa [hp] at hkey
  -- attaching the selector brought up an aggregate, and connecting that one to its supertypes looked the class up
  have hattach : s.Owes (.task (.attach id declared.owner)) := ⟨declared, hshared, rfl⟩
  obtain ⟨-, n, -, hn, -⟩ := h.covered.done hs hattach
  have hroot : ¬ (DeclType.object declared.owner).isRoot = true := by
    unfold DeclType.isRoot
    simpa using hne
  unfold aggregate? at hn
  rw [if_neg hroot] at hn
  have hwire : s.Owes (.task (.wire (.object declared.owner) n)) := hn
  obtain ⟨supers, -, -, -, hlooked⟩ := h.covered.done hs hwire
  exact hlooked

theorem Looked.mem_keys (h : s.Looked (.object name)) (hne : name ≠ objectClass)
    (hmissing : s.hierarchy.view.find? name = none) : name ∈ s.classes.keys := by
  obtain ⟨found, hf, hm⟩ := h name rfl hne
  exact hm ((Hierarchy.lookup_of_find? hf).symm.trans hmissing)

/-! ## Bodies -/

theorem Sound.mem_keys_of_recorded? (h : s.Sound) (hc : s.ClosedWorld) (hs : s.isSettled)
    {id : Nat} {r : MethodRecord}
    {body : Body} (hr : s.methods[id]? = some r) (hb : r.definition.body? = some body) {x : Naming}
    (hx : x ∈ body.namings) (hn : x.recorded? s = some name) : name ∈ s.classes.keys := by
  have hfollows := (h.applied hs hr hb).2.2.1 x hx
  cases x with
  | cls cls => exact Option.some.inj hn ▸ hfollows
  | field f => exact Option.some.inj hn ▸ mem_keys_of_field h.valid hc hfollows
  | method m => exact Option.some.inj hn ▸ mem_keys_of_method hc hfollows
  | receiver owner =>
    obtain ⟨⟨hfast, hne, hmissing⟩, hname⟩ := Option.ite_none_right_eq_some.1 hn
    obtain rfl := Option.some.inj hname
    obtain ⟨dst?, receiver, callee, args, binding, howner, hi⟩ := Body.call_of_receiver_mem hx
    have hdemands := (h.obeys hs hr hb).2.instrs _ hi
    simp only [Demands, CallDemands, howner] at hdemands
    exact (h.looked_of_registered hs hfast hdemands hne).mem_keys hne hmissing

/-- In a session in which nothing waits, every name in a linked body has led to a record that tells whether
the class is there, and to a report if it is not. The class is the one that is named, unless it is named as
the owner of a member that another class declares, when it is that one; the class of a receiver is left out,
unless it is missing in fast mode. -/
theorem recordsClass_of_named (w : World) (settings : Settings) (ops : List Op)
    (hs : ((new w settings).history ops).isSettled) {id : MethodId} {r : MethodRecord} {body : Body}
    (hr : ((new w settings).history ops).methods[id]? = some r) (hb : r.definition.body? = some body)
    {x : Naming} (hx : x ∈ body.namings) (hn : x.recorded? ((new w settings).history ops) = some name) :
    ((new w settings).history ops).RecordsClass name := by
  have hclosed := closedWorld_history w settings ops
  exact hclosed.recordsClass (((sound_new w settings).history ops).1.mem_keys_of_recorded? hclosed hs hr hb hx hn)

/-! A call of an inherited method, and one on a receiver whose class is missing. -/

def sampleNames : Body :=
  ⟨1, [⟨[.call none (some 0) ⟨"B", sampleRun.signature⟩ [] .special,
    .call none (some 0) ⟨"C", sampleRun.signature⟩ [] (.virtual "C")], []⟩]⟩

def sampleInherited : World where
  classes := [
    ⟨"A", none, [], [], [],
      [⟨sampleMain.signature, [.static], some sampleNames⟩, ⟨sampleRun.signature, [], some ⟨1, []⟩⟩]⟩,
    ⟨"B", some "A", [], [], [], []⟩]
  nodup := by decide

def sampleNamesOps : List Op := [.command (.entry sampleMain), .command .settle]

set_option maxRecDepth 100000 in
theorem settled_sampleInherited : ((new sampleInherited {}).history sampleNamesOps).isSettled = true := by
  decide +kernel

set_option maxRecDepth 100000 in
theorem record_sampleInherited : ∃ r, ((new sampleInherited {}).history sampleNamesOps).methods[0]? = some r ∧
    r.definition.body? = some sampleNames := by
  have h : (((new sampleInherited {}).history sampleNamesOps).methods[0]?.bind fun r => r.definition.body?)
      = some sampleNames := by
    decide +kernel
  exact Option.bind_eq_some_iff.1 h

set_option maxRecDepth 100000 in
/-- The method is found at its superclass, which is the class that has a record;
the missing class has one as well. -/
theorem recordsClass_sampleInherited : ((new sampleInherited {}).history sampleNamesOps).RecordsClass "A" ∧
    ((new sampleInherited {}).history sampleNamesOps).RecordsClass "C" := by
  obtain ⟨r, hr, hb⟩ := record_sampleInherited
  have hmethod : Naming.recorded? ((new sampleInherited {}).history sampleNamesOps)
      (.method ⟨"B", sampleRun.signature⟩) = some "A" := by decide +kernel
  have hreceiver : Naming.recorded? ((new sampleInherited {}).history sampleNamesOps)
      (.receiver "C") = some "C" := by
    decide +kernel
  exact ⟨recordsClass_of_named sampleInherited {} sampleNamesOps settled_sampleInherited hr hb (by decide) hmethod,
    recordsClass_of_named sampleInherited {} sampleNamesOps settled_sampleInherited hr hb (by decide) hreceiver⟩

set_option maxRecDepth 100000 in
/-- The class that an inherited method is called at has no record of its own. -/
theorem not_forall_recordsClass_name :
    ¬ ∀ (w : World) (settings : Settings) (ops : List Op) (id : MethodId) (r : MethodRecord)
      (body : Body) (x : Naming),
      ((new w settings).history ops).isSettled → ((new w settings).history ops).methods[id]? = some r →
      r.definition.body? = some body → x ∈ body.namings → ((new w settings).history ops).RecordsClass x.name := by
  intro h
  obtain ⟨r, hr, hb⟩ := record_sampleInherited
  obtain ⟨record, hrecord, -⟩ := h sampleInherited {} sampleNamesOps 0 r sampleNames
    (.method ⟨"B", sampleRun.signature⟩) settled_sampleInherited hr hb (by decide)
  have hnone : ((new sampleInherited {}).history sampleNamesOps).classes.find? "B" = none := by decide +kernel
  cases hrecord.symm.trans hnone

end Analysis

end TypeFlow
