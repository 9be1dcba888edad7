import TypeFlow.Proofs.Analysis.Declarations
import TypeFlow.Proofs.Analysis.NamedClasses

/-!
# References that lead nowhere

An instruction whose member is nowhere leaves one report, of the class if it is
missing and of the member otherwise, however often it is met. A field that is
nowhere is taken to hold whatever the root holds, so whoever reads it gets all
types. A call of a method that is nowhere is not: it connects nothing.
-/

namespace TypeFlow

def Instr.fetches? : Instr → Option Local
  | loadField dst _ _ _ => some dst
  | call dst? _ _ _ _ => dst?
  | _ => none

/-- The problem with a name that leads nowhere though its class is there. -/
def Naming.missing : Naming → Problem
  | cls name => .missingClass name
  | field f => .missingField f
  | method m => .missingMethod m
  | receiver owner => .missingClass owner

def Naming.problem (c : Catalog) (x : Naming) : Problem :=
  if (c.find? x.name).isNone then .missingClass x.name else x.missing

def Catalog.Lacks (c : Catalog) : Naming → Prop
  | .field f => c.resolveField f = none
  | .method m => c.resolveMethod m = none
  | _ => False

namespace Analysis

/-- Whether a name that leads nowhere is reported once and in no other way. -/
structure ReportsOnce (s : Analysis) (x : Naming) : Prop where
  once : s.problems.toList.count (x.problem s.hierarchy.view) = 1
  only : ∀ p ∈ [.missingClass x.name, x.missing], p ∈ s.problems → p = x.problem s.hierarchy.view

variable {s : Analysis} {f : Frame} {x : Naming}

/-! ## Reports -/

theorem Reports.reported (h : s.Reports x) (hlack : s.hierarchy.view.Lacks x) : s.Reported x.name x.missing := by
  cases x with
  | field f =>
    obtain ⟨found?, hd, hnone⟩ := h
    exact hnone (hd.view.symm.trans hlack)
  | method m =>
    obtain ⟨found?, hd, hnone⟩ := h
    exact hnone (hd.view.symm.trans hlack)
  | cls name => exact hlack.elim
  | receiver owner => exact hlack.elim

/-- What is reported missing from a class is missing from a class that is there. -/
theorem ClosedWorld.isSome_of_missing (h : s.ClosedWorld) (hlack : s.hierarchy.view.Lacks x)
    (hp : x.missing ∈ s.problems) : (s.hierarchy.view.find? x.name).isSome = true := by
  cases x with
  | field f => exact (h.missingFields f hp).2.1
  | method m => exact (h.missingMethods m hp).2.1
  | cls name => exact hlack.elim
  | receiver owner => exact hlack.elim

theorem ClosedWorld.reportsOnce (hc : s.ClosedWorld) (hlack : s.hierarchy.view.Lacks x)
    (h : s.Reported x.name x.missing) : s.ReportsOnce x := by
  obtain ⟨r, hr, hreported⟩ := h
  obtain ⟨r', hr', hmissing, hclass⟩ := hc.recordsClass (Table.mem_keys_of_find? hr)
  obtain rfl := Option.some.inj (hr.symm.trans hr')
  have hmem : x.problem s.hierarchy.view ∈ s.problems := by
    unfold Naming.problem
    split
    · next hnone => exact hclass.2 (Option.isNone_iff_eq_none.1 hnone)
    · next hsome =>
      refine hreported.resolve_left fun hm => hsome ?_
      exact Option.isNone_iff_eq_none.2 (hmissing.1 hm)
  refine ⟨List.count_eq_one_of_mem s.problems.nodup (OrderedSet.mem_toList.2 hmem), fun p hp hin => ?_⟩
  unfold Naming.problem
  simp only [List.mem_cons, List.not_mem_nil, or_false] at hp
  rcases hp with rfl | rfl
  · rw [if_pos (Option.isNone_iff_eq_none.2 (hclass.1 hin))]
  · rw [if_neg]
    rw [Option.isNone_iff_eq_none]
    exact Option.isSome_iff_ne_none.1 (hc.isSome_of_missing hlack hin)

/-! ## Flow -/

/-- A field that is nowhere gives what the root holds. -/
theorem Demands.root_of_loadField {dst : Local} {instance? : Option Local}
    {field : QualifiedField} {type : DeclType} (h : s.Demands s.contents f (.loadField dst instance? field type))
    (hlack : s.hierarchy.view.resolveField field = none) : s.contents.between (some root) (f.node? dst) := by
  obtain ⟨node, ⟨resolved?, hres, hnode⟩, hbetween⟩ := h
  obtain rfl : resolved? = none := Eq.trans (Eq.symm hres) hlack
  exact hnode ▸ hbetween

/-- A call of a method that is nowhere adds neither a type nor an edge. -/
theorem quiet_call_of_unresolved (hv : s.Valid) {dst? instance? : Option Local} {callee : QualifiedMethod}
    {args : List Local} {binding : Binding} (hdirect : binding.receiver? = none ∨ instance? = none)
    (hlack : s.hierarchy.view.resolveMethod callee = none) :
    s.Quiet (s.call f dst? instance? callee args binding) := by
  have hrun : ∀ {t : Analysis}, t.Valid → t.hierarchy.view.resolveMethod callee = none →
      t.Quiet (t.runMethod callee (f.site dst? instance? args)) := by
    intro t ht hnone
    unfold runMethod
    simp only [linkMethod_of_unresolved ht hnone]
    exact quiet_linkMethod t callee
  have hcall : s.Quiet ((if binding = .static then s.initializeClass callee.owner else s).runMethod callee
      (f.site dst? instance? args)) := by
    by_cases hb : binding = .static
    · have hinit := (moves_initializeClass (w := .client) hv [] callee.owner).1
      rw [if_pos hb]
      exact (quiet_initializeClass s callee.owner).trans
        (hrun (hinit.valid hv) ((Catalog.resolveMethod_congr hinit.learns.answer callee).trans hlack))
    · rw [if_neg hb]
      exact hrun hv hlack
  unfold call
  split
  · next owner receiver howner =>
    rcases hdirect with hnone | hnone
    · cases hnone.symm.trans howner
    · cases hnone
  · exact hcall

theorem quiet_transfer_of_unresolved (hv : s.Valid) {i : Instr} {callee : QualifiedMethod}
    (hi : i.member? = some (.method callee)) (hlack : s.hierarchy.view.resolveMethod callee = none) :
    s.Quiet (s.transfer f i) := by
  cases i with
  | call dst? instance? callee' args binding =>
    have hdirect : (binding.receiver? = none ∨ instance? = none) ∧ callee' = callee := by
      cases howner : binding.receiver? <;> cases instance? <;> simp_all [Instr.member?]
    obtain ⟨hdirect, rfl⟩ := hdirect
    exact quiet_call_of_unresolved hv hdirect hlack
  | loadField dst instance? field type => cases hi
  | storeField instance? field src type => cases hi
  | _ => cases hi

/-! ## Settled sessions -/

/-- In a session in which nothing waits, a member of a linked body that is nowhere is reported once. Whoever reads
it holds what the root holds, if it is a field; a call of it adds nothing, if it is a method. -/
theorem reportsOnce_of_unresolved (w : World) (settings : Settings) (ops : List Op)
    (hs : ((new w settings).history ops).isSettled) {id : MethodId} {r : MethodRecord} {body : Body}
    (hr : ((new w settings).history ops).methods[id]? = some r) (hb : r.definition.body? = some body) {i : Instr}
    (hi : i ∈ body.instrs) (hx : i.member? = some x)
    (hlack : ((new w settings).history ops).hierarchy.view.Lacks x) :
    ((new w settings).history ops).ReportsOnce x ∧
      (∀ field, x = .field field → ∀ dst, i.fetches? = some dst → ∀ n, r.locals[dst]? = some n →
        ∀ t ∈ ((new w settings).history ops).graph.typesAt root,
          t ∈ ((new w settings).history ops).graph.typesAt n) ∧
      ∀ callee, x = .method callee → ∀ f, ((new w settings).history ops).Quiet
        (((new w settings).history ops).transfer f i) := by
  have hsound := ((sound_new w settings).history ops).1
  have hclosed := closedWorld_history w settings ops
  generalize (new w settings).history ops = s at *
  obtain ⟨-, hobeys, -, hleaves⟩ := hsound.applied hs hr hb
  refine ⟨hclosed.reportsOnce hlack (((hleaves i hi).reports x hx).reported hlack), ?_, ?_⟩
  · rintro field rfl dst hdst n hn
    cases i with
    | loadField dst' instance? field' type =>
      cases hx
      cases hdst
      have hdemands := ((hsound.obeys hs hr hb).2.instrs _ hi).root_of_loadField hlack
      exact hdemands root n rfl hn
    | call dst? instance? callee args binding =>
      simp only [Instr.member?] at hx
      split at hx
      · cases hx
      · cases hx
    | _ => cases hdst
  · rintro callee rfl f
    exact quiet_transfer_of_unresolved hsound.valid hx hlack

/-! A field and a static method that are nowhere. -/

def sampleAbsentField : Instr := .loadField 1 none ⟨"A", "absent"⟩ (.object "A")

def sampleAbsentCall : Instr := .call (some 2) none ⟨"A", ⟨"absent", [], .object "A"⟩⟩ [] .static

def sampleAbsence : Body := ⟨3, [⟨[.new 0 "A", sampleAbsentField, sampleAbsentCall, sampleAbsentCall], []⟩]⟩

def sampleAbsent : World where
  classes := [⟨"A", none, [], [], [], [⟨sampleMain.signature, [.static], some sampleAbsence⟩]⟩]
  nodup := by decide

def sampleAbsentOps : List Op := [.command (.entry sampleMain), .command .settle]

set_option maxRecDepth 100000 in
theorem settled_sampleAbsent : ((new sampleAbsent {}).history sampleAbsentOps).isSettled = true := by
  decide +kernel

set_option maxRecDepth 100000 in
theorem record_sampleAbsent : ∃ r, ((new sampleAbsent {}).history sampleAbsentOps).methods[0]? = some r ∧
    r.locals = #[4, 5, 6] ∧ r.definition.body? = some sampleAbsence := by
  have h : (((new sampleAbsent {}).history sampleAbsentOps).methods[0]?.bind fun r =>
      if r.locals = #[4, 5, 6] then r.definition.body? else none) = some sampleAbsence := by
    decide +kernel
  obtain ⟨r, hr, hbody⟩ := Option.bind_eq_some_iff.1 h
  split at hbody
  · next hlocals => exact ⟨r, hr, hlocals, hbody⟩
  · cases hbody

set_option maxRecDepth 100000 in
/-- What the root holds of the sample. -/
theorem root_sampleAbsent : .ofClass "A" ∈ ((new sampleAbsent {}).history sampleAbsentOps).graph.typesAt root := by
  decide +kernel

set_option maxRecDepth 100000 in
theorem lacks_sampleAbsent :
    ((new sampleAbsent {}).history sampleAbsentOps).hierarchy.view.resolveField ⟨"A", "absent"⟩ = none ∧
      ((new sampleAbsent {}).history sampleAbsentOps).hierarchy.view.resolveMethod
        ⟨"A", ⟨"absent", [], .object "A"⟩⟩ = none := by
  decide +kernel

/-- Both members are reported once, and the variable that gets the field holds the instance. -/
theorem reportsOnce_sampleAbsent :
    ((new sampleAbsent {}).history sampleAbsentOps).ReportsOnce (.field ⟨"A", "absent"⟩) ∧
      ((new sampleAbsent {}).history sampleAbsentOps).ReportsOnce (.method ⟨"A", ⟨"absent", [], .object "A"⟩⟩) ∧
      .ofClass "A" ∈ ((new sampleAbsent {}).history sampleAbsentOps).graph.typesAt 5 := by
  obtain ⟨r, hr, hlocals, hb⟩ := record_sampleAbsent
  have hfield := reportsOnce_of_unresolved sampleAbsent {} sampleAbsentOps settled_sampleAbsent hr hb
    (i := sampleAbsentField) (by decide) rfl lacks_sampleAbsent.1
  have hmethod := reportsOnce_of_unresolved sampleAbsent {} sampleAbsentOps settled_sampleAbsent hr hb
    (i := sampleAbsentCall) (by decide) rfl lacks_sampleAbsent.2
  refine ⟨hfield.1, hmethod.1, hfield.2.1 _ rfl 1 rfl 5 ?_ _ root_sampleAbsent⟩
  rw [hlocals]
  rfl

set_option maxRecDepth 100000 in
/-- The variable that gets what the call gives holds nothing. -/
theorem not_forall_root_of_unresolved :
    ¬ ∀ (w : World) (settings : Settings) (ops : List Op) (id : MethodId) (r : MethodRecord)
      (body : Body) (i : Instr) (x : Naming) (dst : Local) (n : NodeId),
      ((new w settings).history ops).isSettled →
      ((new w settings).history ops).methods[id]? = some r → r.definition.body? = some body → i ∈ body.instrs →
      i.member? = some x → ((new w settings).history ops).hierarchy.view.Lacks x → i.fetches? = some dst →
      r.locals[dst]? = some n → ∀ t ∈ ((new w settings).history ops).graph.typesAt root,
        t ∈ ((new w settings).history ops).graph.typesAt n := by
  intro h
  obtain ⟨r, hr, hlocals, hb⟩ := record_sampleAbsent
  have hmem := h sampleAbsent {} sampleAbsentOps 0 r sampleAbsence sampleAbsentCall _ 2 6 settled_sampleAbsent hr hb
    (by decide) rfl lacks_sampleAbsent.2 rfl (by rw [hlocals]; rfl) _ root_sampleAbsent
  have hnone : ((new sampleAbsent {}).history sampleAbsentOps).graph.typesAt 6 = [] := by decide +kernel
  rw [hnone] at hmem
  cases hmem

end Analysis

end TypeFlow
