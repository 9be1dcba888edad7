import TypeFlow.Document.Code
import TypeFlow.Proofs.Document.Record
import TypeFlow.Proofs.Json.Value

/-!
# Code is read as it was written

An instruction is written with each operand as a member of its own, under the
name by which the operand is read, and nothing in it is too deep or too large
to be held. So every operand is found again, and with the operands the
instructions, handlers, blocks and bodies, provided that their numbers have 64
bits and the types and members that they name are well formed.
-/

namespace TypeFlow

namespace Instr

/-- The local variables and blocks that an instruction names. -/
def numbers : Instr → List Nat
  | move dst src => [dst, src]
  | cast dst src _ => [dst, src]
  | nullConst dst => [dst]
  | textConst dst _ => [dst]
  | classConst dst _ => [dst]
  | new dst _ => [dst]
  | newArray dst _ length => [dst, length]
  | newMultiArray dst _ lengths => dst :: lengths
  | loadField dst instance? _ _ => dst :: instance?.toList
  | storeField instance? _ src _ => src :: instance?.toList
  | loadItem dst array _ => [dst, array]
  | storeItem array index src _ => [array, index, src]
  | cloneArray dst array => [dst, array]
  | call dst? instance? _ args _ => dst?.toList ++ instance?.toList ++ args
  | instanceTest dst src _ => [dst, src]
  | initClass _ => []
  | phi dst sources => dst :: sources
  | enterMonitor object => [object]
  | exitMonitor object => [object]
  | jump target => [target]
  | branch condition thenBlock elseBlock => [condition, thenBlock, elseBlock]
  | ret value? => value?.toList
  | raise exception => [exception]

def types : Instr → List DeclType
  | cast _ _ target => [target]
  | classConst _ constant => [constant]
  | newArray _ item _ => [item]
  | newMultiArray _ type _ => [type]
  | loadField _ _ _ type => [type]
  | storeField _ _ _ type => [type]
  | loadItem _ _ type => [type]
  | storeItem _ _ _ type => [type]
  | instanceTest _ _ tested => [tested]
  | _ => []

def field? : Instr → Option QualifiedField
  | loadField _ _ field _ => some field
  | storeField _ field _ _ => some field
  | _ => none

def callee? : Instr → Option QualifiedMethod
  | call _ _ callee _ _ => some callee
  | _ => none

/-- Whether every number has 64 bits and every type and qualified member is well formed. -/
def Writable (i : Instr) : Prop :=
  (∀ n ∈ i.numbers, n < wordBound) ∧ (∀ t ∈ i.types, t.WellFormed) ∧ (∀ f ∈ i.field?, f.WellFormed) ∧
    ∀ m ∈ i.callee?, m.WellFormed

instance (i : Instr) : Decidable i.Writable :=
  inferInstanceAs (Decidable ((∀ n ∈ i.numbers, n < wordBound) ∧ (∀ t ∈ i.types, t.WellFormed) ∧
    (∀ f ∈ i.field?, f.WellFormed) ∧ ∀ m ∈ i.callee?, m.WellFormed))

end Instr

def Handler.Writable (h : Handler) : Prop := h.target < wordBound ∧ ∀ n ∈ h.dst?, n < wordBound

instance (h : Handler) : Decidable h.Writable :=
  inferInstanceAs (Decidable (h.target < wordBound ∧ ∀ n ∈ h.dst?, n < wordBound))

def Block.Writable (b : Block) : Prop := (∀ i ∈ b.instrs, i.Writable) ∧ ∀ h ∈ b.handlers, h.Writable

instance (b : Block) : Decidable b.Writable :=
  inferInstanceAs (Decidable ((∀ i ∈ b.instrs, i.Writable) ∧ ∀ h ∈ b.handlers, h.Writable))

def Body.Writable (b : Body) : Prop := b.locals < wordBound ∧ ∀ block ∈ b.blocks, block.Writable

instance (b : Body) : Decidable b.Writable :=
  inferInstanceAs (Decidable (b.locals < wordBound ∧ ∀ block ∈ b.blocks, block.Writable))

/-! ## What is written can be held -/

namespace Json

theorem Plain.ofText? (o : Option String) : (Json.ofText? o).Plain := by
  cases o with
  | none => exact .null
  | some s => exact .text s

theorem Plain.ofNat? {o : Option Nat} (h : ∀ n ∈ o, n < wordBound) : (Json.ofNat? o).Plain := by
  cases o with
  | none => exact .null
  | some n => exact .nat (h n rfl)

theorem Plain.map {α : Type} {toJson : α → Json} {l : List α} (h : ∀ a ∈ l, (toJson a).Plain) :
    (Json.array (l.map toJson)).Plain := by
  refine .array fun j hj => ?_
  obtain ⟨a, ha, rfl⟩ := List.mem_map.1 hj
  exact h a ha

theorem Plain.ofNats {l : List Nat} (h : ∀ n ∈ l, n < wordBound) : (Json.ofNats l).Plain :=
  .map fun n hn => .nat (h n hn)

theorem Plain.ofTexts (l : List String) : (Json.ofTexts l).Plain := .map fun s _ => .text s

theorem Plain.holdable {j : Json} (h : j.Plain) : j.holdable = true := by
  induction h with
  | null => rfl
  | bool b => rfl
  | nat h => rfl
  | text s => rfl
  | @array items h ih =>
    rw [Json.holdable]
    clear h
    induction items with
    | nil => rfl
    | cons j items ihs =>
      rw [List.forall_mem_cons] at ih
      rw [holdableItems, ih.1, ihs ih.2]
      rfl
  | @object members h ih =>
    rw [Json.holdable]
    clear h
    induction members with
    | nil => rfl
    | cons m members ihs =>
      rw [List.forall_mem_cons] at ih
      rw [holdableMembers, ih.1, ihs ih.2]
      rfl

theorem depthItems_le {n : Nat} {items : List Json} (h : ∀ j ∈ items, j.depth ≤ n) : depthItems items ≤ n := by
  induction items with
  | nil => exact Nat.zero_le n
  | cons j items ih =>
    rw [List.forall_mem_cons] at h
    exact Nat.max_le.2 ⟨h.1, ih h.2⟩

theorem depthMembers_le {n : Nat} {members : List (String × Json)} (h : ∀ m ∈ members, m.2.depth ≤ n) :
    depthMembers members ≤ n := by
  induction members with
  | nil => exact Nat.zero_le n
  | cons m members ih =>
    rw [List.forall_mem_cons] at h
    exact Nat.max_le.2 ⟨h.1, ih h.2⟩

theorem depth_ofNats (l : List Nat) : (Json.ofNats l).depth ≤ 1 := by
  have hitems : depthItems (l.map nat) ≤ 0 := by
    refine depthItems_le fun j hj => ?_
    obtain ⟨n, -, rfl⟩ := List.mem_map.1 hj
    exact Nat.le_refl 0
  exact Nat.succ_le_succ hitems

theorem depth_ofNat? (o : Option Nat) : (Json.ofNat? o).depth = 0 := by cases o <;> rfl

end Json

theorem Binding.plain_toJson (b : Binding) : b.toJson.Plain := by
  cases b with
  | static => exact .text _
  | special => exact .text _
  | virtual owner => exact .object (by simpa using .text owner)
  | interface owner => exact .object (by simpa using .text owner)

theorem Binding.depth_toJson (b : Binding) : b.toJson.depth ≤ 1 := by
  cases b <;> simp [toJson, Json.depth, Json.depthMembers]

namespace Instr

theorem plain_operands {i : Instr} (h : i.Writable) : ∀ m ∈ i.members.2, m.2.Plain := by
  obtain ⟨hn, -, -, -⟩ := h
  cases i
  all_goals
    simp [numbers, or_imp, forall_and] at hn
    simp +contextual [members, Json.Plain.nat, Json.Plain.text, Json.Plain.ofNat?, Json.Plain.ofNats,
      Binding.plain_toJson, *]

theorem plain_toJson {i : Instr} (h : i.Writable) : i.toJson.Plain := by
  refine .object ?_
  rw [List.forall_mem_cons]
  exact ⟨.text _, plain_operands h⟩

theorem depth_toJson (i : Instr) : i.toJson.depth ≤ 2 := by
  have hmembers : ∀ m ∈ i.members.2, m.2.depth ≤ 1 := by
    cases i <;> simp [members, Json.depth, Json.depth_ofNat?, Json.depth_ofNats, Binding.depth_toJson]
  refine Nat.succ_le_succ (Json.depthMembers_le ?_)
  rw [List.forall_mem_cons]
  exact ⟨Nat.zero_le 1, hmembers⟩

/-- The names of the operands differ from one another and from that of the kind. -/
theorem nodup_operands (i : Instr) : ("op" :: i.members.2.map Prod.fst).Nodup := by
  cases i <;> simp [members]

end Instr

namespace Reading

theorem nullable_nat {o : Option Nat} (h : ∀ n ∈ o, n < wordBound) : nullable nat (.ofNat? o) = .ok o := by
  cases o with
  | none => rfl
  | some n =>
    simp only [Json.ofNat?, nullable, nat_nat (h n rfl)]
    rfl

theorem binding_toJson (b : Binding) : binding b.toJson = .ok b := by
  cases b <;> rfl

/-- The kind of an instruction is known, and each operand is found in its place. -/
theorem exists_form {i : Instr} (h : i.Writable) : ∃ form, choose instrForms i.members.1 = .ok form ∧
    form.2 ⟨form.1, i.members.2, false⟩ = .ok i := by
  obtain ⟨hn, ht, hf, hm⟩ := h
  cases i
  all_goals
    refine ⟨_, rfl, ?_⟩
    simp [Instr.numbers, Instr.types, Instr.field?, Instr.callee?, or_imp, forall_and] at hn ht hf hm
    simp +contextual [Instr.members, Record.required, Record.find?, local?, nullable_nat,
      list_nats, binding_toJson, *]

theorem instrParts_toJson {i : Instr} (h : i.Writable) :
    instrParts i.toJson = .ok (.text i.members.1, .object i.members.2) := by
  obtain ⟨form, hform, -⟩ := exists_form h
  have hop : ∀ m ∈ i.members.2, m.1 ≠ "op" := fun m hm heq =>
    (List.nodup_cons.1 i.nodup_operands).1 (List.mem_map.2 ⟨m, hm, heq⟩)
  have hkind : (("op", Json.text i.members.1) :: i.members.2).filter (fun m => m.1 = "op") =
      [("op", .text i.members.1)] := by simpa using hop
  have hrest : (("op", Json.text i.members.1) :: i.members.2).filter (fun m => m.1 ≠ "op") = i.members.2 := by
    simpa using hop
  rw [Instr.toJson, instrParts]
  simp only [hkind, hrest, text_text, hform, bind, Except.bind]
  rfl

theorem instr_toJson {i : Instr} (h : i.Writable) {level : Nat} (hlevel : level + 2 ≤ depthLimit) :
    instr level i.toJson = .ok i := by
  obtain ⟨form, hform, hbody⟩ := exists_form h
  have hdepth : ¬ depthLimit < level + i.toJson.depth := by
    have := i.depth_toJson
    omega
  have hread : Record.read form.1 form.2 (.object i.members.2) = .ok i :=
    Record.read_object (List.nodup_cons.1 i.nodup_operands).2 hbody
  have hhold := (Instr.plain_toJson h).holdable
  rw [instr, instrParts_toJson h]
  simp [hdepth, hhold, hform, bind, Except.bind, hread]

theorem handler_toJson {h : Handler} (hw : h.Writable) : handler h.toJson = .ok h := by
  refine Record.read_object (by simp) ?_
  rw [Record.defaulted_of_find? rfl (nullable_text h.catches), Record.required_of_find? rfl (nat_nat hw.1),
    Record.defaulted_of_find? rfl (nullable_nat hw.2)]
  rfl

theorem block_toJson {b : Block} (hw : b.Writable) {level : Nat} (hlevel : level + 4 ≤ depthLimit) :
    block level b.toJson = .ok b := by
  refine Record.read_object (by simp) ?_
  rw [Record.required_of_find? rfl (list_map fun i hi => instr_toJson (hw.1 i hi) hlevel),
    Record.defaulted_of_find? rfl (list_map fun h hh => handler_toJson (hw.2 h hh))]
  rfl

theorem body_toJson {b : Body} (hw : b.Writable) {level : Nat} (hlevel : level + 6 ≤ depthLimit) :
    body level b.toJson = .ok b := by
  refine Record.read_object (by simp) ?_
  rw [Record.required_of_find? rfl (nat_nat hw.1),
    Record.required_of_find? rfl (list_map fun block hb => block_toJson (hw.2 block hb) hlevel)]
  rfl

end Reading

theorem Handler.plain_toJson {h : Handler} (hw : h.Writable) : h.toJson.Plain :=
  .object (by simp [Json.Plain.ofText?, Json.Plain.nat hw.1, Json.Plain.ofNat? hw.2])

theorem Block.plain_toJson {b : Block} (hw : b.Writable) : b.toJson.Plain :=
  .object (by simp [Json.Plain.map fun i hi => Instr.plain_toJson (hw.1 i hi),
    Json.Plain.map fun h hh => Handler.plain_toJson (hw.2 h hh)])

theorem Body.plain_toJson {b : Body} (hw : b.Writable) : b.toJson.Plain :=
  .object (by simp [Json.Plain.nat hw.1, Json.Plain.map fun block hb => Block.plain_toJson (hw.2 block hb)])

end TypeFlow
