import TypeFlow.Document.World
import TypeFlow.Proofs.Changes
import TypeFlow.Proofs.Document.Code

/-!
# Worlds are read as written

What a document can hold of a world, down to its instructions, is read from it
again, in the compact and in the indented form. Of several classes of one name
the last one is in the world.
-/

namespace TypeFlow

def MethodDef.Writable (m : MethodDef) : Prop := m.signature.WellFormed ∧ ∀ b ∈ m.body?, b.Writable

instance (m : MethodDef) : Decidable m.Writable :=
  inferInstanceAs (Decidable (m.signature.WellFormed ∧ ∀ b ∈ m.body?, b.Writable))

def ClassDef.Writable (c : ClassDef) : Prop := (∀ f ∈ c.fields, f.type.WellFormed) ∧ ∀ m ∈ c.methods, m.Writable

instance (c : ClassDef) : Decidable c.Writable :=
  inferInstanceAs (Decidable ((∀ f ∈ c.fields, f.type.WellFormed) ∧ ∀ m ∈ c.methods, m.Writable))

namespace Reading

theorem modifiers_toJson (l : List Modifier) : modifiers (modifiersToJson l) = .ok l := by
  have hnames : modifiersToJson l = .array (l.map fun m => .text m.name) := by
    simp [modifiersToJson, Json.ofTexts]
  rw [hnames]
  exact list_map fun m _ => by cases m <;> rfl

theorem fieldDef_toJson {f : FieldDef} (h : f.type.WellFormed) : fieldDef f.toJson = .ok f := by
  refine Record.read_object (by simp) ?_
  rw [Record.required_of_find? rfl (text_text f.name), Record.required_of_find? rfl (type_text h),
    Record.defaulted_of_find? rfl (modifiers_toJson f.modifiers)]
  rfl

theorem program_toJson {o : Option Body} (h : ∀ b ∈ o, b.Writable) {level : Nat} (hlevel : level + 6 ≤ depthLimit) :
    nullable (body level) ((o.map Body.toJson).getD .null) = .ok o := by
  cases o with
  | none => rfl
  | some b =>
    have hread := body_toJson (h b rfl) hlevel
    rw [Body.toJson] at hread
    simp only [Option.map_some, Option.getD_some, Body.toJson, nullable, hread]
    rfl

theorem methodDef_toJson {m : MethodDef} (h : m.Writable) {level : Nat} (hlevel : level + 7 ≤ depthLimit) :
    methodDef level m.toJson = .ok m := by
  refine Record.read_object (by simp) ?_
  rw [Record.required_of_find? rfl (signature_text h.1),
    Record.defaulted_of_find? rfl (modifiers_toJson m.modifiers),
    Record.defaulted_of_find? rfl (program_toJson h.2 (by omega))]
  rfl

theorem classDef_toJson {c : ClassDef} (h : c.Writable) {level : Nat} (hlevel : level + 9 ≤ depthLimit) :
    classDef level c.toJson = .ok c := by
  refine Record.read_object (by simp) ?_
  rw [Record.required_of_find? rfl (text_text c.name), Record.defaulted_of_find? rfl (nullable_text c.superclass?),
    Record.defaulted_of_find? rfl (list_texts c.interfaces),
    Record.defaulted_of_find? rfl (modifiers_toJson c.modifiers),
    Record.defaulted_of_find? rfl (list_map fun f hf => fieldDef_toJson (h.1 f hf)),
    Record.defaulted_of_find? rfl (list_map fun m hm => methodDef_toJson (h.2 m hm) (by omega))]
  rfl

theorem world_toJson {classes : List ClassDef} (h : ∀ c ∈ classes, c.Writable) :
    world (worldToJson classes) = .ok (.ofList classes) := by
  refine Record.read_object (by simp) ?_
  rw [Record.required_of_find? rfl (list_map fun c hc => classDef_toJson (h c hc) (by decide))]
  rfl

end Reading

theorem MethodDef.plain_toJson {m : MethodDef} (h : m.Writable) : m.toJson.Plain := by
  have hbody : ((m.body?.map Body.toJson).getD .null).Plain := by
    cases hb : m.body? with
    | none => exact .null
    | some b => exact Body.plain_toJson (h.2 b hb)
  exact .object (by simp [Json.Plain.text, modifiersToJson, Json.Plain.ofTexts, hbody])

theorem FieldDef.plain_toJson (f : FieldDef) : f.toJson.Plain :=
  .object (by simp [Json.Plain.text, modifiersToJson, Json.Plain.ofTexts])

theorem ClassDef.plain_toJson {c : ClassDef} (h : c.Writable) : c.toJson.Plain :=
  .object (by simp [Json.Plain.text, Json.Plain.ofText?, modifiersToJson, Json.Plain.ofTexts,
    Json.Plain.map fun f _ => FieldDef.plain_toJson f,
    Json.Plain.map fun m hm => MethodDef.plain_toJson (h.2 m hm)])

theorem plain_worldToJson {classes : List ClassDef} (h : ∀ c ∈ classes, c.Writable) : (worldToJson classes).Plain :=
  .object (by simp [Json.Plain.map fun c hc => ClassDef.plain_toJson (h c hc)])

/-! ## The classes of a world -/

namespace World

variable {w : World} {c d : ClassDef}

theorem mem_insert : d ∈ (w.insert c).classes ↔ d = c ∨ d ∈ w.classes ∧ d.name ≠ c.name := by
  unfold insert
  split
  · next hmem =>
    rw [List.mem_map]
    constructor
    · rintro ⟨e, he, rfl⟩
      split
      · exact .inl rfl
      · next hname => exact .inr ⟨he, hname⟩
    · rintro (rfl | ⟨hd, hname⟩)
      · obtain ⟨e, he, hname⟩ := List.mem_map.1 hmem
        exact ⟨e, he, if_pos hname⟩
      · exact ⟨d, hd, if_neg hname⟩
  · next hmem =>
    rw [List.mem_append, List.mem_singleton]
    constructor
    · rintro (hd | rfl)
      · exact .inr ⟨hd, fun hname => hmem (List.mem_map.2 ⟨d, hd, hname⟩)⟩
      · exact .inl rfl
    · rintro (rfl | ⟨hd, -⟩)
      · exact .inr rfl
      · exact .inl hd

theorem find?_insert (w : World) (c : ClassDef) (name : ClassName) :
    (w.insert c).find? name = if c.name = name then some c else w.find? name := by
  ext d
  rw [find?_eq_some_iff, mem_insert]
  split
  · next hname =>
    rw [Option.some_inj]
    constructor
    · rintro ⟨rfl | ⟨-, hne⟩, hd⟩
      · rfl
      · exact absurd (hd.trans hname.symm) hne
    · rintro rfl
      exact ⟨.inl rfl, hname⟩
  · next hname =>
    rw [find?_eq_some_iff]
    constructor
    · rintro ⟨rfl | ⟨hd, -⟩, hdname⟩
      · exact absurd hdname hname
      · exact ⟨hd, hdname⟩
    · rintro ⟨hd, hdname⟩
      exact ⟨.inr ⟨hd, fun heq => hname (heq.symm.trans hdname)⟩, hdname⟩

theorem find?_foldl_insert (classes : List ClassDef) (w : World) (name : ClassName) :
    (classes.foldl insert w).find? name = (classes.filter fun c => c.name = name).getLast?.or (w.find? name) := by
  induction classes generalizing w with
  | nil => rfl
  | cons c classes ih =>
    rw [List.foldl_cons, ih, find?_insert]
    by_cases hc : c.name = name
    · rw [List.filter_cons_of_pos (by simpa using hc), if_pos hc, List.getLast?_cons]
      cases (classes.filter fun c => c.name = name).getLast? <;> rfl
    · rw [List.filter_cons_of_neg (by simpa using hc), if_neg hc]

/-- Of several classes of one name the last one is found. -/
theorem find?_ofList (classes : List ClassDef) (name : ClassName) :
    (ofList classes).find? name = (classes.filter fun c => c.name = name).getLast? := by
  rw [ofList, find?_foldl_insert]
  exact Option.or_none

end World

/-- A document of writable classes is read, and each name in it stands for the last of its classes: the whole of it,
with every field, method and instruction. -/
theorem readDocument_worldToJson {classes : List ClassDef} (h : ∀ c ∈ classes, c.Writable) :
    readDocument Reading.world (worldToJson classes).compact = .ok (.ofList classes) ∧
    readDocument Reading.world (worldToJson classes).pretty = .ok (.ofList classes) ∧
    ∀ name, (World.ofList classes).find? name = (classes.filter fun c => c.name = name).getLast? := by
  have hplain := plain_worldToJson h
  refine ⟨?_, ?_, World.find?_ofList classes⟩
  · rw [readDocument, hplain.parse?_compact]
    exact Reading.world_toJson h
  · rw [readDocument, hplain.parse?_pretty]
    exact Reading.world_toJson h

/-- Two classes of one name; only the second has anything in it. -/
def sampleClasses : List ClassDef :=
  [⟨"a.B", none, [], [], [], []⟩,
    ⟨"a.B", some "java.lang.Object", ["a.I"], [.final, .final], [⟨"f", .array (.object "a.B"), [.static]⟩],
      [⟨⟨"run", [.object "a.B", .array (.primitive .int)], .void⟩, [],
        some ⟨3, [⟨[.call none (some 0) ⟨"a.I", ⟨"step", [], .void⟩⟩ [] (.interface "a.I"), .ret none],
          [⟨none, 0, some 1⟩]⟩]⟩⟩]⟩]

theorem readDocument_sampleClasses :
    readDocument Reading.world (worldToJson sampleClasses).compact = .ok (.ofList sampleClasses) ∧
    readDocument Reading.world (worldToJson sampleClasses).pretty = .ok (.ofList sampleClasses) ∧
    ∀ name, (World.ofList sampleClasses).find? name = (sampleClasses.filter fun c => c.name = name).getLast? :=
  readDocument_worldToJson (by decide +kernel)

end TypeFlow
