import TypeFlow.Proofs.Solution.Order

/-!
# Where choosers come from

Dynamic calls alone speak of choosers. All else that a body entails is the same
whatever the precision is, and a call that a chooser serves is found again in
the body of a method.
-/

namespace TypeFlow

namespace Fact

def chooser? : Fact → Option Chooser
  | calls _ _ κ => some κ
  | serves κ _ => some κ
  | target κ _ => some κ
  | _ => none

def Silent (l : List Fact) : Prop := ∀ φ ∈ l, φ.chooser? = none

@[simp] theorem silent_nil : Silent [] := fun _ hφ => absurd hφ List.not_mem_nil

@[simp] theorem silent_cons {φ : Fact} {l : List Fact} : Silent (φ :: l) ↔ φ.chooser? = none ∧ Silent l :=
  List.forall_mem_cons

@[simp] theorem silent_append {l l' : List Fact} : Silent (l ++ l') ↔ Silent l ∧ Silent l' := List.forall_mem_append

theorem silent_map {α : Type} {f : α → Fact} (l : List α) (h : ∀ a, (f a).chooser? = none) : Silent (l.map f) :=
  List.forall_mem_map.2 fun a _ => h a

theorem silent_flatMap {α : Type} {f : α → List Fact} (l : List α) (h : ∀ a, Silent (f a)) :
    Silent (l.flatMap f) := by
  intro φ hφ
  obtain ⟨a, -, hφ⟩ := List.mem_flatMap.1 hφ
  exact h a φ hφ

theorem silent_ite {p : Prop} [Decidable p] {l l' : List Fact} (h : Silent l) (h' : Silent l') :
    Silent (if p then l else l') := by
  split
  · exact h
  · exact h'

@[simp] theorem silent_between (x? y? : Option Slot) : Silent (between x? y?) := by
  cases x? <;> cases y? <;> simp [between, chooser?]

@[simp] theorem silent_naming (t : DeclType) : Silent (naming t) := silent_map _ fun _ => rfl

@[simp] theorem silent_appear (x? : Option Slot) (t : ExactType) : Silent (appear x? t) := by
  cases x? with
  | none => exact silent_nil
  | some x => exact silent_append.2 ⟨silent_map _ fun _ => rfl, by simp [chooser?]⟩

theorem silent_gathering (t : DeclType) : Silent (gathering t) :=
  silent_ite silent_nil (silent_cons.2 ⟨rfl, silent_nil⟩)

theorem eq_of_mem_gathering {t : DeclType} {φ : Fact} (h : φ ∈ gathering t) : φ = .aggregate t := by
  unfold gathering at h
  split at h
  · cases h
  · exact List.mem_singleton.1 h

theorem silent_pooling (k : ItemKey) : Silent (pooling k) := silent_ite (by simp [chooser?]) silent_nil

end Fact

namespace Catalog

section
variable (c : Catalog) (o : Settings)

@[simp] theorem silent_linking (m : QualifiedMethod) : Fact.Silent (c.linking m) := by
  unfold linking
  split
  · exact Fact.silent_cons.2 ⟨rfl, Fact.silent_nil⟩
  · exact Fact.silent_cons.2 ⟨rfl, Fact.silent_ite (Fact.silent_cons.2 ⟨rfl, Fact.silent_nil⟩) Fact.silent_nil⟩

@[simp] theorem silent_accessing (f : QualifiedField) : Fact.Silent (c.accessing f) := by
  unfold accessing
  split
  · exact Fact.silent_cons.2 ⟨rfl, Fact.silent_nil⟩
  · exact Fact.silent_cons.2 ⟨rfl, Fact.silent_ite (Fact.silent_cons.2 ⟨rfl, Fact.silent_nil⟩) Fact.silent_nil⟩

@[simp] theorem silent_initializing (n : ClassName) : Fact.Silent (c.initializing n) :=
  Fact.silent_cons.2 ⟨rfl, Fact.silent_ite (Fact.silent_cons.2 ⟨rfl, Fact.silent_nil⟩) Fact.silent_nil⟩

@[simp] theorem silent_joining (m : QualifiedMethod) (site : SlotSite) : Fact.Silent (c.joining m site) := by
  unfold joining
  split
  · exact Fact.silent_map _ fun _ => rfl
  · exact Fact.silent_nil

@[simp] theorem silent_calling (m : QualifiedMethod) (site : SlotSite) : Fact.Silent (c.calling m site) := by
  refine Fact.silent_append.2 ⟨c.silent_linking m, ?_⟩
  split
  · exact c.silent_joining _ site
  · exact Fact.silent_nil

@[simp] theorem silent_monitoring (object? : Option Slot) : Fact.Silent (c.monitoring o object?) := by
  refine Fact.silent_flatMap _ fun m => Fact.silent_append.2 ⟨c.silent_linking m, ?_⟩
  split
  · exact Fact.silent_between _ _
  · exact Fact.silent_nil

@[simp] theorem silent_fieldAccess (instance? : Option Local) (f : QualifiedField) :
    Fact.Silent (c.fieldAccess instance? f) :=
  Fact.silent_append.2 ⟨Fact.silent_ite (c.silent_initializing _) Fact.silent_nil, c.silent_accessing f⟩

theorem silent_wiring (t : DeclType) : Fact.Silent (c.wiring t) := by
  have hconsult : Fact.Silent (c.consulting t) := by
    unfold consulting
    split
    · exact Fact.silent_ite Fact.silent_nil
        (Fact.silent_ite (Fact.silent_cons.2 ⟨rfl, Fact.silent_nil⟩) Fact.silent_nil)
    · exact Fact.silent_nil
  refine Fact.silent_append.2 ⟨hconsult, Fact.silent_ite (Fact.silent_cons.2 ⟨rfl, Fact.silent_nil⟩) ?_⟩
  exact Fact.silent_flatMap _ fun super => Fact.silent_append.2
    ⟨Fact.silent_gathering super, Fact.silent_cons.2 ⟨rfl, Fact.silent_nil⟩⟩

theorem silent_asking (q : Analysis.Request) : Fact.Silent (c.asking q) := by
  cases q with
  | entry m =>
    refine Fact.silent_append.2 ⟨c.silent_linking m, ?_⟩
    split
    · exact Fact.silent_ite (c.silent_initializing _) Fact.silent_nil
    · exact Fact.silent_nil
  | seed m index t =>
    show Fact.Silent (c.seeding m index t)
    unfold seeding
    split
    · exact Fact.silent_appear _ t
    · exact Fact.silent_nil
  | settle => exact Fact.silent_nil

/-- Of the facts that others follow from, only methods lead to choosers. -/
theorem silent_consequences {φ : Fact} (hφ : ∀ m, φ ≠ .method m) : Fact.Silent (c.consequences o φ) := by
  cases φ with
  | cls n =>
    simp only [consequences]
    split
    · exact Fact.silent_map _ fun _ => rfl
    · exact Fact.silent_cons.2 ⟨rfl, Fact.silent_nil⟩
  | initialized n =>
    refine Fact.silent_append.2 ⟨?_, Fact.silent_flatMap _ c.silent_initializing⟩
    exact Fact.silent_ite (c.silent_linking _) Fact.silent_nil
  | named m =>
    simp only [consequences]
    split
    · simp [Fact.chooser?]
    · exact Fact.silent_nil
  | method m => exact absurd rfl (hφ m)
  | field f => exact Fact.silent_cons.2 ⟨rfl, Fact.silent_nil⟩
  | aggregate t => exact c.silent_wiring t
  | pool k => exact Fact.silent_pooling k
  | _ => exact Fact.silent_nil

end

end Catalog

/-! ## Dynamic calls in bodies -/

namespace Instr

def declared? : Instr → Option (Local × QualifiedMethod)
  | call _ (some receiver) callee _ binding =>
    binding.receiver?.map fun owner => (receiver, ⟨owner, callee.signature⟩)
  | _ => none

end Instr

namespace Scene

def siteOf (b : Scene) : Instr → SlotSite
  | .call dst? instance? _ args _ => b.site dst? instance? args
  | _ => b.site none none []

end Scene

namespace Catalog

variable {c : Catalog} {o : Settings} {m : QualifiedMethod}

theorem entails_of_declared {i : Instr} {v : Local} {declared : QualifiedMethod}
    (h : i.declared? = some (v, declared)) (b : Scene) :
    c.entails o b i = [.calls b.caller ⟨v, declared.signature⟩ (.of o.precision b.caller v declared),
      .serves (.of o.precision b.caller v declared) (b.siteOf i)] := by
  cases i with
  | call dst? instance? callee args binding =>
    cases instance? with
    | none => cases h
    | some receiver =>
      obtain ⟨owner, ho, he⟩ := Option.map_eq_some_iff.1 h
      cases he
      simp only [entails, call, ho]
      rfl
  | _ => cases h

theorem silent_entails {i : Instr} (h : i.declared? = none) (b : Scene) : Fact.Silent (c.entails o b i) := by
  cases i with
  | call dst? instance? callee args binding =>
    have hplain : Fact.Silent ((if binding = .static then c.initializing callee.owner else [])
        ++ c.calling callee (b.site dst? instance? args)) :=
      Fact.silent_append.2 ⟨Fact.silent_ite (c.silent_initializing _) Fact.silent_nil, c.silent_calling _ _⟩
    simp only [entails, call]
    cases instance? with
    | none => cases binding.receiver? <;> exact hplain
    | some receiver =>
      have hb : binding.receiver? = none := Option.map_eq_none_iff.1 h
      simpa only [hb] using hplain
  | newArray dst item length => exact Fact.silent_flatMap _ fun _ => Fact.silent_appear _ _
  | newMultiArray dst type lengths =>
    refine Fact.silent_flatMap _ fun t => Fact.silent_append.2 ⟨Fact.silent_appear _ t, ?_⟩
    exact Fact.silent_flatMap _ fun inner => Fact.silent_cons.2 ⟨rfl, Fact.silent_appear _ inner⟩
  | loadItem dst array type =>
    exact Fact.silent_ite (Fact.silent_cons.2 ⟨rfl, Fact.silent_between _ _⟩) Fact.silent_nil
  | storeItem array index src type =>
    exact Fact.silent_ite (Fact.silent_cons.2 ⟨rfl, Fact.silent_between _ _⟩) Fact.silent_nil
  | phi dst sources => exact Fact.silent_flatMap _ fun _ => Fact.silent_between _ _
  | _ => simp [entails]

def body? (c : Catalog) (m : QualifiedMethod) : Option Body := (c.method? m).bind MethodDef.body?

def outline (c : Catalog) (o : Settings) (m : QualifiedMethod) : List Fact :=
  match c.method? m with
  | some f => f.body?.toList.flatMap (fun body =>
        ((Slot.params m).zip (Slot.vars m body.locals)).map (fun e => .flow e.1 e.2)
          ++ body.handlers.flatMap (handling ⟨m, body.locals⟩))
      ++ if f.isSynchronized then c.monitoring o none else []
  | none => []

theorem silent_outline (c : Catalog) (o : Settings) (m : QualifiedMethod) : Fact.Silent (c.outline o m) := by
  unfold outline
  split
  · refine Fact.silent_append.2 ⟨Fact.silent_flatMap _ fun body => Fact.silent_append.2 ⟨?_, ?_⟩,
      Fact.silent_ite (c.silent_monitoring o none) Fact.silent_nil⟩
    · exact Fact.silent_map _ fun _ => rfl
    · exact Fact.silent_flatMap _ fun h =>
        Fact.silent_append.2 ⟨Fact.silent_map _ fun _ => rfl, Fact.silent_between _ _⟩
  · exact Fact.silent_nil

theorem mem_bodyFacts {body : Body} {φ : Fact} : φ ∈ c.bodyFacts o m body ↔
    (∃ i ∈ body.instrs, φ ∈ c.entails o ⟨m, body.locals⟩ i) ∨
      φ ∈ ((Slot.params m).zip (Slot.vars m body.locals)).map (fun e => .flow e.1 e.2)
        ++ body.handlers.flatMap (handling ⟨m, body.locals⟩) := by
  simp only [bodyFacts, blockFacts, Body.instrs, Body.handlers, List.mem_append, List.mem_flatMap]
  constructor
  · rintro (h | ⟨block, hb, ⟨i, hi, hφ⟩ | ⟨h, hh, hφ⟩⟩)
    · exact Or.inr (Or.inl h)
    · exact Or.inl ⟨i, ⟨block, hb, hi⟩, hφ⟩
    · exact Or.inr (Or.inr ⟨h, ⟨block, hb, hh⟩, hφ⟩)
  · rintro (⟨i, ⟨block, hb, hi⟩, hφ⟩ | h | ⟨h, ⟨block, hb, hh⟩, hφ⟩)
    · exact Or.inr ⟨block, hb, Or.inl ⟨i, hi, hφ⟩⟩
    · exact Or.inl h
    · exact Or.inr ⟨block, hb, Or.inr ⟨h, hh, hφ⟩⟩

/-- A method entails what its instructions do and what it does without them. -/
theorem mem_methodFacts {φ : Fact} : φ ∈ c.methodFacts o m ↔
    (∃ body, c.body? m = some body ∧ ∃ i ∈ body.instrs, φ ∈ c.entails o ⟨m, body.locals⟩ i) ∨
      φ ∈ c.outline o m := by
  unfold methodFacts outline body?
  cases hm : c.method? m with
  | none => simp
  | some f =>
    cases hb : f.body? with
    | none => simp [hb]
    | some body =>
      simp only [hb, Option.toList_some, List.flatMap_singleton, List.mem_append, mem_bodyFacts,
        Option.bind_some, or_assoc, Option.some.injEq, exists_eq_left']

theorem call_of_serves {κ : Chooser} {σ : SlotSite} (h : .serves κ σ ∈ c.methodFacts o m) :
    ∃ body i v declared, c.body? m = some body ∧ i ∈ body.instrs ∧ i.declared? = some (v, declared) ∧
      κ = .of o.precision m v declared ∧ σ = Scene.siteOf ⟨m, body.locals⟩ i := by
  rcases mem_methodFacts.1 h with ⟨body, hb, i, hi, hφ⟩ | hφ
  · cases hd : i.declared? with
    | none => exact absurd (silent_entails hd _ _ hφ) nofun
    | some d =>
      obtain ⟨v, declared⟩ := d
      rw [entails_of_declared hd] at hφ
      rcases List.mem_cons.1 hφ with hφ | hφ
      · cases hφ
      · cases List.mem_singleton.1 hφ
        exact ⟨body, i, v, declared, hb, hi, hd, rfl, rfl⟩
  · exact absurd (c.silent_outline o m _ hφ) nofun

theorem not_target_mem_methodFacts {κ : Chooser} {n : QualifiedMethod} : .target κ n ∉ c.methodFacts o m := by
  intro h
  rcases mem_methodFacts.1 h with ⟨body, -, i, -, hφ⟩ | hφ
  · cases hd : i.declared? with
    | none => exact absurd (silent_entails hd _ _ hφ) nofun
    | some d =>
      rw [entails_of_declared hd] at hφ
      simp at hφ
  · exact absurd (c.silent_outline o m _ hφ) nofun

end Catalog

end TypeFlow
