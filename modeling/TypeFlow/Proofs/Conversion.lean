import TypeFlow.ExactType

/-!
# Declared and exact types

A declared type nests its dimensions one by one, an exact type counts them. The
element and the count say everything about a declared type, so the conversions
lose nothing: what has an exact type is got back from it, and the exact types
that come back from their declared form are the well formed ones.
-/

namespace TypeFlow

namespace DeclType

theorem base_wrap (t : DeclType) (n : Nat) : (t.wrap n).base = t.base := by
  induction n with
  | zero => rfl
  | succ n ih => exact ih

theorem dims_wrap (t : DeclType) (n : Nat) : (t.wrap n).dims = t.dims + n := by
  induction n with
  | zero => rfl
  | succ n ih =>
    show (t.wrap n).dims + 1 = t.dims + (n + 1)
    omega

theorem dims_base (t : DeclType) : t.base.dims = 0 := by
  induction t with
  | array item ih => exact ih
  | _ => rfl

theorem base_base (t : DeclType) : t.base.base = t.base := by
  induction t with
  | array item ih => exact ih
  | _ => rfl

theorem wrap_base (t : DeclType) : t.base.wrap t.dims = t := by
  induction t with
  | array item ih => exact congrArg array ih
  | _ => rfl

theorem base_ne_array (t item : DeclType) : t.base ≠ array item := by
  induction t with
  | array _ ih => exact ih
  | _ => nofun

theorem base_eq_void_iff (t : DeclType) : t.base = void ↔ ∃ n, t = void.wrap n := by
  constructor
  · intro h
    exact ⟨t.dims, h ▸ t.wrap_base.symm⟩
  · rintro ⟨n, rfl⟩
    exact base_wrap void n

theorem eq_primitive_iff (t : DeclType) (p : Primitive) : t = primitive p ↔ t.base = primitive p ∧ t.dims = 0 := by
  constructor
  · rintro rfl
    exact ⟨rfl, rfl⟩
  · rintro ⟨hbase, hdims⟩
    rw [← t.wrap_base, hbase, hdims]
    rfl

end DeclType

namespace ExactType

variable {t : DeclType} {e : ExactType}

/-- Whether the element is a class, or a primitive with an array over it. -/
def WellFormed (e : ExactType) : Prop :=
  match e.element with
  | .object _ => True
  | .primitive _ => 1 ≤ e.dims
  | _ => False

instance : DecidablePred WellFormed := fun e =>
  match h : e.element with
  | .object _ => isTrue (by unfold WellFormed; rw [h]; trivial)
  | .primitive _ => decidable_of_iff (1 ≤ e.dims) (by unfold WellFormed; rw [h])
  | .void | .array _ => isFalse (by unfold WellFormed; rw [h]; exact id)

@[simp] theorem wellFormed_object (name : ClassName) (n : Nat) : WellFormed ⟨.object name, n⟩ := trivial

@[simp] theorem wellFormed_primitive (p : Primitive) (n : Nat) : WellFormed ⟨.primitive p, n⟩ ↔ 1 ≤ n := Iff.rfl

@[simp] theorem not_wellFormed_void (n : Nat) : ¬ WellFormed ⟨.void, n⟩ := id

@[simp] theorem not_wellFormed_array (item : DeclType) (n : Nat) : ¬ WellFormed ⟨.array item, n⟩ := id

theorem WellFormed.element_ne_array (h : e.WellFormed) (item : DeclType) : e.element ≠ .array item := by
  intro heq
  unfold WellFormed at h
  rw [heq] at h
  exact h

theorem WellFormed.of_element {e' : ExactType} (h : e.WellFormed) (helement : e'.element = e.element)
    (hdims : 1 ≤ e'.dims) : e'.WellFormed := by
  unfold WellFormed at h ⊢
  rw [helement]
  cases helem : e.element with
  | object name => trivial
  | primitive p => exact hdims
  | _ =>
    rw [helem] at h
    exact h

/-- The conversion reads off the innermost type and the dimensions, and refuses what is not well formed. -/
theorem ofDecl?_eq (t : DeclType) :
    ofDecl? t = if WellFormed ⟨t.base, t.dims⟩ then some ⟨t.base, t.dims⟩ else none := by
  unfold ofDecl?
  cases hbase : t.base with
  | void => simp
  | primitive p => simp [Nat.one_le_iff_ne_zero]
  | object name => simp
  | array item => exact absurd hbase (t.base_ne_array item)

theorem ofDecl?_eq_some_iff : ofDecl? t = some e ↔ e = ⟨t.base, t.dims⟩ ∧ e.WellFormed := by
  rw [ofDecl?_eq, Option.ite_none_right_eq_some, Option.some.injEq]
  constructor
  · rintro ⟨h, rfl⟩
    exact ⟨rfl, h⟩
  · rintro ⟨rfl, h⟩
    exact ⟨h, rfl⟩

theorem ofDecl?_eq_some (h : ofDecl? t = some e) : e = ⟨t.base, t.dims⟩ := (ofDecl?_eq_some_iff.1 h).1

theorem wellFormed_of_ofDecl? (h : ofDecl? t = some e) : e.WellFormed := (ofDecl?_eq_some_iff.1 h).2

theorem toDecl_ofDecl? (h : ofDecl? t = some e) : e.toDecl = t := by
  rw [ofDecl?_eq_some h]
  exact t.wrap_base

theorem ofDecl?_eq_none_iff : ofDecl? t = none ↔ (∃ n, t = DeclType.void.wrap n) ∨ ∃ p, t = .primitive p := by
  rw [ofDecl?_eq, ite_eq_right_iff, ← t.base_eq_void_iff]
  simp only [reduceCtorEq, imp_false, t.eq_primitive_iff]
  cases hbase : t.base with
  | void => simp
  | primitive p => simp
  | object name => simp
  | array item => exact absurd hbase (t.base_ne_array item)

/-- The declared form of an exact type has its element for innermost type and its dimensions, unless the element
brings dimensions of its own. -/
theorem ofDecl?_toDecl_iff : ofDecl? e.toDecl = some e ↔ e.WellFormed := by
  rw [ofDecl?_eq_some_iff]
  refine ⟨And.right, fun h => ⟨?_, h⟩⟩
  have hplain : e.element.base = e.element ∧ e.element.dims = 0 := by
    obtain ⟨element, dims⟩ := e
    cases element with
    | array item => exact absurd rfl (h.element_ne_array item)
    | _ => exact ⟨rfl, rfl⟩
  unfold toDecl
  rw [DeclType.base_wrap, DeclType.dims_wrap, hplain.1, hplain.2, Nat.zero_add]

/-- Nothing is lost between declared and exact types: only a type that is void below its dimensions and a bare
primitive have no exact type, every other declared type is got back from its exact type, and an exact type is got
back from its declared type when it is well formed. -/
theorem converts_without_loss (t : DeclType) (e : ExactType) (n : Nat) :
    (ofDecl? t = none ↔ (∃ k, t = DeclType.void.wrap k) ∨ ∃ p, t = .primitive p) ∧
      (∀ r, ofDecl? t = some r → (∀ item, r.element ≠ .array item) ∧ r.toDecl = t) ∧
      (ofDecl? e.toDecl = some e ↔ e.WellFormed) ∧
      (t.wrap n).dims = n + t.dims ∧ (t.wrap n).base = t.base := by
  refine ⟨ofDecl?_eq_none_iff, fun r hr => ?_, ofDecl?_toDecl_iff, ?_, t.base_wrap n⟩
  · exact ⟨(wellFormed_of_ofDecl? hr).element_ne_array, toDecl_ofDecl? hr⟩
  · rw [DeclType.dims_wrap, Nat.add_comm]

end ExactType

end TypeFlow
