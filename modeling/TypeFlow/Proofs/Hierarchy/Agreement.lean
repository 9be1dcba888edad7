import TypeFlow.Proofs.Hierarchy.Coherence

/-!
# Worlds that agree

What a hierarchy looks up it remembers. So if another world has the names that
are remembered in the end as the first one has them, whatever was asked gets
the same answer over it, and the same is remembered.
-/

namespace TypeFlow

namespace Catalog

variable {c c' : Catalog}

theorem firstHit_never (l : List ClassName) : firstHit (fun _ => false) l = (none, l) := by
  induction l with
  | nil => rfl
  | cons n l ih => simp [firstHit, ih]

/-- The names that it meets are all that a traversal looks at. -/
theorem traverse_congr_met {d : Discipline} {next : ClassDef → List ClassName} {seen work : List ClassName}
    (h : ∀ n ∈ c.traverse d next seen work, c'.find? n = c.find? n) :
    c'.traverse d next seen work = c.traverse d next seen work := by
  refine (firstHit_traverse (p := fun _ => false) c' (fun _ => false) d next seen work fun n hn => ?_).2 ?_
  · rw [firstHit_never] at hn
    exact ⟨h n hn, rfl⟩
  · rw [firstHit_never]

end Catalog

namespace Hierarchy

variable {h h' : Hierarchy} {w : World}

def Agrees (h : Hierarchy) (w : World) : Prop := ∀ n ∈ h.classes.keys, w.find? n = h.world.find? n

theorem Learns.agrees (hl : h.Learns h') (ha : h'.Agrees w) : h.Agrees w := by
  intro n hn
  rw [← hl.world]
  exact ha n (mem_keys_of_retains hl.retains hn)

/-- A name that is remembered later on looks the same over both worlds. -/
theorem Learns.lookup_setWorld (hl : h.Learns h') (ha : h'.Agrees w) {n : ClassName} (hn : n ∈ h'.classes.keys) :
    (h.setWorld w).lookup n = h.lookup n := by
  have hworld : w.find? n = h.world.find? n := (ha n hn).trans (congrArg (World.find? · n) hl.world)
  unfold Hierarchy.lookup setWorld
  cases h.classes.find? n with
  | some found => rfl
  | none => exact hworld

/-- What is remembered later on decides over both worlds. -/
theorem Learns.fits_setWorld (hl : h.Learns h') (ha : h'.Agrees w) : h'.Fits (h.setWorld w).view := by
  intro n found hn
  have hsame : (h.setWorld w).lookup n = h.lookup n := hl.lookup_setWorld ha (Table.mem_keys_of_find? hn)
  rw [← lookup_of_find? hn, hl.lookup]
  exact hsame

/-! ## Looking up -/

theorem mem_keys_remember (h : Hierarchy) (n : ClassName) : n ∈ (h.remember n).classes.keys :=
  Table.mem_keys_of_find? (h.find?_remember_self n)

theorem remember_setWorld {n : ClassName} (ha : (h.remember n).Agrees w) :
    (h.setWorld w).remember n = (h.remember n).setWorld w := by
  have hworld : w.find? n = h.world.find? n := ha n (h.mem_keys_remember n)
  unfold remember setWorld
  simp only [hworld]

theorem get_setWorld {n : ClassName} (ha : (h.get n).2.Agrees w) :
    (h.setWorld w).get n = ((h.get n).1, (h.get n).2.setWorld w) :=
  Prod.ext ((h.learns_remember n).lookup_setWorld ha (h.mem_keys_remember n)) (remember_setWorld ha)

theorem rememberAll_setWorld {names : List ClassName} (ha : (h.rememberAll names).Agrees w) :
    (h.setWorld w).rememberAll names = (h.rememberAll names).setWorld w := by
  induction names generalizing h with
  | nil => rfl
  | cons n names ih =>
    have hn := remember_setWorld (((h.remember n).learns_rememberAll names).agrees ha)
    have hrest := ih (h := h.remember n) ha
    calc (h.setWorld w).rememberAll (n :: names)
        = ((h.setWorld w).remember n).rememberAll names := rfl
      _ = ((h.remember n).setWorld w).rememberAll names := by rw [hn]
      _ = (h.rememberAll (n :: names)).setWorld w := hrest

/-! ## Questions -/

theorem ask_setWorld {q : Question} (ha : (h.ask q).2.Agrees w) :
    (h.setWorld w).ask q = ((h.ask q).1, (h.ask q).2.setWorld w) := by
  cases hm : h.memos.find? q with
  | some memo =>
    rw [ask_of_memo hm, ask_of_memo (h := h.setWorld w) hm]
  | none =>
    have hl := h.learns_ask q
    rw [ask_of_new hm] at ha hl
    have hsearch : (h.setWorld w).view.search q = h.view.search q :=
      Catalog.search_congr fun n hn => hl.lookup_setWorld ha (h.mem_keys_rememberAll hn)
    rw [ask_of_new hm, ask_of_new (h := h.setWorld w) hm, hsearch, rememberAll_setWorld ha]
    rfl

theorem resolveMethod_setWorld {m : QualifiedMethod} (ha : (h.resolveMethod m).2.Agrees w) :
    (h.setWorld w).resolveMethod m = ((h.resolveMethod m).1, (h.resolveMethod m).2.setWorld w) := by
  have hask := ask_setWorld (q := .declaration m.owner m.signature) ha
  unfold resolveMethod
  rw [hask]

theorem resolveImplementation_setWorld {receiver : ClassName} {sig : Signature}
    (ha : (h.resolveImplementation receiver sig).2.Agrees w) :
    (h.setWorld w).resolveImplementation receiver sig
      = ((h.resolveImplementation receiver sig).1, (h.resolveImplementation receiver sig).2.setWorld w) := by
  have hask := ask_setWorld (q := .implementation receiver sig) ha
  unfold resolveImplementation
  rw [hask]

theorem resolveField_setWorld {f : QualifiedField} (ha : (h.resolveField f).2.Agrees w) :
    (h.setWorld w).resolveField f = ((h.resolveField f).1, (h.resolveField f).2.setWorld w) := by
  have hask := ask_setWorld (q := .field f.owner f.name) ha
  unfold resolveField
  rw [hask]

theorem isSubclass_setWorld {sub ancestor : ClassName} (ha : (h.isSubclass sub ancestor).2.Agrees w) :
    (h.setWorld w).isSubclass sub ancestor
      = ((h.isSubclass sub ancestor).1, (h.isSubclass sub ancestor).2.setWorld w) := by
  unfold isSubclass at ha ⊢
  split
  · rfl
  · next hs =>
    rw [if_neg hs] at ha
    have hask := ask_setWorld (q := .subclass sub ancestor) ha
    rw [hask]

theorem isAssignable_setWorld {t : ExactType} {declared : ClassName} (ha : (h.isAssignable t declared).2.Agrees w) :
    (h.setWorld w).isAssignable t declared
      = ((h.isAssignable t declared).1, (h.isAssignable t declared).2.setWorld w) := by
  unfold isAssignable at ha ⊢
  split
  · rfl
  · next hd =>
    rw [if_neg hd] at ha
    split
    · rfl
    · next hnot =>
      rw [if_neg hnot] at ha
      cases hc : t.dispatchClass? with
      | none => rfl
      | some sub =>
        rw [hc] at ha
        exact isSubclass_setWorld ha

end Hierarchy

end TypeFlow
