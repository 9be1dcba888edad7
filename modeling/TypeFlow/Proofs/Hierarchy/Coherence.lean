import TypeFlow.Hierarchy.Cache
import TypeFlow.Proofs.Hierarchy.Search

/-!
# Coherence of what a hierarchy remembers

A remembered answer is the one that a search of the view gives, and every name
on its path is remembered too (`Coherent`). So the classes that are remembered
decide the answer (`Decides`): neither a new world nor what is learned later
can change it, and an eviction drops every answer that it might change.
-/

namespace TypeFlow

namespace Hierarchy

variable {α β : Type}

def Fits (h : Hierarchy) (c : Catalog) : Prop :=
  ∀ n found, h.classes.find? n = some found → c.find? n = found

/-- The remembered classes alone make `f` yield `a`. -/
def Decides (h : Hierarchy) (f : Catalog → α) (a : α) : Prop := ∀ c, h.Fits c → f c = a

structure Coherent (h : Hierarchy) : Prop where
  answer : ∀ {q memo}, h.memos.find? q = some memo → h.view.search q = (memo.answer, memo.path)
  path : ∀ {q memo}, h.memos.find? q = some memo → ∀ n ∈ memo.path, n ∈ h.classes.keys

def Retains (h h' : Hierarchy) : Prop :=
  ∀ n found, h.classes.find? n = some found → h'.classes.find? n = some found

structure Learns (h h' : Hierarchy) : Prop where
  world : h'.world = h.world
  retains : h.Retains h'
  lookup : ∀ n, h'.lookup n = h.lookup n
  coherent : h.Coherent → h'.Coherent

theorem Retains.trans {h h' h'' : Hierarchy} (r : h.Retains h') (r' : h'.Retains h'') : h.Retains h'' :=
  fun n found hn => r' n found (r n found hn)

namespace Learns

variable {h h' h'' : Hierarchy}

theorem refl (h : Hierarchy) : h.Learns h := ⟨rfl, fun _ _ hn => hn, fun _ => rfl, id⟩

theorem trans (l : h.Learns h') (l' : h'.Learns h'') : h.Learns h'' :=
  ⟨l'.world.trans l.world, l.retains.trans l'.retains, fun n => (l'.lookup n).trans (l.lookup n),
    fun c => l'.coherent (l.coherent c)⟩

/-- A hierarchy that learned gives the answers that it gave before. -/
theorem answer (l : h.Learns h') (q : Question) : h'.view.answer q = h.view.answer q :=
  congrArg Prod.fst (Catalog.search_congr fun n _ => l.lookup n)

end Learns

/-! ## Decided answers -/

theorem lookup_of_find? {h : Hierarchy} {n : ClassName} {found : Option ClassDef}
    (hn : h.classes.find? n = some found) : h.lookup n = found := by
  unfold lookup
  rw [hn]

theorem fits_view (h : Hierarchy) : h.Fits h.view := fun _ _ hn => lookup_of_find? hn

theorem find?_of_mem_keys {h : Hierarchy} {n : ClassName} (hn : n ∈ h.classes.keys) :
    h.classes.find? n = some (h.lookup n) := by
  obtain ⟨found, hf⟩ := Option.isSome_iff_exists.1 (Table.find?_isSome_iff.2 hn)
  rw [lookup_of_find? hf, hf]

namespace Decides

variable {h h' : Hierarchy} {f : Catalog → α} {a : α}

theorem view (hd : h.Decides f a) : f h.view = a := hd h.view h.fits_view

theorem retains (hd : h.Decides f a) (hr : h.Retains h') : h'.Decides f a :=
  fun c hc => hd c fun n found hn => hc n found (hr n found hn)

theorem map (hd : h.Decides f a) (g : α → β) : h.Decides (fun c => g (f c)) (g a) :=
  fun c hc => congrArg g (hd c hc)

theorem unique (hd : h.Decides f a) {b : α} (hd' : h.Decides f b) : a = b :=
  (hd h.view h.fits_view).symm.trans (hd' h.view h.fits_view)

end Decides

theorem decides_const (h : Hierarchy) (a : α) : h.Decides (fun _ => a) a := fun _ _ => rfl

theorem decides_find? {h : Hierarchy} {n : ClassName} {found : Option ClassDef}
    (hn : h.classes.find? n = some found) : h.Decides (fun c => c.find? n) found :=
  fun _ hc => hc n found hn

theorem decides_search {h : Hierarchy} {q : Question} (hp : ∀ n ∈ (h.view.search q).2, n ∈ h.classes.keys) :
    h.Decides (fun c => c.search q) (h.view.search q) :=
  fun _ hc => Catalog.search_congr fun n hn => hc n _ (find?_of_mem_keys (hp n hn))

theorem Coherent.decides {h : Hierarchy} (hc : h.Coherent) {q : Question} {memo : Memo}
    (hm : h.memos.find? q = some memo) : h.Decides (fun c => c.answer q) memo.answer := by
  have hpath : ∀ n ∈ (h.view.search q).2, n ∈ h.classes.keys := by
    rw [hc.answer hm]
    exact hc.path hm
  have hd := (decides_search hpath).map Prod.fst
  rw [hc.answer hm] at hd
  exact hd

/-! ## Remembering classes -/

theorem find?_remember (h : Hierarchy) (n m : ClassName) :
    (h.remember n).classes.find? m
      = if m = n ∧ n ∉ h.classes.keys then some (h.world.find? n) else h.classes.find? m := by
  unfold remember
  exact Table.find?_insertNew _ _ _ _

theorem retains_remember (h : Hierarchy) (n : ClassName) : h.Retains (h.remember n) := by
  intro m found hm
  rw [find?_remember, if_neg]
  · exact hm
  · rintro ⟨rfl, hn⟩
    exact hn (Table.mem_keys_of_find? hm)

theorem lookup_remember (h : Hierarchy) (n m : ClassName) : (h.remember n).lookup m = h.lookup m := by
  unfold lookup
  rw [find?_remember]
  by_cases hm : m = n ∧ n ∉ h.classes.keys
  · obtain ⟨rfl, hn⟩ := hm
    rw [Table.find?_eq_none_iff.2 hn, if_pos ⟨rfl, hn⟩]
  · rw [if_neg hm]
    rfl

theorem find?_remember_self (h : Hierarchy) (n : ClassName) :
    (h.remember n).classes.find? n = some (h.lookup n) := by
  rw [find?_remember]
  by_cases hn : n ∈ h.classes.keys
  · rw [if_neg fun hc => hc.2 hn]
    exact find?_of_mem_keys hn
  · rw [if_pos ⟨rfl, hn⟩]
    unfold lookup
    rw [Table.find?_eq_none_iff.2 hn]

theorem mem_keys_of_retains {h h' : Hierarchy} (hr : h.Retains h') {n : ClassName} (hn : n ∈ h.classes.keys) :
    n ∈ h'.classes.keys :=
  Table.mem_keys_of_find? (hr n _ (find?_of_mem_keys hn))

/-- Coherence is kept by hierarchies that look the same, remember as many classes and the same answers. -/
theorem Coherent.of_same {h h' : Hierarchy} (hc : h.Coherent) (hm : h'.memos = h.memos) (hr : h.Retains h')
    (hl : ∀ n, h'.lookup n = h.lookup n) : h'.Coherent := by
  refine ⟨fun {q memo} hq => ?_, fun {q memo} hq n hn => ?_⟩
  · rw [hm] at hq
    rw [← hc.answer hq]
    exact Catalog.search_congr fun n _ => hl n
  · rw [hm] at hq
    exact mem_keys_of_retains hr (hc.path hq n hn)

theorem learns_remember (h : Hierarchy) (n : ClassName) : h.Learns (h.remember n) where
  world := rfl
  retains := h.retains_remember n
  lookup := h.lookup_remember n
  coherent hc := hc.of_same rfl (h.retains_remember n) (h.lookup_remember n)

theorem learns_rememberAll (h : Hierarchy) (names : List ClassName) : h.Learns (h.rememberAll names) := by
  induction names generalizing h with
  | nil => exact .refl h
  | cons n names ih => exact (h.learns_remember n).trans (ih (h.remember n))

theorem memos_rememberAll (h : Hierarchy) (names : List ClassName) : (h.rememberAll names).memos = h.memos := by
  induction names generalizing h with
  | nil => rfl
  | cons n names ih => exact ih (h.remember n)

theorem mem_keys_rememberAll (h : Hierarchy) {names : List ClassName} {n : ClassName} (hn : n ∈ names) :
    n ∈ (h.rememberAll names).classes.keys := by
  induction names generalizing h with
  | nil => cases hn
  | cons m names ih =>
    rcases List.mem_cons.1 hn with rfl | hn
    · have hself := Table.mem_keys_of_find? (h.find?_remember_self n)
      exact mem_keys_of_retains ((h.remember n).learns_rememberAll names).retains hself
    · exact ih (h.remember m) hn

/-! ## Questions -/

theorem ask_of_memo {h : Hierarchy} {q : Question} {memo : Memo} (hm : h.memos.find? q = some memo) :
    h.ask q = (memo.answer, h) := by
  unfold ask
  rw [hm]

theorem ask_of_new {h : Hierarchy} {q : Question} (hm : h.memos.find? q = none) :
    h.ask q = ((h.view.search q).1,
      { h.rememberAll (h.view.search q).2 with
        memos := h.memos.insert q ⟨(h.view.search q).1, (h.view.search q).2⟩ }) := by
  unfold ask
  rw [hm]

theorem Coherent.insert {h : Hierarchy} (hc : h.Coherent) {q : Question} (memo : Memo)
    (hs : h.view.search q = (memo.answer, memo.path)) (hp : ∀ n ∈ memo.path, n ∈ h.classes.keys) :
    Coherent { h with memos := h.memos.insert q memo } := by
  have hmemo : ∀ {q' memo'}, (h.memos.insert q memo).find? q' = some memo' →
      h.view.search q' = (memo'.answer, memo'.path) ∧ ∀ n ∈ memo'.path, n ∈ h.classes.keys := by
    intro q' memo' hq
    rw [Table.find?_insert] at hq
    split at hq
    · next heq =>
      cases hq
      exact ⟨heq ▸ hs, hp⟩
    · exact ⟨hc.answer hq, hc.path hq⟩
  exact ⟨fun hq => (hmemo hq).1, fun hq => (hmemo hq).2⟩

theorem learns_ask (h : Hierarchy) (q : Question) : h.Learns (h.ask q).2 := by
  cases hm : h.memos.find? q with
  | some memo =>
    rw [ask_of_memo hm]
    exact .refl h
  | none =>
    rw [ask_of_new hm]
    have hl := h.learns_rememberAll (h.view.search q).2
    refine ⟨hl.world, hl.retains, hl.lookup, fun hc => ?_⟩
    have hsame : (h.rememberAll (h.view.search q).2).view.search q = h.view.search q :=
      Catalog.search_congr fun n _ => hl.lookup n
    have hpath : ∀ n ∈ (h.view.search q).2, n ∈ (h.rememberAll (h.view.search q).2).classes.keys :=
      fun n hn => h.mem_keys_rememberAll hn
    have := (hl.coherent hc).insert ⟨_, _⟩ hsame hpath
    rwa [memos_rememberAll] at this

/-- A question gets the answer of the view, which is decided from then on. -/
theorem Coherent.ask {h : Hierarchy} (hc : h.Coherent) (q : Question) :
    (h.ask q).1 = h.view.answer q ∧ (h.ask q).2.Decides (fun c => c.answer q) (h.ask q).1 := by
  cases hm : h.memos.find? q with
  | some memo =>
    rw [ask_of_memo hm]
    exact ⟨(hc.decides hm).view.symm, hc.decides hm⟩
  | none =>
    have hc' := (h.learns_ask q).coherent hc
    have hmemo : (h.ask q).2.memos.find? q = some ⟨(h.view.search q).1, (h.view.search q).2⟩ := by
      rw [ask_of_new hm, Table.find?_insert, if_pos rfl]
    have hfst : (h.ask q).1 = (h.view.search q).1 := by rw [ask_of_new hm]
    refine ⟨hfst, ?_⟩
    rw [hfst]
    exact hc'.decides hmemo

section
variable {h : Hierarchy} (hc : h.Coherent)
include hc

theorem Coherent.resolveMethod (m : QualifiedMethod) :
    (h.resolveMethod m).1 = h.view.resolveMethod m ∧
      (h.resolveMethod m).2.Decides (fun c => c.resolveMethod m) (h.resolveMethod m).1 := by
  obtain ⟨hans, hdec⟩ := hc.ask (.declaration m.owner m.signature)
  refine ⟨?_, hdec.map fun answer => answer.map fun n => (⟨n, m.signature⟩ : QualifiedMethod)⟩
  unfold Hierarchy.resolveMethod
  simp only [hans]
  rfl

theorem Coherent.resolveImplementation (receiver : ClassName) (sig : Signature) :
    (h.resolveImplementation receiver sig).1 = h.view.resolveImplementation receiver sig ∧
      (h.resolveImplementation receiver sig).2.Decides (fun c => c.resolveImplementation receiver sig)
        (h.resolveImplementation receiver sig).1 := by
  obtain ⟨hans, hdec⟩ := hc.ask (.implementation receiver sig)
  refine ⟨?_, hdec.map fun answer => answer.map fun n => (⟨n, sig⟩ : QualifiedMethod)⟩
  unfold Hierarchy.resolveImplementation
  simp only [hans]
  rfl

theorem Coherent.resolveField (f : QualifiedField) :
    (h.resolveField f).1 = h.view.resolveField f ∧
      (h.resolveField f).2.Decides (fun c => c.resolveField f) (h.resolveField f).1 := by
  obtain ⟨hans, hdec⟩ := hc.ask (.field f.owner f.name)
  refine ⟨?_, hdec.map fun answer => answer.map fun n => (⟨n, f.name⟩ : QualifiedField)⟩
  unfold Hierarchy.resolveField
  simp only [hans]
  rfl

theorem Coherent.isSubclass (sub ancestor : ClassName) :
    (h.isSubclass sub ancestor).1 = h.view.isSubclass sub ancestor ∧
      (h.isSubclass sub ancestor).2.Decides (fun c => c.isSubclass sub ancestor) (h.isSubclass sub ancestor).1 := by
  unfold Hierarchy.isSubclass Catalog.isSubclass
  by_cases hs : sub = ancestor || ancestor = objectClass
  · simp only [hs, if_true, Bool.true_or]
    exact ⟨trivial, decides_const h true⟩
  · simp only [hs, Bool.false_or]
    obtain ⟨hans, hdec⟩ := hc.ask (.subclass sub ancestor)
    exact ⟨congrArg Option.isSome hans, hdec.map Option.isSome⟩

theorem Coherent.isAssignable (t : ExactType) (declared : ClassName) :
    (h.isAssignable t declared).1 = h.view.isAssignable t declared ∧
      (h.isAssignable t declared).2.Decides (fun c => c.isAssignable t declared) (h.isAssignable t declared).1 := by
  unfold Hierarchy.isAssignable Catalog.isAssignable
  by_cases hd : declared = objectClass
  · simp only [hd, if_true]
    exact ⟨trivial, decides_const h true⟩
  · simp only [hd, if_false]
    by_cases ha : t.isArray
    · simp only [ha, if_true]
      exact ⟨trivial, decides_const h _⟩
    · simp only [ha]
      cases t.dispatchClass? with
      | some sub => exact hc.isSubclass sub declared
      | none => exact ⟨rfl, decides_const h false⟩

end

theorem learns_isSubclass (h : Hierarchy) (sub ancestor : ClassName) : h.Learns (h.isSubclass sub ancestor).2 := by
  unfold isSubclass
  split
  · exact .refl h
  · exact h.learns_ask _

theorem learns_isAssignable (h : Hierarchy) (t : ExactType) (declared : ClassName) :
    h.Learns (h.isAssignable t declared).2 := by
  unfold isAssignable
  split
  · exact .refl h
  · split
    · exact .refl h
    · split
      · exact h.learns_isSubclass _ _
      · exact .refl h

/-! ## New worlds and evictions -/

theorem coherent_new (w : World) : Coherent { world := w } := ⟨nofun, nofun⟩

theorem retains_setWorld (h : Hierarchy) (w : World) : h.Retains (h.setWorld w) := fun _ _ hn => hn

theorem coherent_setWorld {h : Hierarchy} (hc : h.Coherent) (w : World) : (h.setWorld w).Coherent := by
  refine ⟨fun {q memo} hq => ?_, hc.path⟩
  have hpath : ∀ n ∈ (h.view.search q).2, n ∈ h.classes.keys := by
    rw [hc.answer hq]
    exact hc.path hq
  rw [← hc.answer hq]
  exact decides_search hpath (h.setWorld w).view (h.setWorld w).fits_view

theorem find?_evict (h : Hierarchy) (stale : List ClassName) (n : ClassName) :
    (h.evict stale).classes.find? n = if n ∈ stale then none else h.classes.find? n := by
  unfold evict
  simp only [Table.find?_filter]
  by_cases hn : n ∈ stale
  · simp [hn]
  · simp only [hn, not_false_eq_true, decide_true, if_false]
    cases h.classes.find? n <;> rfl

theorem lookup_evict (h : Hierarchy) (stale : List ClassName) (n : ClassName) :
    (h.evict stale).lookup n = if n ∈ stale then h.world.find? n else h.lookup n := by
  unfold lookup
  rw [find?_evict]
  by_cases hn : n ∈ stale
  · simp only [hn, if_true]
    rfl
  · simp only [hn, if_false]
    rfl

/-- The answers that stay looked at no stale class, so they are still right. -/
theorem coherent_evict {h : Hierarchy} (hc : h.Coherent) (stale : List ClassName) : (h.evict stale).Coherent := by
  have hkept : ∀ {q memo}, (h.evict stale).memos.find? q = some memo →
      h.memos.find? q = some memo ∧ ∀ n ∈ memo.path, n ∉ stale := by
    intro q memo hq
    unfold evict at hq
    simp only [Table.find?_filter, Option.filter_eq_some_iff, List.all_eq_true, decide_eq_true_eq] at hq
    exact hq
  refine ⟨fun {q memo} hq => ?_, fun {q memo} hq n hn => ?_⟩
  · obtain ⟨hold, hfree⟩ := hkept hq
    rw [← hc.answer hold]
    apply Catalog.search_congr
    intro n hn
    rw [hc.answer hold] at hn
    exact (h.lookup_evict stale n).trans (if_neg (hfree n hn))
  · obtain ⟨hold, hfree⟩ := hkept hq
    apply Table.mem_keys_of_find? (v := h.lookup n)
    rw [find?_evict, if_neg (hfree n hn)]
    exact find?_of_mem_keys (hc.path hold n hn)

end Hierarchy

end TypeFlow
