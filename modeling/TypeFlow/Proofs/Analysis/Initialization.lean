import TypeFlow.Proofs.Analysis.ClosedWorld
import TypeFlow.Proofs.Analysis.Fixpoint
import TypeFlow.Proofs.Hierarchy.Lineage

/-!
# Initialised classes

What an instruction initialises is the class that it names and the superclasses
of that class, as far as they are there. A static access finds its member along
interfaces too, so it initialises the class that declares the member only where
that class is on the chain of superclasses.
-/

namespace TypeFlow

def Catalog.staticOwner? (c : Catalog) : Instr → Option ClassName
  | .loadField _ none f _ => (c.resolveField f).map QualifiedField.owner
  | .storeField none f _ _ => (c.resolveField f).map QualifiedField.owner
  | .call _ _ callee _ .static => (c.resolveMethod callee).map QualifiedMethod.owner
  | _ => none

theorem Catalog.find?_staticOwner {c : Catalog} {i : Instr} {owner : ClassName}
    (h : c.staticOwner? i = some owner) : ∃ d, c.find? owner = some d := by
  have hfield : ∀ f : QualifiedField, (c.resolveField f).map QualifiedField.owner = some owner →
      ∃ d, c.find? owner = some d := by
    intro f hf
    obtain ⟨target, htarget, rfl⟩ := Option.map_eq_some_iff.1 hf
    obtain ⟨n, hn, rfl⟩ := Option.map_eq_some_iff.1 htarget
    obtain ⟨d, hd, -⟩ := suits_of_answer hn
    exact ⟨d, hd⟩
  cases i with
  | loadField dst instance? f type =>
    cases instance? with
    | none => exact hfield f h
    | some object => cases h
  | storeField instance? f src type =>
    cases instance? with
    | none => exact hfield f h
    | some object => cases h
  | call dst? instance? callee args binding =>
    cases binding with
    | static =>
      obtain ⟨target, htarget, rfl⟩ := Option.map_eq_some_iff.1 h
      obtain ⟨-, d, -, hd, -⟩ := resolveMethod_some htarget
      exact ⟨d, hd⟩
    | _ => cases h
  | _ => cases h

namespace Analysis

/-- Whether a class is marked, with its initialiser, if it declares one, linked and processed. -/
structure Initialized (s : Analysis) (name : ClassName) : Prop where
  marked : (s.classes.find? name).any ClassRecord.initialized = true
  initializer : ∀ d, s.hierarchy.view.find? name = some d → (d.method? .classInitializer).isSome = true →
    ∃ r, s.Linked ⟨name, .classInitializer⟩ r ∧ r.processed = true

variable {s : Analysis} {n m : ClassName}

/-! ## Up the superclasses -/

theorem Recorded.marked_of_initiated (hrec : s.Recorded) {d : ClassDef} (hd : s.hierarchy.view.find? n = some d)
    (h : s.Initiated n) : ∃ r, s.classes.find? n = some r ∧ r.initialized = true := by
  obtain ⟨r, hr, hm | hi⟩ := h
  · obtain ⟨found, hf, hfound⟩ := hrec.cached hr
    rw [← Hierarchy.lookup_of_find? hf, show s.hierarchy.lookup n = some d from hd, hm] at hfound
    cases hfound
  · exact ⟨r, hr, hi⟩

/-- Between two requests each mark has been followed by what it stands for. -/
theorem Sound.prepared (h : s.Sound) (hi : ∃ r, s.classes.find? n = some r ∧ r.initialized = true) {d : ClassDef}
    (hd : s.hierarchy.view.find? n = some d) : s.hierarchy.classes.find? n = some (some d) ∧
      (s.settings.classInitializers = true → (d.method? .classInitializer).isSome = true →
        ∃ r, s.Linked ⟨n, .classInitializer⟩ r) ∧
      ∀ parent, d.superclass? = some parent → s.Initiated parent := by
  have hprepared : s.Prepared n := by
    rcases h.covered (.prepare n) hi with hq | hγ | hdone
    · exact hq.elim
    · exact absurd hγ List.not_mem_nil
    · exact hdone
  obtain ⟨found, hfound, hdone⟩ := hprepared
  obtain rfl : found = some d := (Hierarchy.lookup_of_find? hfound).symm.trans hd
  exact ⟨hfound, hdone d rfl⟩

theorem Sound.initiated_of_reaches (h : s.Sound) (hrec : s.Recorded)
    (hreach : s.hierarchy.view.Reaches ClassDef.ancestry n m) (hn : s.Initiated n) : s.Initiated m := by
  induction hreach with
  | refl => exact hn
  | tail _ hstep ih =>
    obtain ⟨d, hd, hparent⟩ := Catalog.mem_successors.1 hstep
    obtain ⟨-, -, hsuper⟩ := h.prepared (hrec.marked_of_initiated hd ih) hd
    exact hsuper _ (Option.mem_toList.1 hparent)

theorem Sound.initialized_of_initiated (h : s.Sound) (hrec : s.Recorded) (hs : s.isSettled)
    (hasked : s.settings.classInitializers = true) {d : ClassDef} (hd : s.hierarchy.view.find? n = some d)
    (hn : s.Initiated n) : s.Initialized n := by
  obtain ⟨r, hr, hi⟩ := hrec.marked_of_initiated hd hn
  refine ⟨by rw [hr]; exact hi, fun d' hd' hdeclared => ?_⟩
  obtain ⟨r', hr'⟩ := (h.prepared ⟨r, hr, hi⟩ hd').2.1 hasked hdeclared
  exact ⟨r', hr', h.processed hs hr'⟩

/-! ## One initialisation -/

/-- Linking a method marks no class. -/
theorem marked_of_linkMethod {target : QualifiedMethod} {r : ClassRecord}
    (hr : (s.linkMethod target).2.classes.find? n = some r) (hi : r.initialized = true) :
    s.classes.find? n = some r := by
  have hclass : ∀ (h : Hierarchy) (owner : ClassName),
      (Analysis.linkClass { s with hierarchy := h } owner).2.classes.find? n = some r →
        s.classes.find? n = some r :=
    fun h _ hr => marked_of_linkClass (s := { s with hierarchy := h }) hr hi
  unfold linkMethod at hr
  split at hr
  · exact hr
  · simp only [] at hr
    split at hr
    · split at hr
      · exact hclass _ target.owner hr
      · exact hclass _ target.owner hr
    · split at hr
      · exact hr
      · split at hr
        · exact hr
        · split at hr
          · exact hclass _ _ hr
          · exact hclass _ _ hr

theorem marked_of_markInitialized {r : ClassRecord} (hr : (s.markInitialized m).classes.find? n = some r)
    (hi : r.initialized = true) : (∃ r₀, s.classes.find? n = some r₀ ∧ r₀.initialized = true) ∨ n = m := by
  have hadjust : ∀ {r : ClassRecord},
      (s.classes.adjust m fun r => { r with initialized := true }).find? n = some r →
      r.initialized = true → (∃ r₀, s.classes.find? n = some r₀ ∧ r₀.initialized = true) ∨ n = m := by
    intro r hr hi
    rw [Table.find?_adjust] at hr
    split at hr
    · next hn => exact Or.inr hn
    · exact Or.inl ⟨r, hr, hi⟩
  unfold markInitialized at hr
  simp only [] at hr
  split at hr
  · exact hadjust (marked_of_linkMethod hr hi) hi
  · exact hadjust hr hi

/-- What is marked along a chain is on the chain, and is there. -/
theorem marked_of_initializeAlong (hv : s.Valid) (hrec : s.Recorded) {names : List ClassName} {r : ClassRecord}
    (hr : (s.initializeAlong names).classes.find? n = some r) (hi : r.initialized = true) :
    (∃ r₀, s.classes.find? n = some r₀ ∧ r₀.initialized = true) ∨
      n ∈ names ∧ (s.hierarchy.view.find? n).isSome = true := by
  induction names generalizing s with
  | nil => exact Or.inl ⟨r, hr, hi⟩
  | cons first rest ih =>
    have hlink := moves_linkClass (w := .client) s [] first
    unfold initializeAlong at hr
    simp only [linkClass_fst] at hr
    split at hr
    · exact Or.inl ⟨r, marked_of_linkClass hr hi, hi⟩
    · next hgo =>
      simp only [Bool.or_eq_true, Bool.not_eq_true', not_or, Bool.not_eq_false] at hgo
      have hmark := (moves_markInitialized (w := .client) (hlink.valid hv) [] hgo.1).1
      have hboth := hlink.trans hmark
      rcases ih (hboth.valid hv) (hboth.recorded hrec) hr with ⟨r₁, hr₁, hi₁⟩ | ⟨hmem, hthere⟩
      · rcases marked_of_markInitialized hr₁ hi₁ with ⟨r₀, hr₀, hi₀⟩ | rfl
        · exact Or.inl ⟨r₀, marked_of_linkClass hr₀ hi₀, hi₀⟩
        · obtain ⟨d, hd⟩ := (hlink.recorded hrec).present hgo.1
          have hview : s.hierarchy.view.find? n = some d :=
            (hlink.learns.lookup n).symm.trans (Hierarchy.lookup_of_find? hd)
          exact Or.inr ⟨List.mem_cons_self, hview ▸ rfl⟩
      · have hview : s.hierarchy.view.find? n = _ := (hboth.learns.lookup n).symm
        exact Or.inr ⟨List.mem_cons_of_mem _ hmem, hview ▸ hthere⟩

/-- Initialising a class marks it and the superclasses that are there, and nothing else. -/
theorem Sound.marked_initializeClass_iff (h : s.Sound) (hrec : s.Recorded) :
    (∃ r, (s.initializeClass n).classes.find? m = some r ∧ r.initialized = true) ↔
      (∃ r, s.classes.find? m = some r ∧ r.initialized = true) ∨
        s.hierarchy.view.Reaches ClassDef.ancestry n m ∧ (s.hierarchy.view.find? m).isSome = true := by
  obtain ⟨hinit, hinitiated⟩ := moves_initializeClass (w := .client) h.valid [] n
  constructor
  · rintro ⟨r, hr, hi⟩
    exact (marked_of_initializeAlong h.valid hrec hr hi).imp_right fun hm =>
      ⟨Catalog.mem_superclasses_iff.1 hm.1, hm.2⟩
  · rintro (⟨r, hr, hi⟩ | ⟨hreach, hthere⟩)
    · obtain ⟨r', hr', hg⟩ := hinit.grows.recorded hr
      exact ⟨r', hr', hg.initialized hi⟩
    · have hafter := (h.moves hinit (h.calm.quiet (quiet_initializeClass s n))).1
      obtain ⟨d, hd⟩ := Option.isSome_iff_exists.1 hthere
      have hsame : ∀ k, (s.initializeClass n).hierarchy.view.find? k = s.hierarchy.view.find? k :=
        hinit.learns.lookup
      have hrec' := hinit.recorded hrec
      exact hrec'.marked_of_initiated ((hsame m).trans hd)
        (hafter.initiated_of_reaches hrec' (hreach.congr hsame) hinitiated)

/-! ## Settled sessions -/

/-- In a session in which nothing waits, what an instruction of a linked body initialises is initialised together
with all superclasses that are there. -/
theorem initialized_of_reaches (w : World) (settings : Settings) (ops : List Op)
    (hasked : settings.classInitializers = true) (hs : ((new w settings).history ops).isSettled) {id : MethodId}
    {r : MethodRecord} {body : Body} (hr : ((new w settings).history ops).methods[id]? = some r)
    (hb : r.definition.body? = some body) {i : Instr} (hi : i ∈ body.instrs) (hn : i.initializes? = some n)
    (hreach : ((new w settings).history ops).hierarchy.view.Reaches ClassDef.ancestry n m) {d : ClassDef}
    (hd : ((new w settings).history ops).hierarchy.view.find? m = some d) :
    ((new w settings).history ops).Initialized m := by
  obtain ⟨hsound, hsettings⟩ := (sound_new w settings).history ops
  have hrec := recorded_history w settings ops
  have hleaves := (hsound.applied hs hr hb).2.2.2 i hi
  refine hsound.initialized_of_initiated hrec hs (hsettings ▸ hasked) hd ?_
  exact hsound.initiated_of_reaches hrec hreach (hleaves.initiated n hn)

/-- A static access initialises the class that declares the member, where that class is the one that is
named or one of its superclasses. -/
theorem initialized_staticOwner (w : World) (settings : Settings) (ops : List Op)
    (hasked : settings.classInitializers = true) (hs : ((new w settings).history ops).isSettled) {id : MethodId}
    {r : MethodRecord} {body : Body} (hr : ((new w settings).history ops).methods[id]? = some r)
    (hb : r.definition.body? = some body) {i : Instr} (hi : i ∈ body.instrs) {owner : ClassName}
    (howner : ((new w settings).history ops).hierarchy.view.staticOwner? i = some owner)
    (hn : i.initializes? = some n)
    (hreach : ((new w settings).history ops).hierarchy.view.Reaches ClassDef.ancestry n owner) :
    ((new w settings).history ops).Initialized owner := by
  obtain ⟨d, hd⟩ := Catalog.find?_staticOwner howner
  exact initialized_of_reaches w settings ops hasked hs hr hb hi hn hreach hd

/-! A constant of a superclass and one of an interface. -/

def sampleAccess : Body :=
  ⟨2, [⟨[.loadField 0 none ⟨"C", "inherited"⟩ (.object "A"),
    .loadField 1 none ⟨"C", "constant"⟩ (.object "A")], []⟩]⟩

def sampleConstants : World where
  classes := [
    ⟨"A", none, [], [], [], [⟨sampleMain.signature, [.static], some sampleAccess⟩]⟩,
    ⟨"B", some "A", [], [], [⟨"inherited", .object "A", [.static]⟩],
      [⟨.classInitializer, [.static], some ⟨0, []⟩⟩]⟩,
    ⟨"I", some "A", [], [.interface], [⟨"constant", .object "A", [.static]⟩],
      [⟨.classInitializer, [.static], some ⟨0, []⟩⟩]⟩,
    ⟨"C", some "B", ["I"], [], [], []⟩]
  nodup := by decide

def sampleConstantsOps : List Op := [.command (.entry sampleMain), .command .settle]

set_option maxRecDepth 100000 in
theorem settled_sampleConstants : ((new sampleConstants {}).history sampleConstantsOps).isSettled = true := by
  decide +kernel

set_option maxRecDepth 100000 in
theorem record_sampleConstants : ∃ r, ((new sampleConstants {}).history sampleConstantsOps).methods[0]? = some r ∧
    r.definition.body? = some sampleAccess := by
  have h : (((new sampleConstants {}).history sampleConstantsOps).methods[0]?.bind fun r => r.definition.body?)
      = some sampleAccess := by
    decide +kernel
  exact Option.bind_eq_some_iff.1 h

set_option maxRecDepth 100000 in
/-- The constant of the superclass is read from an initialised class. -/
theorem initialized_sampleConstants : ((new sampleConstants {}).history sampleConstantsOps).Initialized "B" := by
  obtain ⟨r, hr, hb⟩ := record_sampleConstants
  have howner : ((new sampleConstants {}).history sampleConstantsOps).hierarchy.view.staticOwner?
      (.loadField 0 none ⟨"C", "inherited"⟩ (.object "A")) = some "B" := by decide +kernel
  have hreach : ((new sampleConstants {}).history sampleConstantsOps).hierarchy.view.Reaches
      ClassDef.ancestry "C" "B" :=
    Catalog.mem_superclasses_iff.1 (by decide +kernel)
  exact initialized_staticOwner sampleConstants {} sampleConstantsOps rfl settled_sampleConstants hr hb (by decide)
    howner rfl hreach

set_option maxRecDepth 100000 in
/-- The constant of the interface is read from a class that is not initialised. -/
theorem not_forall_initialized_staticOwner :
    ¬ ∀ (w : World) (settings : Settings) (ops : List Op) (id : MethodId) (r : MethodRecord)
      (body : Body) (i : Instr)
      (owner : ClassName), settings.classInitializers = true → ((new w settings).history ops).isSettled →
      ((new w settings).history ops).methods[id]? = some r → r.definition.body? = some body → i ∈ body.instrs →
      ((new w settings).history ops).hierarchy.view.staticOwner? i = some owner →
      ((new w settings).history ops).Initialized owner := by
  intro h
  obtain ⟨r, hr, hb⟩ := record_sampleConstants
  have howner : ((new sampleConstants {}).history sampleConstantsOps).hierarchy.view.staticOwner?
      (.loadField 1 none ⟨"C", "constant"⟩ (.object "A")) = some "I" := by decide +kernel
  have hmarked := (h sampleConstants {} sampleConstantsOps 0 r sampleAccess _ "I" rfl settled_sampleConstants hr hb
    (by decide) howner).marked
  have hnot : (((new sampleConstants {}).history sampleConstantsOps).classes.find? "I").any ClassRecord.initialized
      = false := by decide +kernel
  cases hmarked.symm.trans hnot

end Analysis

end TypeFlow
