import TypeFlow.Proofs.Analysis.Naming

/-!
# What an instruction leaves behind

Besides flow an instruction leaves an initialised class, if it names one without
an instance, and a report of the member that it names, if there is none. A
class is initialised from its own side up its superclasses, so while one of them
is at work the marks below it are ahead of what they stand for; `Prepared` says
what each mark has to be followed by.
-/

namespace TypeFlow

def Instr.initializes? : Instr → Option ClassName
  | loadField _ none field _ => some field.owner
  | storeField none field _ _ => some field.owner
  | call _ _ callee _ .static => some callee.owner
  | initClass cls => some cls
  | _ => none

/-- The member that an instruction links when it is applied. What a dynamic call runs is left to its receivers. -/
def Instr.member? : Instr → Option Naming
  | loadField _ _ field _ => some (.field field)
  | storeField _ field _ _ => some (.field field)
  | call _ instance? callee _ binding =>
    match binding.receiver?, instance? with
    | some _, some _ => none
    | _, _ => some (.method callee)
  | _ => none

namespace Analysis

def Initiated (s : Analysis) (name : ClassName) : Prop :=
  ∃ r, s.classes.find? name = some r ∧ (r.missing = true ∨ r.initialized = true)

/-- What follows when a class was marked: its initialiser is linked, and the
initialisation of its superclass is begun. -/
def Prepared (s : Analysis) (name : ClassName) : Prop :=
  ∃ found, s.hierarchy.classes.find? name = some found ∧ ∀ d, found = some d →
    (s.settings.classInitializers = true → (d.method? .classInitializer).isSome = true →
      ∃ r, s.Linked ⟨name, .classInitializer⟩ r) ∧
    ∀ parent, d.superclass? = some parent → s.Initiated parent

def Reported (s : Analysis) (owner : ClassName) (p : Problem) : Prop :=
  ∃ r, s.classes.find? owner = some r ∧ (r.missing = true ∨ p ∈ s.problems)

/-- Whether a member was asked for, and was reported if it is nowhere. -/
def Reports (s : Analysis) : Naming → Prop
  | .field f => ∃ found?, s.hierarchy.Decides (fun c => c.resolveField f) found? ∧
      (found? = none → s.Reported f.owner (.missingField f))
  | .method m => ∃ found?, s.hierarchy.Decides (fun c => c.resolveMethod m) found? ∧
      (found? = none → s.Reported m.owner (.missingMethod m))
  | _ => True

/-- What an instruction leaves behind besides flow. -/
structure Leaves (s : Analysis) (i : Instr) : Prop where
  initiated : ∀ name, i.initializes? = some name → s.Initiated name
  reports : ∀ x, i.member? = some x → s.Reports x

variable {s s' : Analysis}

theorem Grows.initiated (h : s.Grows s') {name : ClassName} (hn : s.Initiated name) : s'.Initiated name := by
  obtain ⟨r, hr, hi⟩ := hn
  obtain ⟨r', hr', hg⟩ := h.recorded hr
  exact ⟨r', hr', hi.imp (fun hm => hg.missing.trans hm) hg.initialized⟩

theorem Grows.prepared (h : s.Grows s') {name : ClassName} (hn : s.Prepared name) : s'.Prepared name := by
  obtain ⟨found, hfound, hprepared⟩ := hn
  refine ⟨found, h.hierarchy _ _ hfound, fun d hd => ⟨fun hinit hdeclared => ?_, fun parent hparent => ?_⟩⟩
  · obtain ⟨r, hr⟩ := (hprepared d hd).1 (h.settings ▸ hinit) hdeclared
    obtain ⟨r', hr', -⟩ := h.linked hr
    exact ⟨r', hr'⟩
  · exact h.initiated ((hprepared d hd).2 parent hparent)

theorem Grows.reported (h : s.Grows s') {owner : ClassName} {p : Problem} (hp : s.Reported owner p) :
    s'.Reported owner p := by
  obtain ⟨r, hr, hp⟩ := hp
  obtain ⟨r', hr', hg⟩ := h.recorded hr
  exact ⟨r', hr', hp.imp (fun hm => hg.missing.trans hm) h.problems⟩

theorem Grows.reports (h : s.Grows s') {x : Naming} (hx : s.Reports x) : s'.Reports x := by
  cases x with
  | field f =>
    obtain ⟨found?, hd, hnone⟩ := hx
    exact ⟨found?, h.decides hd, fun hn => h.reported (hnone hn)⟩
  | method m =>
    obtain ⟨found?, hd, hnone⟩ := hx
    exact ⟨found?, h.decides hd, fun hn => h.reported (hnone hn)⟩
  | cls name => trivial
  | receiver owner => trivial

theorem Grows.leaves (h : s.Grows s') {i : Instr} (hi : s.Leaves i) : s'.Leaves i :=
  ⟨fun name hn => h.initiated (hi.initiated name hn), fun x hx => h.reports (hi.reports x hx)⟩

end Analysis

end TypeFlow
