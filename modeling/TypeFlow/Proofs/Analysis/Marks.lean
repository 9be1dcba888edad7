import TypeFlow.Proofs.Analysis.Initialization

/-!
# Marked classes

The walk that initialises a class and its superclasses stops at the first one
that is marked already. It may do so because marks are closed under
superclasses between any two requests: only a class that is there is marked,
and what a mark stands for, which is a duty while the walk goes on, is done
when it ends, at a cycle or a missing class too.
-/

namespace TypeFlow

namespace Analysis

variable {w : Actor} {s s' : Analysis} {γ γ' : List Duty}

/-! ## Only classes that are there are marked -/

def PresentMarks (s : Analysis) : Prop :=
  ∀ n r, s.classes.find? n = some r → r.initialized = true → r.missing = false

theorem Step.presentMarks (hstep : Step w s γ s' γ') (h : s.PresentMarks) : s'.PresentMarks := by
  cases hstep with
  | linkClass name => exact fun n r hr hi => h n r (marked_of_linkClass hr hi) hi
  | markInitialized name hp =>
    intro n r hr hi
    obtain ⟨r', hr', hthere⟩ := isPresent_iff.1 hp
    rw [Table.find?_adjust] at hr
    split at hr
    · next hn =>
      rw [hn, hr'] at hr
      cases hr
      exact hthere
    · exact h n r hr hi
  | aggregate ht =>
    rw [aggregate_of_none ht]
    exact h
  | pool hk =>
    rw [poolNode_of_none hk]
    exact h
  | _ => exact h

theorem presentMarks_history (w : World) (settings : Settings) (ops : List Op) :
    ((Analysis.new w settings).history ops).PresentMarks :=
  (sound_new w settings).history_invariant (P := PresentMarks)
    (fun _ hm h => hm.invariant (P := fun s _ => s.PresentMarks) Step.presentMarks h) (fun _ h => h)
    (fun _ _ _ _ hr => nomatch hr) (fun _ _ hr => nomatch hr) ops

/-! ## What a mark stands for -/

def Marked (s : Analysis) (n : ClassName) : Prop := ∃ r, s.classes.find? n = some r ∧ r.initialized = true

/-- Whether marks are on classes that are there, closed under superclasses and, where that is asked
for, followed by the initialisers. -/
structure ClosedMarks (s : Analysis) : Prop where
  there : ∀ n r, s.classes.find? n = some r → r.initialized = true →
    r.missing = false ∧ (s.hierarchy.view.find? n).isSome = true
  upward : ∀ n d parent, s.Marked n → s.hierarchy.view.find? n = some d → d.superclass? = some parent →
    (s.hierarchy.view.find? parent).isSome = true → s.Marked parent
  initializer : s.settings.classInitializers = true → ∀ n d, s.Marked n → s.hierarchy.view.find? n = some d →
    (d.method? .classInitializer).isSome = true → ∃ id r, s.methodId? ⟨n, .classInitializer⟩ = some id ∧
      s.methods[id]? = some r ∧ r.reference = ⟨n, .classInitializer⟩ ∧ r.declaring = d

variable {n : ClassName} {d : ClassDef}

theorem Sound.upward (h : s.Sound) (hrec : s.Recorded) {parent : ClassName} (hn : s.Marked n)
    (hd : s.hierarchy.view.find? n = some d) (hparent : d.superclass? = some parent)
    (hthere : (s.hierarchy.view.find? parent).isSome = true) : s.Marked parent := by
  obtain ⟨-, -, hsuper⟩ := h.prepared hn hd
  obtain ⟨e, he⟩ := Option.isSome_iff_exists.1 hthere
  exact hrec.marked_of_initiated he (hsuper parent hparent)

theorem Sound.linked_initializer (h : s.Sound) (hasked : s.settings.classInitializers = true) (hn : s.Marked n)
    (hd : s.hierarchy.view.find? n = some d) (hdeclared : (d.method? .classInitializer).isSome = true) :
    ∃ id r, s.methodId? ⟨n, .classInitializer⟩ = some id ∧ s.methods[id]? = some r ∧
      r.reference = ⟨n, .classInitializer⟩ ∧ r.declaring = d := by
  obtain ⟨hfound, hlinked, -⟩ := h.prepared hn hd
  obtain ⟨r, href, id, hr⟩ := hlinked hasked hdeclared
  have hid : s.declarationId? ⟨n, .classInitializer⟩ = some id := href ▸ h.valid.methods.declarationId? hr
  have hdeclaring := (h.valid.methods.record hr).declaring
  rw [href] at hdeclaring
  refine ⟨id, r, by rw [methodId?, hid, Option.some_or], hr, href, ?_⟩
  exact Option.some.inj (Option.some.inj (hdeclaring.symm.trans hfound))

/-- Between two requests of any session the marked classes are closed under superclasses. -/
theorem closedMarks_history (w : World) (settings : Settings) (ops : List Op) :
    ((Analysis.new w settings).history ops).ClosedMarks := by
  have hsound := ((sound_new w settings).history ops).1
  have hrec := recorded_history w settings ops
  refine ⟨fun n r hr hi => ?_, fun n d parent hn hd hparent hthere => hsound.upward hrec hn hd hparent hthere,
    fun hasked n d hn hd hdeclared => hsound.linked_initializer hasked hn hd hdeclared⟩
  have hthere := presentMarks_history w settings ops n r hr hi
  obtain ⟨d, hd⟩ := hrec.present (isPresent_iff.2 ⟨r, hr, hthere⟩)
  have hview : ((Analysis.new w settings).history ops).hierarchy.view.find? n = some d :=
    Hierarchy.lookup_of_find? hd
  exact ⟨hthere, hview ▸ rfl⟩

end Analysis

end TypeFlow
