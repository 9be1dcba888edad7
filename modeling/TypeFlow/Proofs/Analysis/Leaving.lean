import TypeFlow.Proofs.Analysis.Following

/-!
# What applied instructions leave

An instruction that was applied has begun the initialisation of its class and
has reported its member, if there is no such member. What is connected later
takes nothing of that away.
-/

namespace TypeFlow

namespace Analysis

variable {s : Analysis} {f : Frame}

/-! ## Members -/

theorem reports_linkMethod (hv : s.Valid) (m : QualifiedMethod) : (s.linkMethod m).2.Reports (.method m) := by
  obtain ⟨-, hnames⟩ := moves_linkMethod (w := .client) hv [] m
  cases hid : (s.linkMethod m).1 with
  | none =>
    rw [hid] at hnames
    exact ⟨none, hnames, fun _ => reported_linkMethod hv hid⟩
  | some id =>
    rw [hid] at hnames
    obtain ⟨r, -, hd⟩ := hnames
    exact ⟨some r.reference, hd, nofun⟩

theorem reports_linkField (hv : s.Valid) (f : QualifiedField) : (s.linkField f).2.Reports (.field f) := by
  obtain ⟨hlink, found?, hd, -⟩ := moves_linkField (w := .client) hv [] f
  refine ⟨found?, hd, fun hnone => ?_⟩
  subst hnone
  cases hf : s.fields.find? f with
  | some record =>
    obtain ⟨-, -, hknown⟩ := hv.nodes.field hf
    exact nomatch (hlink.grows.decides hknown).unique hd
  | none =>
    have hr : (s.hierarchy.resolveField f).1 = none :=
      (hv.hierarchy.resolveField f).1.trans ((Catalog.resolveField_congr hlink.learns.answer f).symm.trans hd.view)
    rw [linkField_of_nothing hf hr]
    exact reported_linkClass (s.askedField f) f.owner _

theorem reports_accessField (hv : s.Valid) (instance? : Option Local) (field : QualifiedField) :
    (s.accessField instance? field).2.Reports (.field field) := by
  unfold accessField
  split
  · exact reports_linkField ((moves_initializeClass (w := .client) hv [] field.owner).1.valid hv) field
  · exact reports_linkField hv field

theorem initiated_accessField (hv : s.Valid) (field : QualifiedField) :
    (s.accessField none field).2.Initiated field.owner := by
  obtain ⟨hinit, hinitiated⟩ := moves_initializeClass (w := .client) hv [] field.owner
  obtain ⟨hlink, -⟩ := moves_linkField (w := .client) (hinit.valid hv) [] field
  exact hlink.grows.initiated hinitiated

/-! ## Instructions -/

/-- A call that no receiver decides initialises its class first, if it is a static
one, and then links its method. -/
theorem leaves_call (hv : s.Valid) (hf : s.FrameValid f) (dst? instance? : Option Local) (callee : QualifiedMethod)
    (args : List Local) (binding : Binding) :
    (s.call f dst? instance? callee args binding).Leaves (.call dst? instance? callee args binding) := by
  have hsite := hf.site dst? instance? args
  have hdirect : ((if binding = .static then s.initializeClass callee.owner else s).runMethod callee
      (f.site dst? instance? args)).Leaves (.call dst? instance? callee args binding) := by
    obtain ⟨s₁, hs₁, hinit, hinitiated⟩ :
        ∃ s₁, s₁ = (if binding = .static then s.initializeClass callee.owner else s) ∧
          Moves .client s [] s₁ [] ∧ (binding = .static → s₁.Initiated callee.owner) := by
      refine ⟨_, rfl, ?_⟩
      split
      · obtain ⟨hinit, hinitiated⟩ := moves_initializeClass (w := .client) hv [] callee.owner
        exact ⟨hinit, fun _ => hinitiated⟩
      · next hb => exact ⟨.refl s [], fun h => absurd h hb⟩
    rw [← hs₁]
    have hv₁ := hinit.valid hv
    have hlinked := (moves_linkMethod (w := .client) hv₁ [] callee).1.grows
    have hgrows := grows_runMethod hv₁ callee fun n hn => hinit.grows.plain (hsite n hn)
    refine hgrows.leaves ⟨fun name hn => ?_, fun x hx => ?_⟩
    · cases binding with
      | static => exact Option.some.inj hn ▸ hlinked.initiated (hinitiated rfl)
      | _ => cases hn
    · obtain rfl : .method callee = x := by
        simp only [Instr.member?] at hx
        split at hx
        · cases hx
        · exact Option.some.inj hx
      exact reports_linkMethod hv₁ callee
  unfold call
  cases howner : binding.receiver? with
  | none => exact hdirect
  | some owner =>
    cases instance? with
    | none => exact hdirect
    | some receiver =>
      refine ⟨fun name hn => ?_, fun x hx => ?_⟩
      · cases binding with
        | static => cases howner
        | _ => cases hn
      · simp [Instr.member?, howner] at hx

theorem leaves_transfer (hv : s.Valid) (hf : s.FrameValid f) (i : Instr) : (s.transfer f i).Leaves i := by
  cases i with
  | loadField dst instance? field type =>
    have hgrows := grows_loadField hv hf dst instance? field type
    refine hgrows.leaves
      ⟨fun name hn => ?_, fun x hx => Option.some.inj hx ▸ reports_accessField hv instance? field⟩
    cases instance? with
    | none => exact Option.some.inj hn ▸ initiated_accessField hv field
    | some object => cases hn
  | storeField instance? field src type =>
    have hgrows := grows_storeField hv hf instance? field src type
    refine hgrows.leaves
      ⟨fun name hn => ?_, fun x hx => Option.some.inj hx ▸ reports_accessField hv instance? field⟩
    cases instance? with
    | none => exact Option.some.inj hn ▸ initiated_accessField hv field
    | some object => cases hn
  | call dst? instance? callee args binding => exact leaves_call hv hf dst? instance? callee args binding
  | initClass cls =>
    exact ⟨fun name hn => Option.some.inj hn ▸ (moves_initializeClass (w := .client) hv [] cls).2, nofun⟩
  | _ => exact ⟨nofun, nofun⟩

end Analysis

end TypeFlow
