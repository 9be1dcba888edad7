import TypeFlow.Proofs.Analysis.Declarations
import TypeFlow.Proofs.Analysis.Monotone
import TypeFlow.Proofs.Hierarchy.Lineage

/-!
# Refused requests

A request that is refused leaves the analysis as it was. Parameter types are
refused before anything is done with them. Whether an entry point leads
anywhere is known only once it has been searched for and its class has been
linked, so the classes above that class stay recorded, and what is missing
among them reported.
-/

namespace TypeFlow

namespace Analysis

/-- Whether the second analysis is the first after a look at the class that `m` names, and at nothing else. -/
structure Glimpses (s : Analysis) (m : QualifiedMethod) (s' : Analysis) : Prop where
  rest : s' = { s with hierarchy := s'.hierarchy, classes := s'.classes, problems := s'.problems }
  learns : s.hierarchy.Learns s'.hierarchy
  classKeys : s.classes.keys <+: s'.classes.keys
  kept : ∀ n r, s.classes.find? n = some r → s'.classes.find? n = some r
  added : ∀ n r, s.classes.find? n = none → s'.classes.find? n = some r →
    s.hierarchy.view.Reaches ClassDef.supertypes m.owner n ∧ r = ⟨(s.hierarchy.view.find? n).isNone, false⟩
  problemList : s.problems.toList <+: s'.problems.toList
  reported : ∀ p ∈ s'.problems, p ∈ s.problems ∨ p = .missingMethod m ∨
    ∃ n, s.classes.find? n = none ∧ s'.classes.find? n = some ⟨true, false⟩ ∧ p = .missingClass n

/-- Which parameter types and entry points an analysis refuses, how, and what is left then. -/
structure Refusals (s : Analysis) : Prop where
  seed : ∀ m index t e, s.seedParam m index t = .error e ↔
    s.methodId? m = none ∧ e = .unknownMethod m ∨
      (s.methodId? m).isSome = true ∧ m.signature.params.length < index ∧ e = .noParameter m index
  afterSeed : ∀ m index t e, s.seedParam m index t = .error e → s.command (.seed m index t) = s
  entry : ∀ m e, (s.addEntry m).1 = .error e ↔ (s.hierarchy.resolveMethod m).1 = none ∧ e = .unresolved m
  afterEntry : ∀ m e, (s.addEntry m).1 = .error e →
    s.Glimpses m (s.command (.entry m)) ∧ (s.command (.entry m)).isSettled = s.isSettled

variable {s s' : Analysis} {m : QualifiedMethod} {name n : ClassName}

/-! ## Linking the class of a reference -/

theorem find?_of_linkClass {r : ClassRecord} (hn : s.classes.find? n = none)
    (h : (s.linkClass name).2.classes.find? n = some r) :
    s.hierarchy.view.Reaches ClassDef.supertypes name n ∧ r = ⟨(s.hierarchy.view.find? n).isNone, false⟩ := by
  by_cases hmem : name ∈ s.classes.keys
  · rw [linkClass_of_mem hmem, hn] at h
    cases h
  · obtain ⟨hier, c, p, hs, hfind, -, -⟩ := linkClass_new hmem
    rw [hs] at h
    replace h := (hfind n).symm.trans h
    split at h
    · next hmet =>
      refine ⟨Catalog.traverse_induction (P := fun k => s.hierarchy.view.Reaches ClassDef.supertypes name k)
        (fun hk hstep => hk.tail hstep) (fun k hk => ?_) hmet, (Option.some.inj h).symm⟩
      rw [List.mem_singleton.1 hk]
      exact .refl
    · cases hn.symm.trans h

theorem mem_problems_of_linkClass {p : Problem} (h : p ∈ (s.linkClass name).2.problems) :
    p ∈ s.problems ∨ ∃ n, s.classes.find? n = none ∧
      (s.linkClass name).2.classes.find? n = some ⟨true, false⟩ ∧ p = .missingClass n := by
  by_cases hmem : name ∈ s.classes.keys
  · rw [linkClass_of_mem hmem] at h
    exact Or.inl h
  · obtain ⟨hier, c, p', hs, hfind, hproblems, -⟩ := linkClass_new hmem
    rw [hs] at h ⊢
    refine ((hproblems p).1 h).imp_right fun ⟨n, hmet, hnone, hp⟩ => ⟨n, ?_, ?_, hp⟩
    · exact Table.find?_eq_none_iff.2 (Catalog.not_mem_of_mem_traverse hmet)
    · rw [hfind, if_pos hmet, hnone]
      rfl

theorem glimpses_linkClass (s : Analysis) (m : QualifiedMethod) : s.Glimpses m (s.linkClass m.owner).2 := by
  obtain ⟨hkeys, hproblems⟩ := s.linkClass_prefix m.owner
  obtain ⟨h, c, p, hs, hlearns⟩ := s.linkClass_frame m.owner
  exact {
    rest := by rw [hs]
    learns := by rwa [hs]
    classKeys := hkeys
    kept := fun _ _ hr => (s.linkClass_keeps m.owner).1 hr
    added := fun _ _ hn hr => find?_of_linkClass hn hr
    problemList := hproblems
    reported := fun _ hp => (mem_problems_of_linkClass hp).imp_right Or.inr }

namespace Glimpses

theorem report (h : s.Glimpses m s') : s.Glimpses m (s'.report (.missingMethod m)) where
  rest := by
    rw [h.rest]
    rfl
  learns := h.learns
  classKeys := h.classKeys
  kept := h.kept
  added := h.added
  problemList := h.problemList.trans (OrderedSet.prefix_insert _ _)
  reported p hp := by
    rcases OrderedSet.mem_insert.1 hp with hp | rfl
    · exact h.reported p hp
    · exact Or.inr (Or.inl rfl)

/-- What was learned before the look makes no difference to it. -/
theorem of_learns {hier : Hierarchy} (hl : s.hierarchy.Learns hier)
    (h : Glimpses { s with hierarchy := hier } m s') : s.Glimpses m s' where
  rest := h.rest
  learns := hl.trans h.learns
  classKeys := h.classKeys
  kept := h.kept
  added n r hn hr := by
    obtain ⟨hreach, rfl⟩ := h.added n r hn hr
    have hsame : ∀ k, hier.view.find? k = s.hierarchy.view.find? k := hl.lookup
    exact ⟨hreach.congr fun k => (hsame k).symm, congrArg (ClassRecord.mk ·.isNone false) (hsame n)⟩
  problemList := h.problemList
  reported := h.reported

theorem isSettled_eq (h : s.Glimpses m s') : s'.isSettled = s.isSettled := by
  rw [h.rest]
  rfl

end Glimpses

/-! ## What is refused -/

theorem seedParam_eq_error_iff (hv : s.Valid) {index : Nat} {t : ExactType} {e : EntryError} :
    s.seedParam m index t = .error e ↔ s.methodId? m = none ∧ e = .unknownMethod m ∨
      (s.methodId? m).isSome = true ∧ m.signature.params.length < index ∧ e = .noParameter m index := by
  cases hid : s.methodId? m with
  | none =>
    have hunknown : s.method? m = none := by rw [method?, hid, Option.bind_none]
    simp [seedParam, hunknown, eq_comm]
  | some id =>
    obtain ⟨r, hr, -⟩ := hv.methods.names_of_methodId? hid
    have hrecord : s.method? m = some r := Option.bind_eq_some_iff.2 ⟨id, hid, hr⟩
    have hlength := hv.methods.length_params hrecord
    simp only [seedParam, hrecord]
    cases hparam : r.params[index]? with
    | none =>
      have hle := List.getElem?_eq_none_iff.1 hparam
      have hlt : m.signature.params.length < index := by omega
      simp [hlt, eq_comm]
    | some node =>
      obtain ⟨hle, -⟩ := List.getElem?_eq_some_iff.1 hparam
      have hnot : ¬ m.signature.params.length < index := by omega
      simp [hnot]

theorem addEntry_eq_error_iff (hv : s.Valid) {e : EntryError} :
    (s.addEntry m).1 = .error e ↔ (s.hierarchy.resolveMethod m).1 = none ∧ e = .unresolved m := by
  have hspec := linkMethod_spec hv m
  cases hid : (s.linkMethod m).1 with
  | none =>
    rw [hid] at hspec
    rw [addEntry_of_unresolved hid, show (s.hierarchy.resolveMethod m).1 = none from hspec]
    simp [eq_comm]
  | some id =>
    rw [hid] at hspec
    obtain ⟨r, -, hresolved⟩ := hspec
    rw [addEntry_of_linked hid, hresolved]
    simp

theorem glimpses_addEntry (hv : s.Valid) (hnone : (s.hierarchy.resolveMethod m).1 = none) :
    s.Glimpses m (s.addEntry m).2 := by
  have hid : (s.linkMethod m).1 = none :=
    linkMethod_of_unresolved hv ((hv.hierarchy.resolveMethod m).1.symm.trans hnone)
  have hm : s.methodId? m = none := by
    cases hm : s.methodId? m with
    | none => rfl
    | some id =>
      rw [linkMethod_of_known hm] at hid
      cases hid
  have hlook : s.Glimpses m ((s.askedMethod m).linkClass m.owner).2 :=
    .of_learns (s.hierarchy.learns_ask _) (glimpses_linkClass (s.askedMethod m) m)
  rw [addEntry_of_unresolved hid, linkMethod_of_nothing hm hnone]
  split
  · exact hlook.report
  · exact hlook

theorem Valid.refusals (hv : s.Valid) : s.Refusals where
  seed _ _ _ _ := seedParam_eq_error_iff hv
  afterSeed m index t e he := by
    unfold Analysis.command
    simp only [he]
  entry _ _ := addEntry_eq_error_iff hv
  afterEntry m e he := by
    have hlook := glimpses_addEntry hv ((addEntry_eq_error_iff hv).1 he).1
    exact ⟨hlook, hlook.isSettled_eq⟩

/-- Whatever was asked of an analysis before and whatever waits in it, a request that it refuses leaves it as it
was, but for the classes above the one that an entry point names. -/
theorem refusals_history (w : World) (settings : Settings) (ops : List Op) :
    ((new w settings).history ops).Refusals := ((sound_new w settings).history ops).1.valid.refusals

end Analysis

end TypeFlow
