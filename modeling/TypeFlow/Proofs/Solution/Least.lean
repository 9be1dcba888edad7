import TypeFlow.Proofs.Analysis.Aggregation
import TypeFlow.Proofs.Solution.Run

/-!
# Least solutions

Nothing follows from what a settled analysis has that it does not have, and it
has nothing that is not in every closed set of facts in which it is grounded.
-/

namespace TypeFlow

namespace Analysis

variable {w : World} {o : Settings} {K : Fact → Prop} {Γ : List Fact} {s : Analysis}

theorem isSettled_iff : s.isSettled ↔
    s.reseed = false ∧ s.worklist = [] ∧ s.deferred = [] ∧ s.graph.pending = [] := by
  simp only [isSettled, Bool.and_eq_true, Bool.not_eq_true', List.isEmpty_iff, and_assoc]

theorem not_waits (hs : s.isSettled) (φ : Fact) : ¬ s.Waits [] φ := by
  obtain ⟨-, hworklist, hdeferred, -⟩ := isSettled_iff.1 hs
  intro hφ
  cases φ with
  | method m =>
    rcases hφ with ⟨id, hid, -⟩ | hm
    · exact absurd (hworklist ▸ hid) List.not_mem_nil
    · exact absurd hm List.not_mem_nil
  | aggregate t =>
    rcases hφ with ⟨n, hn⟩ | ht
    · exact absurd (hdeferred ▸ hn) List.not_mem_nil
    · exact absurd ht List.not_mem_nil
  | initialized n => exact absurd hφ List.not_mem_nil
  | pool k => exact absurd hφ List.not_mem_nil
  | _ => exact hφ

/-! ## Closed under the rules -/

/-- An analysis has the aggregate of each type at the root, and the type there. -/
theorem Sound.aggregated (h : s.Sound) {t : ExactType} (ht : s.Has (.holds .root t)) :
    ∃ n, s.aggregate? t.toDecl = some n ∧ t ∈ s.graph.typesAt n := by
  obtain ⟨n, hn, ht⟩ := ht
  exact h.mem_typesAt_own_aggregate (hn ▸ ht)

theorem Sound.carried (h : s.Sound) {x y : Slot} {t : ExactType} (ht : s.Has (.holds x t))
    (hf : s.Has (.flow x y)) : s.Has (.holds y t) := by
  obtain ⟨n, hn, ht⟩ := ht
  obtain ⟨a, b, ha, hb, hf⟩ := hf
  obtain rfl := h.valid.methods.standsFor_unique hn ha
  exact ⟨b, hb, h.valid.graph.typesAt_of_flows hf ht⟩

theorem Sound.attached (h : s.Sound) (hs : s.isSettled) {κ : Chooser} {σ : SlotSite} (hκ : s.Has (.serves κ σ))
    (hshared : κ.site? = none) : ∀ φ ∈ Fact.gathering (.object κ.declared.owner), s.Has φ := by
  obtain ⟨id, sel, ⟨key, hk, hchosen⟩, -⟩ := hκ
  cases key with
  | shared declared =>
    obtain rfl : κ = ⟨declared, none⟩ := hchosen
    have howes : s.Owes (.task (.attach id declared.owner)) := ⟨declared, hk, rfl⟩
    obtain ⟨sel', n, -, hn, -⟩ := h.covered.done hs howes
    exact has_gathering hn
  | perSite caller receiver declared =>
    obtain ⟨r, -, rfl⟩ := hchosen
    cases hshared

theorem Sound.chosen (h : s.Sound) (hs : s.isSettled) (hshows : s.hierarchy.Shows w) {κ : Chooser} {σ : SlotSite}
    {t : ExactType} {m : QualifiedMethod} (hκ : s.Has (.serves κ σ)) (ht : s.Has (.holds κ.feed t))
    (hm : w.catalog.pick κ.declared κ.filter? t = some m) : s.Has (.target κ m) := by
  obtain ⟨id, sel, ⟨key, hk, hchosen⟩, hsel, -⟩ := hκ
  obtain ⟨n, hn, ht⟩ := ht
  refine ⟨id, sel, ⟨key, hk, hchosen⟩, hsel, (h.mem_targets_iff hs hk hsel).2
    ⟨n, (hchosen.standsFor_feed h.valid.methods).1 hn, t, ht, ?_⟩⟩
  rw [← hchosen.declared, ← hchosen.filter?, hshows.pick]
  exact hm

theorem Sound.linked (h : s.Sound) (hs : s.isSettled) {κ : Chooser} {m : QualifiedMethod}
    (hm : s.Has (.target κ m)) : s.Has (.named m) := by
  obtain ⟨id, sel, -, hsel, hm⟩ := hm
  exact Or.inl (h.covered.done hs (d := .link m) ⟨id, sel, hsel, hm⟩)

theorem Grounded.joined (h : Grounded w o K Γ s) (hsound : s.Sound) (hs : s.isSettled) {κ : Chooser} {σ : SlotSite}
    {m : QualifiedMethod} (hm : s.Has (.target κ m)) (hκ : s.Has (.serves κ σ)) :
    ∀ φ ∈ w.catalog.joining m σ, s.Has φ := by
  obtain ⟨id, sel, hanswers, hsel, hm⟩ := hm
  obtain ⟨id', sel', hanswers', hsel', site, hsite, hσ⟩ := hκ
  obtain rfl := h.valid.answers_unique hanswers hanswers'
  obtain rfl := Option.some.inj (hsel.symm.trans hsel')
  obtain ⟨r, ⟨rfl, callee, hr⟩, hflows⟩ := hsound.covered.done hs (d := .join site m) ⟨id, sel, hsel, hsite, hm⟩
  have hnodes := h.valid.site_plain hanswers hsel hsite
  obtain ⟨L, hL⟩ := h.labelled
  intro φ hφ
  rw [h.joining hr, ← hL.callEdges h.valid hr hσ, List.map_map] at hφ
  obtain ⟨e, he, rfl⟩ := List.mem_map.1 hφ
  have hends := callEdges_plain (h.valid.methods.record hr) hnodes e he
  exact ⟨e.1, e.2, hL.slot hends.1.1, hL.slot hends.2.1, hflows e he⟩

/-- Nothing new follows from what a settled analysis has. -/
theorem Grounded.closed (h : Grounded w o K [] s) (hsound : s.Sound) (hs : s.isSettled) :
    w.catalog.Closed o s.Has where
  follows {φ ψ} hφ hψ := (h.kept φ hφ).elim (fun hw => absurd hw (not_waits hs φ)) fun hc => hc ψ hψ
  carry ht hf := hsound.carried ht hf
  aggregate ht hφ := by
    obtain ⟨n, hn, -⟩ := hsound.aggregated ht
    exact has_gathering hn _ hφ
  gather ht := by
    obtain ⟨n, hn, ht⟩ := hsound.aggregated ht
    exact ⟨n, standsFor_ofAggregate.2 hn, ht⟩
  attach hκ hshared hφ := hsound.attached hs hκ hshared _ hφ
  choose hκ ht hm := hsound.chosen hs h.shows hκ ht hm
  link hm := hsound.linked hs hm
  join hm hκ hφ := h.joined hsound hs hm hκ _ hφ

/-! ## Nothing but what follows -/

/-- What a grounded analysis has is in the set, but for edges from a slot to itself, which it has without asking. -/
theorem Grounded.mem (h : Grounded w o K Γ s) {φ : Fact} (hφ : s.Has φ) : K φ ∨ ∃ x, φ = .flow x x := by
  obtain ⟨L, hL⟩ := h.labelled
  cases φ with
  | holds x t =>
    obtain ⟨n, hn, ht⟩ := hφ
    exact Or.inl (hL.only hn ▸ hL.holds ht)
  | flow x y =>
    obtain ⟨a, b, ha, hb, rfl | hf⟩ := hφ
    · exact Or.inr ⟨x, by rw [← hL.only ha, ← hL.only hb]⟩
    · exact Or.inl (hL.only ha ▸ hL.only hb ▸ hL.flows hf)
  | cls n =>
    obtain ⟨r, hr⟩ := mem_keys_of_classes.1 hφ
    exact Or.inl (h.sourced.classes hr).1
  | initialized n =>
    obtain ⟨r, hr, hi⟩ := hφ
    exact Or.inl ((h.sourced.classes hr).2.1 hi)
  | problem p => exact Or.inl (h.sourced.problems hφ)
  | method m =>
    obtain ⟨r, rfl, id, hr⟩ := hφ
    exact Or.inl (h.sourced.methods hr).1
  | named m =>
    rcases hφ with ⟨r, rfl, id, hr⟩ | hm
    · exact Or.inl (h.sourced.methods hr).2.1
    · exact Or.inl (h.sourced.aliases hm)
  | field f =>
    obtain ⟨n, hn⟩ := hφ
    exact Or.inl (h.sourced.fields hn)
  | aggregate t => exact Or.inl (h.sourced.aggregates hφ)
  | pool k => exact Or.inl (h.sourced.pools hφ)
  | calls m key κ =>
    obtain ⟨r, ⟨rfl, id, hr⟩, k, hk, hκ⟩ := hφ
    exact Or.inl (h.sourced.calls hr hk hκ)
  | serves κ σ =>
    obtain ⟨id, sel, hκ, hsel, site, hsite, hσ⟩ := hφ
    exact Or.inl (hL.slots hσ ▸ hL.serves hκ hsel hsite)
  | target κ m =>
    obtain ⟨id, sel, hκ, hsel, hm⟩ := hφ
    exact Or.inl ((h.sourced.selectors hκ hsel).2 m hm)

end Analysis

end TypeFlow
