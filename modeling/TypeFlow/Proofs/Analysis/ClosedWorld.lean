import TypeFlow.Proofs.Analysis.Session

/-!
# The linked world is closed

What is linked is there, with everything that it rests on: a class with its
supertypes, a member with the class that declares it. What was reported does
not exist. All of this is said of the classes as the analysis sees them now,
and rests on classes that are remembered: neither a new world nor what is
looked up later takes it away, and an eviction begins anew.
-/

namespace TypeFlow

namespace Analysis

structure ClosedWorld (s : Analysis) : Prop where
  missing : ∀ {name r}, s.classes.find? name = some r → (r.missing = true ↔ s.hierarchy.view.find? name = none)
  reported : ∀ name, .missingClass name ∈ s.problems ↔ ∃ r, s.classes.find? name = some r ∧ r.missing = true
  supertypes : ∀ {name r}, s.classes.find? name = some r → r.missing = false →
    ∃ d, s.hierarchy.view.find? name = some d ∧ ∀ super ∈ d.supertypes, super ∈ s.classes.keys
  methods : ∀ {id : Nat} {r}, s.methods[id]? = some r → s.isPresent r.reference.owner = true ∧
    s.hierarchy.view.find? r.reference.owner = some r.declaring ∧
    r.declaring.method? r.reference.signature = some r.definition
  aliases : ∀ {m} {id : Nat}, s.aliases.find? m = some id →
    ∃ r, s.methods[id]? = some r ∧ s.hierarchy.view.resolveMethod m = some r.reference
  fields : ∀ {f record}, s.fields.find? f = some record → s.isPresent record.reference.owner = true ∧
    ∃ d, s.hierarchy.view.find? record.reference.owner = some d ∧ (d.field? record.reference.name).isSome
  missingMethods : ∀ m, .missingMethod m ∈ s.problems → s.isPresent m.owner = true ∧
    (s.hierarchy.view.find? m.owner).isSome ∧ s.hierarchy.view.resolveMethod m = none
  missingFields : ∀ f, .missingField f ∈ s.problems → s.isPresent f.owner = true ∧
    (s.hierarchy.view.find? f.owner).isSome ∧ s.hierarchy.view.resolveField f = none

structure Recorded (s : Analysis) : Prop where
  cached : ∀ {name r}, s.classes.find? name = some r →
    ∃ found, s.hierarchy.classes.find? name = some found ∧ r.missing = found.isNone
  reported : ∀ name, .missingClass name ∈ s.problems ↔ ∃ r, s.classes.find? name = some r ∧ r.missing = true
  supertypes : ∀ {name d}, name ∈ s.classes.keys → s.hierarchy.classes.find? name = some (some d) →
    ∀ super ∈ d.supertypes, super ∈ s.classes.keys
  methods : ∀ {id : Nat} {r}, s.methods[id]? = some r → r.reference.owner ∈ s.classes.keys
  fields : ∀ {f record}, s.fields.find? f = some record → record.reference.owner ∈ s.classes.keys
  warranted : ∀ p ∈ s.problems, (∃ name, p = .missingClass name) ∨ s.Warrants p

variable {w : Actor} {s s' : Analysis} {γ γ' : List Duty}

/-- A class that was reported is not one of those that are there. -/
theorem Recorded.not_isPresent_of_problem (h : s.Recorded) {name : ClassName}
    (hp : .missingClass name ∈ s.problems) : ¬ s.isPresent name = true := by
  intro hpresent
  obtain ⟨r, hr, hm⟩ := isPresent_iff.1 hpresent
  obtain ⟨r', hr', hm'⟩ := (h.reported name).1 hp
  obtain rfl := Option.some.inj (hr.symm.trans hr')
  exact absurd (hm.symm.trans hm') nofun

theorem Recorded.isPresent (h : s.Recorded) {name : ClassName} {d : ClassDef} (hn : name ∈ s.classes.keys)
    (hd : s.hierarchy.classes.find? name = some (some d)) : s.isPresent name = true := by
  obtain ⟨r, hr⟩ := Option.isSome_iff_exists.1 (Table.find?_isSome_iff.2 hn)
  obtain ⟨found, hf, hm⟩ := h.cached hr
  cases hf.symm.trans hd
  exact isPresent_iff.2 ⟨r, hr, hm⟩

theorem Recorded.present (h : s.Recorded) {name : ClassName} (hp : s.isPresent name = true) :
    ∃ d, s.hierarchy.classes.find? name = some (some d) := by
  obtain ⟨r, hr, hm⟩ := isPresent_iff.1 hp
  obtain ⟨found, hf, hfound⟩ := h.cached hr
  cases found with
  | none => exact absurd (hfound.symm.trans hm) (by simp)
  | some d => exact ⟨d, hf⟩

/-- What is remembered decides what the analysis sees. -/
theorem Recorded.closedWorld (h : s.Recorded) (hv : s.Valid) : s.ClosedWorld where
  missing {name r} hr := by
    obtain ⟨found, hf, hm⟩ := h.cached hr
    rw [show s.hierarchy.view.find? name = found from Hierarchy.lookup_of_find? hf, hm, Option.isNone_iff_eq_none]
  reported := h.reported
  supertypes {name r} hr hm := by
    obtain ⟨d, hd⟩ := h.present (isPresent_iff.2 ⟨r, hr, hm⟩)
    exact ⟨d, Hierarchy.lookup_of_find? hd, h.supertypes (Table.mem_keys_of_find? hr) hd⟩
  methods hr := by
    have hrecord := hv.methods.record hr
    exact ⟨h.isPresent (h.methods hr) hrecord.declaring,
      Hierarchy.lookup_of_find? hrecord.declaring, hrecord.definition⟩
  aliases ha := by
    obtain ⟨r, hr, hd⟩ := hv.methods.named ha
    exact ⟨r, hr, hd.view⟩
  fields {f record} hf := by
    obtain ⟨-, hself, -⟩ := hv.nodes.field hf
    obtain ⟨-, -, hd⟩ := hv.nodes.field hself
    obtain ⟨n, hn, href⟩ := Option.map_eq_some_iff.1 hd.view
    obtain ⟨d, hfind, hsuits⟩ := Catalog.suits_of_answer hn
    obtain rfl : n = record.reference.owner := congrArg QualifiedField.owner href
    obtain ⟨r, hr⟩ := Option.isSome_iff_exists.1 (Table.find?_isSome_iff.2 (h.fields hf))
    obtain ⟨found, hfound, -⟩ := h.cached hr
    obtain rfl : found = some d := (Hierarchy.lookup_of_find? hfound).symm.trans hfind
    exact ⟨h.isPresent (h.fields hf) hfound, d, hfind, hsuits⟩
  missingMethods m hm := by
    rcases h.warranted _ hm with ⟨_, he⟩ | ⟨hp, hd⟩
    · cases he
    · obtain ⟨d, hfind⟩ := h.present hp
      exact ⟨hp, Option.isSome_iff_exists.2 ⟨d, Hierarchy.lookup_of_find? hfind⟩, hd.view⟩
  missingFields f hf := by
    rcases h.warranted _ hf with ⟨_, he⟩ | ⟨hp, hd⟩
    · cases he
    · obtain ⟨d, hfind⟩ := h.present hp
      exact ⟨hp, Option.isSome_iff_exists.2 ⟨d, Hierarchy.lookup_of_find? hfind⟩, hd.view⟩

/-! ## Steps -/

def KeepsClasses (s s' : Analysis) : Prop :=
  ∀ name r, s.classes.find? name = some r → ∃ r', s'.classes.find? name = some r' ∧ r'.missing = r.missing

theorem Grows.keepsClasses (hg : s.Grows s') : s.KeepsClasses s' := by
  intro name r hr
  obtain ⟨r', hr', hgrows⟩ := hg.recorded hr
  exact ⟨r', hr', hgrows.missing⟩

theorem Grows.warrants (hg : s.Grows s') {p : Problem} (hp : s.Warrants p) : s'.Warrants p := by
  have hpresent : ∀ {name}, s.isPresent name = true → s'.isPresent name = true := by
    intro name hn
    obtain ⟨r, hr, hm⟩ := isPresent_iff.1 hn
    obtain ⟨r', hr', hm'⟩ := hg.keepsClasses _ _ hr
    exact isPresent_iff.2 ⟨r', hr', hm'.trans hm⟩
  cases p with
  | missingClass name => exact hp.elim
  | missingMethod m => exact ⟨hpresent hp.1, hg.decides hp.2⟩
  | missingField f => exact ⟨hpresent hp.1, hg.decides hp.2⟩
  | missingEntry m => trivial

theorem Grows.reference (hg : s.Grows s') (hm : s'.methods.size = s.methods.size) {id : Nat} {r : MethodRecord}
    (hr : s'.methods[id]? = some r) : ∃ r₀, s.methods[id]? = some r₀ ∧ r.reference = r₀.reference := by
  have hlt : id < s.methods.size := hm ▸ (Array.getElem?_eq_some_iff.1 hr).1
  obtain ⟨r', hr', hgrows⟩ := hg.methods id _ (Array.getElem?_eq_getElem hlt)
  obtain rfl := Option.some.inj (hr.symm.trans hr')
  exact ⟨_, Array.getElem?_eq_getElem hlt, hgrows.reference⟩

/-- The records are kept by a growth whose new classes bring their supertypes and
whose new problems are warranted. -/
theorem Recorded.advance (h : s.Recorded) (hg : s.Grows s')
    (hc : ∀ {name r}, s'.classes.find? name = some r →
      (∃ r₀, s.classes.find? name = some r₀ ∧ r.missing = r₀.missing) ∨
      ∃ found, s'.hierarchy.classes.find? name = some found ∧ r.missing = found.isNone ∧
        ∀ d, found = some d → ∀ super ∈ d.supertypes, super ∈ s'.classes.keys)
    (hr : ∀ name, .missingClass name ∈ s'.problems ↔ ∃ r, s'.classes.find? name = some r ∧ r.missing = true)
    (hp : ∀ p ∈ s'.problems, p ∈ s.problems ∨ (∃ name, p = .missingClass name) ∨ s.Warrants p)
    (hm : ∀ {id : Nat} {r}, s'.methods[id]? = some r → r.reference.owner ∈ s.classes.keys)
    (hf : ∀ {f record}, s'.fields.find? f = some record → record.reference.owner ∈ s.classes.keys) :
    s'.Recorded := by
  -- An old class has the answer that was remembered, a new one brings its own; either way it is remembered now.
  have hall : ∀ {name r}, s'.classes.find? name = some r → ∃ found, s'.hierarchy.classes.find? name = some found ∧
      r.missing = found.isNone ∧ ∀ d, found = some d → ∀ super ∈ d.supertypes, super ∈ s'.classes.keys := by
    intro name r hr
    rcases hc hr with ⟨r₀, hr₀, hm⟩ | hnew
    · obtain ⟨found, hfound, hm₀⟩ := h.cached hr₀
      refine ⟨found, hg.hierarchy _ _ hfound, hm.trans hm₀, fun d hd super hs => ?_⟩
      exact hg.classes (h.supertypes (Table.mem_keys_of_find? hr₀) (hd ▸ hfound) super hs)
    · exact hnew
  refine ⟨fun hr => ?_, hr, fun hn hd => ?_, fun hr => hg.classes (hm hr), fun hr => hg.classes (hf hr),
    fun p hmem => ?_⟩
  · obtain ⟨found, hfound, hm, -⟩ := hall hr
    exact ⟨found, hfound, hm⟩
  · obtain ⟨r, hr⟩ := Option.isSome_iff_exists.1 (Table.find?_isSome_iff.2 hn)
    obtain ⟨found, hfound, -, hsupers⟩ := hall hr
    exact hsupers _ (Option.some.inj (hfound.symm.trans hd))
  · rcases hp p hmem with hold | hclass | hp
    · exact (h.warranted p hold).imp_right hg.warrants
    · exact Or.inl hclass
    · exact Or.inr (hg.warrants hp)

theorem Recorded.keep (h : s.Recorded) (hg : s.Grows s') (hc : s'.classes = s.classes)
    (hp : s'.problems = s.problems)
    (hm : ∀ {id : Nat} {r}, s'.methods[id]? = some r → r.reference.owner ∈ s.classes.keys)
    (hf : ∀ {f record}, s'.fields.find? f = some record → record.reference.owner ∈ s.classes.keys) :
    s'.Recorded :=
  h.advance hg (fun {_ r} hr => Or.inl ⟨r, hc ▸ hr, rfl⟩) (by rw [hp, hc]; exact h.reported)
    (fun _ hmem => Or.inl (hp ▸ hmem)) hm hf

theorem Recorded.aside (h : s.Recorded) (hg : s.Grows s') (hc : s'.classes = s.classes)
    (hp : s'.problems = s.problems)
    (hm : s'.methods.size = s.methods.size) (hf : s'.fields = s.fields) : s'.Recorded := by
  refine h.keep hg hc hp (fun hr => ?_) fun hr => h.fields (hf ▸ hr)
  obtain ⟨r₀, hr₀, href⟩ := hg.reference hm hr
  exact href ▸ h.methods hr₀

theorem Recorded.report (h : s.Recorded) {p : Problem} (hp : s.Warrants p) : (s.report p).Recorded := by
  have hstep : Step .driver s [] (s.report p) [] := .report hp (Or.inl rfl)
  refine h.advance hstep.grows (fun {_ r} hr => Or.inl ⟨r, hr, rfl⟩) (fun name => ?_)
    (fun q hq => ?_) h.methods h.fields
  · refine OrderedSet.mem_insert.trans (Iff.trans ⟨fun hmem => hmem.resolve_right ?_, Or.inl⟩ (h.reported name))
    rintro rfl
    exact hp
  · rcases OrderedSet.mem_insert.1 hq with hq | rfl
    · exact Or.inl hq
    · exact Or.inr (Or.inr hp)

theorem Recorded.markInitialized (h : s.Recorded) {name : ClassName} (hp : s.isPresent name = true) :
    Recorded { s with classes := s.classes.adjust name fun r => { r with initialized := true } } := by
  have hfind : ∀ n, (s.classes.adjust name fun r => { r with initialized := true }).find? n
      = if n = name then (s.classes.find? n).map fun r => { r with initialized := true } else s.classes.find? n :=
    fun n => Table.find?_adjust _ _ _ _
  have hback : ∀ {n r}, (s.classes.adjust name fun r => { r with initialized := true }).find? n = some r →
      ∃ r₀, s.classes.find? n = some r₀ ∧ r.missing = r₀.missing := by
    intro n r hr
    rw [hfind] at hr
    split at hr
    · obtain ⟨r₀, hr₀, rfl⟩ := Option.map_eq_some_iff.1 hr
      exact ⟨r₀, hr₀, rfl⟩
    · exact ⟨r, hr, rfl⟩
  have hg := (Step.markInitialized (w := .client) (γ := []) name hp).grows
  refine h.advance hg (fun hr => Or.inl (hback hr)) (fun n => ?_) (fun _ hmem => Or.inl hmem) h.methods h.fields
  refine (h.reported n).trans ⟨?_, ?_⟩
  · rintro ⟨r, hr, hm⟩
    obtain ⟨r', hr', hm'⟩ := hg.keepsClasses n r hr
    exact ⟨r', hr', hm'.trans hm⟩
  · rintro ⟨r, hr, hm⟩
    obtain ⟨r₀, hr₀, hm₀⟩ := hback hr
    exact ⟨r₀, hr₀, hm₀.symm.trans hm⟩

/-- Where each new class is recorded as it was looked up, those that are missing are those that are reported. -/
theorem Recorded.reported_of_found (h : s.Recorded) {names : List ClassName}
    (hnew : ∀ m ∈ names, m ∉ s.classes.keys) {c : Table ClassName ClassRecord} {p : Problems}
    (hfind : ∀ m, c.find? m = if m ∈ names then some ⟨(s.hierarchy.lookup m).isNone, false⟩ else s.classes.find? m)
    (hp : ∀ q, q ∈ p ↔ q ∈ s.problems ∨ ∃ m ∈ names, s.hierarchy.lookup m = none ∧ q = .missingClass m)
    (m : ClassName) : .missingClass m ∈ p ↔ ∃ r, c.find? m = some r ∧ r.missing = true := by
  rw [hp, h.reported, hfind]
  constructor
  · rintro (⟨r, hr, hm⟩ | ⟨k, hk, hmissing, he⟩)
    · rw [if_neg fun hm => hnew m hm (Table.mem_keys_of_find? hr)]
      exact ⟨r, hr, hm⟩
    · cases he
      rw [if_pos hk]
      exact ⟨_, rfl, Option.isNone_iff_eq_none.2 hmissing⟩
  · rintro ⟨r, hr, hm⟩
    split at hr
    · next hk =>
      cases hr
      exact Or.inr ⟨m, hk, Option.isNone_iff_eq_none.1 hm, rfl⟩
    · exact Or.inl ⟨r, hr, hm⟩

/-- The classes that linking a class records are closed under supertypes. -/
theorem Recorded.linkClass (h : s.Recorded) (name : ClassName) : (s.linkClass name).2.Recorded := by
  by_cases hn : name ∈ s.classes.keys
  · rw [linkClass_of_mem hn]
    exact h
  · have hstep : Step .client s [] (s.linkClass name).2 [] := .linkClass s [] name
    obtain ⟨hier, c, p, hs, hfind, hproblems, hcached⟩ := linkClass_new hn
    rw [hs] at hstep ⊢
    have hlookup : ∀ {m}, m ∈ s.hierarchy.view.traverse .stack ClassDef.supertypes s.classes.keys [name] →
        hier.classes.find? m = some (s.hierarchy.lookup m) := fun {m} hm => by
      rw [Hierarchy.find?_of_mem_keys (hcached m hm)]
      exact congrArg some (hstep.learns.lookup m)
    have hmem : ∀ {m}, m ∈ s.classes.keys ∨
        m ∈ s.hierarchy.view.traverse .stack ClassDef.supertypes s.classes.keys [name] → m ∈ c.keys := by
      intro m hm
      rw [← Table.find?_isSome_iff, hfind]
      split
      · rfl
      · next hnot => exact Table.find?_isSome_iff.2 (hm.resolve_right hnot)
    refine h.advance hstep.grows (fun {m r} hr => ?_)
      (h.reported_of_found (fun _ => Catalog.not_mem_of_mem_traverse) hfind hproblems)
        (fun q hq => ?_) h.methods h.fields
    · have hr := (hfind m).symm.trans hr
      split at hr
      · next hm =>
        cases hr
        refine Or.inr ⟨_, hlookup hm, rfl, fun d hd super hs => hmem (Catalog.traverse_closed hm ?_)⟩
        unfold Catalog.successors
        rw [show s.hierarchy.view.find? m = some d from hd]
        exact hs
      · exact Or.inl ⟨r, hr, rfl⟩
    · rcases (hproblems q).1 hq with hold | ⟨m, -, -, he⟩
      · exact Or.inl hold
      · exact Or.inr (Or.inl ⟨m, he⟩)

theorem Step.recorded (hstep : Step w s γ s' γ') (h : s.Recorded) : s'.Recorded := by
  have hg := hstep.grows
  cases hstep with
  | linkClass name => exact h.linkClass name
  | report hp => exact h.report hp
  | markInitialized name hp => exact h.markInitialized hp
  | @recordMethod m d f hm hd hf hc =>
    refine h.keep hg rfl rfl (fun hr => ?_) h.fields
    rcases getElem?_push_cases hr with hr | ⟨-, rfl⟩
    · exact h.methods hr
    · exact hc
  | fieldAlias hf hr hd =>
    refine h.keep hg rfl rfl h.methods fun hrec => ?_
    rcases Table.find?_insert_cases hrec with hrec | ⟨-, rfl⟩
    · exact h.fields hrec
    · exact h.fields hr
  | newField hf hr hd hs hc =>
    refine h.keep hg rfl rfl h.methods fun hrec => ?_
    rcases Table.find?_insert_cases hrec with hrec | ⟨-, rfl⟩
    · rcases Table.find?_insert_cases hrec with hrec | ⟨-, rfl⟩
      · exact h.fields hrec
      · exact hc
    · exact hc
  | aggregate ht ha =>
    rw [aggregate_of_none ht] at hg ⊢
    exact h.aside hg rfl rfl rfl rfl
  | pool hk =>
    rw [poolNode_of_none hk] at hg ⊢
    exact h.aside hg rfl rfl rfl rfl
  | site hs hk hr hpr hn => exact h.aside hg rfl rfl (Array.size_modify ..) rfl
  | openBody hr hp hl hw => exact h.aside hg rfl rfl (Array.size_modify ..) rfl
  | _ => exact h.aside hg rfl rfl rfl rfl

theorem Moves.recorded (hm : Moves w s γ s' γ') (h : s.Recorded) : s'.Recorded :=
  hm.invariant (P := fun s _ => s.Recorded) Step.recorded h

/-! ## Sessions -/

theorem recorded_blank (settings : Settings) (h : Hierarchy)
    (entries : Table QualifiedMethod (List (Nat × ExactType))) (reseed : Bool) (generation : Nat)
    (observations : List (String × ExactType)) :
    (blank settings h entries reseed generation observations).Recorded where
  cached hr := nomatch hr
  reported _ := ⟨fun hmem => absurd hmem (OrderedSet.not_mem_empty _), fun ⟨_, hr, _⟩ => nomatch hr⟩
  supertypes hn := nomatch hn
  methods hr := nomatch hr
  fields hr := nomatch hr
  warranted _ hmem := absurd hmem (OrderedSet.not_mem_empty _)

/-- The records rest on remembered classes alone. -/
theorem Recorded.setWorld (h : s.Recorded) (w : World) : (s.setWorld w).Recorded :=
  h.aside (.withHierarchy s (s.hierarchy.retains_setWorld w)) rfl rfl rfl rfl

theorem recorded_history (w : World) (settings : Settings) (ops : List Op) :
    ((Analysis.new w settings).history ops).Recorded :=
  (sound_new w settings).history_invariant (fun _ hm h => hm.recorded h) (fun w h => h.setWorld w)
    (fun {s} _ _ => recorded_blank s.settings _ s.entries true (s.generation + 1) s.observations)
    (recorded_blank settings { world := w } ∅ false 0 []) ops

/-- Whatever was asked of an analysis, what it linked is there as far as it can see, and what it reported is not. -/
theorem closedWorld_history (w : World) (settings : Settings) (ops : List Op) :
    ((Analysis.new w settings).history ops).ClosedWorld := by
  have hsound := sound_new w settings
  exact (recorded_history w settings ops).closedWorld (hsound.history ops).1.valid

end Analysis

end TypeFlow
