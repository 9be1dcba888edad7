import TypeFlow.Proofs.Solution.Settled

/-!
# What precision costs

A fast analysis lets all calls of a declared method share a selector, which is
told of more receivers than any of the calls has. So it finds all that a precise
analysis finds, as far as it counts the receivers at all: what it overlooks has
to run something that it finds for other receivers.
-/

namespace TypeFlow

/-! ## Facts of a fast analysis -/

def Chooser.shared (κ : Chooser) : Chooser := ⟨κ.declared, none⟩

namespace Fact

def shared : Fact → Fact
  | calls m key κ => calls m key κ.shared
  | serves κ σ => serves κ.shared σ
  | target κ m => target κ.shared m
  | φ => φ

theorem shared_of_silent {φ : Fact} (h : φ.chooser? = none) : φ.shared = φ := by
  cases φ with
  | calls | serves | target => cases h
  | _ => rfl

end Fact

namespace Catalog

variable {c : Catalog} {o : Settings}

theorem shared_mem_entails {b : Scene} {i : Instr} {φ : Fact}
    (h : φ ∈ c.entails { o with precision := .precise } b i) :
    φ.shared ∈ c.entails { o with precision := .fast } b i := by
  cases hd : i.declared? with
  | none =>
    rw [Fact.shared_of_silent (silent_entails hd b φ h)]
    cases i with
    | call dst? instance? callee args binding =>
      cases instance? with
      | none => cases binding <;> exact h
      | some receiver =>
        have hb : binding.receiver? = none := Option.map_eq_none_iff.1 hd
        simp only [entails, call, hb] at h ⊢
        exact h
    | _ => exact h
  | some d =>
    obtain ⟨v, declared⟩ := d
    rw [entails_of_declared hd] at h ⊢
    rcases List.mem_cons.1 h with rfl | h
    · exact List.mem_cons_self
    · rw [List.mem_singleton.1 h]
      exact List.mem_cons_of_mem _ List.mem_cons_self

theorem shared_mem_consequences {φ ψ : Fact} (h : ψ ∈ c.consequences { o with precision := .precise } φ) :
    ψ.shared ∈ c.consequences { o with precision := .fast } φ.shared := by
  by_cases hm : ∃ m, φ = .method m
  · obtain ⟨m, rfl⟩ := hm
    rcases mem_methodFacts.1 h with ⟨body, hb, i, hi, h⟩ | h
    · exact mem_methodFacts.2 (Or.inl ⟨body, hb, i, hi, shared_mem_entails h⟩)
    · rw [Fact.shared_of_silent (c.silent_outline _ m ψ h)]
      exact mem_methodFacts.2 (Or.inr h)
  · rw [Fact.shared_of_silent (c.silent_consequences _ (fun m hφ => hm ⟨m, hφ⟩) ψ h)]
    cases φ with
    | method m => exact absurd ⟨m, rfl⟩ hm
    | calls | serves | target => cases h
    | _ => exact h

end Catalog

namespace Analysis

variable {w : World} {o : Settings} {A : List Fact} {p f : Analysis}

/-! ## Receivers that a fast analysis overlooks -/

/-- Whether a fast analysis finds among the targets of each dynamic call what the call runs on those receivers of a
precise analysis that the fast one overlooks. -/
def MakesUp (w : World) (p f : Analysis) : Prop :=
  ∀ m ∈ p.reachableMethods, ∀ body, w.catalog.body? m = some body → ∀ i ∈ body.instrs, ∀ v declared,
    i.declared? = some (v, declared) → ∀ t ∈ p.typesOfLocal m v, f.Overlooks declared.owner t →
      ∀ target, f.dispatch declared.signature t = some target → target ∈ f.ownTargets m v declared

/-- A receiver that is not overlooked is one of those that the shared selector is told of. -/
theorem Solves.holds_owner (hf : Solves w { o with precision := .fast } A f) {m : QualifiedMethod} {v : Local}
    {owner : ClassName} {t : ExactType} (ht : f.Has (.holds (.var m v) t))
    (ha : w.catalog.isAssignable t owner = true) (hno : ¬ f.Overlooks owner t) :
    f.Has (.holds (.ofAggregate (.object owner)) t) := by
  obtain ⟨n, ⟨r, -, hn⟩, ht⟩ := ht
  rw [← Catalog.isAssignable_congr hf.all.shows.answer] at ha
  have hmem := hf.sound.mem_receiverTypes hf.rooted hf.settled hn ht ha hno
  unfold receiverTypes at hmem
  rw [hf.all.settings] at hmem
  cases hown : f.aggregate? (.object owner) with
  | none =>
    rw [hown] at hmem
    cases hmem
  | some k =>
    rw [hown] at hmem
    exact ⟨k, standsFor_ofAggregate.2 hown, hmem⟩

theorem Solves.dispatch_eq (hf : Solves w o A f) (sig : Signature) (t : ExactType) : f.dispatch sig t =
    t.dispatchClass?.bind fun receiver => w.catalog.resolveImplementation receiver sig := by
  simp only [dispatch, Catalog.resolveImplementation_congr hf.all.shows.answer]

/-! ## Precise facts are fast facts -/

structure IncludedIn (s s' : Analysis) : Prop where
  classes : ∀ n ∈ s.reachableClasses, n ∈ s'.reachableClasses
  methods : ∀ m ∈ s.reachableMethods, m ∈ s'.reachableMethods
  fields : ∀ f ∈ s.reachableFields, f ∈ s'.reachableFields
  slots : ∀ {m r}, s.method? m = some r → ∃ r', s'.method? m = some r' ∧
    Aligned (fun n n' => ∀ t ∈ s.graph.typesAt n, t ∈ s'.graph.typesAt n') r r'
  fieldNodes : ∀ {f n n'}, s.fieldNode? f = some n → s'.fieldNode? f = some n' →
    ∀ t ∈ s.graph.typesAt n, t ∈ s'.graph.typesAt n'
  targets : ∀ m v sig, ∀ target ∈ s.callTargets m v sig, target ∈ s'.callTargets m v sig

section
variable (hp : Solves w { o with precision := .precise } A p) (hf : Solves w { o with precision := .fast } A f)
include hp hf

theorem MakesUp.target (h : MakesUp w p f) (hA : Fact.Silent A) {κ : Chooser} {σ : SlotSite} {t : ExactType}
    {target : QualifiedMethod} (hκ : p.Has (.serves κ σ)) (hκ' : f.Has (.serves κ.shared σ))
    (ht : p.Has (.holds κ.feed t)) (ht' : f.Has (.holds κ.feed t))
    (hpick : w.catalog.pick κ.declared κ.filter? t = some target) : f.Has (.target κ.shared target) := by
  obtain ⟨m, hm, hwritten⟩ := hp.method_of_serves hA hκ
  obtain ⟨body, i, v, declared, hb, hi, hd, rfl, -⟩ := Catalog.call_of_serves hwritten
  obtain ⟨ha, hdispatch⟩ := pick_eq_some_iff.1 hpick
  have ha : w.catalog.isAssignable t declared.owner = true := ha
  by_cases hover : f.Overlooks declared.owner t
  · -- the shared selector is not told of the receiver, but has what the call runs on it
    have hres := hp.all.resolveMethod_of_linked hm
    have hlocal : t ∈ p.typesOfLocal m v :=
      hp.all.mem_typesOfLocal.2 ⟨Or.inl hm, m, hres, ht⟩
    have hown := h m (mem_reachableMethods.2 hm) body hb i hi v declared hd t hlocal hover target
      ((hf.dispatch_eq declared.signature t).trans hdispatch)
    obtain ⟨-, n, hn, htarget⟩ := hf.all.mem_ownTargets.1 hown
    obtain rfl := Option.some.inj (hres.symm.trans hn)
    exact htarget
  · have hfeed := hf.holds_owner ht' ha hover
    exact hf.closed.choose hκ' hfeed (pick_eq_some_iff.2 ⟨rfl, hdispatch⟩)

theorem MakesUp.closed (h : MakesUp w p f) (hA : Fact.Silent A) :
    w.catalog.Closed { o with precision := .precise } fun φ => p.Has φ ∧ f.Has φ.shared where
  follows hφ hψ := ⟨hp.closed.follows hφ.1 hψ, hf.closed.follows hφ.2 (Catalog.shared_mem_consequences hψ)⟩
  carry ht hflow := ⟨hp.closed.carry ht.1 hflow.1, hf.closed.carry ht.2 hflow.2⟩
  aggregate {t φ} ht hφ := by
    refine ⟨hp.closed.aggregate ht.1 hφ, ?_⟩
    rw [Fact.shared_of_silent (Fact.silent_gathering _ φ hφ)]
    exact hf.closed.aggregate ht.2 hφ
  gather ht := ⟨hp.closed.gather ht.1, hf.closed.gather ht.2⟩
  attach {κ site φ} hκ hn hφ := by
    refine ⟨hp.closed.attach hκ.1 hn hφ, ?_⟩
    rw [Fact.shared_of_silent (Fact.silent_gathering _ φ hφ)]
    exact hf.closed.attach hκ.2 rfl hφ
  choose hκ ht hm := ⟨hp.closed.choose hκ.1 ht.1 hm, h.target hp hf hA hκ.1 hκ.2 ht.1 ht.2 hm⟩
  link hm := ⟨hp.closed.link hm.1, hf.closed.link hm.2⟩
  join {κ site m φ} hm hκ hφ := by
    refine ⟨hp.closed.join hm.1 hκ.1 hφ, ?_⟩
    rw [Fact.shared_of_silent (w.catalog.silent_joining m site φ hφ)]
    exact hf.closed.join hm.2 hκ.2 hφ

theorem MakesUp.has (h : MakesUp w p f) (hA : Fact.Silent A) {φ : Fact} (hφ : p.Has φ) (hne : ∀ x, φ ≠ .flow x x) :
    f.Has φ.shared := by
  refine (hp.least (h.closed hp hf hA) (fun ψ hψ => ⟨hp.asked ψ hψ, ?_⟩) hφ hne).2
  rw [Fact.shared_of_silent (hA ψ hψ)]
  exact hf.asked ψ hψ

omit hf in
theorem Solves.mem_ownTargets_of_receiver {m : QualifiedMethod} (hm : m ∈ p.reachableMethods) {body : Body}
    (hb : w.catalog.body? m = some body) {i : Instr} (hi : i ∈ body.instrs) {v : Local} {declared : QualifiedMethod}
    (hd : i.declared? = some (v, declared)) {t : ExactType} (ht : t ∈ p.typesOfLocal m v)
    (ha : w.catalog.isAssignable t declared.owner = true) {target : QualifiedMethod}
    (hdispatch : (t.dispatchClass?.bind fun receiver =>
      w.catalog.resolveImplementation receiver declared.signature) = some target) :
    target ∈ p.ownTargets m v declared := by
  have hm := mem_reachableMethods.1 hm
  have hres := hp.all.resolveMethod_of_linked hm
  obtain ⟨-, n, hn, ht⟩ := hp.all.mem_typesOfLocal.1 ht
  obtain rfl := Option.some.inj (hres.symm.trans hn)
  have hserves : p.Has (.serves (.of .precise m v declared) (Scene.siteOf ⟨m, body.locals⟩ i)) := by
    refine hp.closed.follows hm (Catalog.mem_methodFacts.2 (Or.inl ⟨body, hb, i, hi, ?_⟩))
    rw [Catalog.entails_of_declared hd]
    exact List.mem_cons_of_mem _ List.mem_cons_self
  have htarget := hp.closed.choose hserves ht (pick_eq_some_iff.2 ⟨ha, hdispatch⟩)
  exact hp.all.mem_ownTargets.2 ⟨Or.inl hm, m, hres, htarget⟩

theorem MakesUp.includedIn (h : MakesUp w p f) (hA : Fact.Silent A) : IncludedIn p f := by
  have htypes : ∀ {x n n'}, p.StandsFor n x → f.StandsFor n' x →
      ∀ t ∈ p.graph.typesAt n, t ∈ f.graph.typesAt n' := by
    intro x n n' hn hn' t ht
    rw [mem_typesAt_iff hp.sound.valid hn] at ht
    exact (mem_typesAt_iff hf.sound.valid hn').2 (h.has hp hf hA ht nofun)
  exact
    { classes := fun n hn => by
        rw [hp.all.mem_reachableClasses] at hn
        exact hf.all.mem_reachableClasses.2 ⟨h.has hp hf hA hn.1 nofun, hn.2⟩
      methods := fun m hm =>
        mem_reachableMethods.2 (h.has hp hf hA (mem_reachableMethods.1 hm) nofun)
      fields := fun x hx => mem_reachableFields.2 (h.has hp hf hA (mem_reachableFields.1 hx) nofun)
      slots := fun {m r} hm => by
        obtain ⟨hr, hres⟩ := hp.all.resolveMethod_of_method? hm
        have hnamed := (method?_isSome hp.sound.valid).1 (Option.isSome_iff_exists.2 ⟨r, hm⟩)
        obtain ⟨r', hm'⟩ := Option.isSome_iff_exists.1
          ((method?_isSome hf.sound.valid).2 (h.has hp hf hA hnamed nofun))
        obtain ⟨hr', hres'⟩ := hf.all.resolveMethod_of_method? hm'
        rw [← Option.some.inj (hres.symm.trans hres')] at hr'
        exact ⟨r', hm', hp.all.aligned hf.all hr hr' (hp.sound.processed hp.settled hr)
          (hf.sound.processed hf.settled hr') (hp.all.localCount_eq hf.all hr hr') htypes⟩
      fieldNodes := fun {x n n'} hn hn' => by
        obtain ⟨record, hx, rfl⟩ := Option.map_eq_some_iff.1 hn
        obtain ⟨record', hx', rfl⟩ := Option.map_eq_some_iff.1 hn'
        exact htypes (hp.all.fieldSlot hx).2 (hf.all.fieldSlot hx').2
      targets := fun m v sig target ht => by
        obtain ⟨hnamed, n, κ, hres, hcalls, ht⟩ := hp.all.mem_callTargets.1 ht
        exact hf.all.mem_callTargets.2 ⟨h.has hp hf hA hnamed nofun, n, κ.shared, hres,
          h.has hp hf hA hcalls nofun, h.has hp hf hA ht nofun⟩ }

end

/-- A fast analysis finds all that a precise one finds exactly when it finds, for each call, what the call runs on
those of its receivers that the fast analysis overlooks. -/
theorem included_in_fast_iff (w : World) (o : Settings) (requests : List Request)
    (hi : Introduced w.catalog [] requests) :
    (IncludedIn ((Analysis.new w { o with precision := .precise }).answer requests)
        ((Analysis.new w { o with precision := .fast }).answer requests) ∧
      ∀ m v declared,
        ∀ target ∈ ((Analysis.new w { o with precision := .precise }).answer requests).ownTargets m v declared,
          target ∈ ((Analysis.new w { o with precision := .fast }).answer requests).ownTargets m v declared) ↔
      MakesUp w ((Analysis.new w { o with precision := .precise }).answer requests)
        ((Analysis.new w { o with precision := .fast }).answer requests) := by
  have hp := solves_answer (o := { o with precision := .precise }) hi
  have hf := solves_answer (o := { o with precision := .fast }) hi
  have hA := Fact.silent_flatMap requests w.catalog.silent_asking
  generalize (Analysis.new w { o with precision := .precise }).answer requests = p at *
  generalize (Analysis.new w { o with precision := .fast }).answer requests = f at *
  constructor
  · rintro ⟨-, hown⟩ m hm body hb i hi v declared hd t ht hover target hdispatch
    have ha := hover.2.2.1
    rw [Catalog.isAssignable_congr hf.all.shows.answer] at ha
    rw [hf.dispatch_eq] at hdispatch
    exact hown m v declared target (hp.mem_ownTargets_of_receiver hm hb hi hd ht ha hdispatch)
  · refine fun h => ⟨h.includedIn hp hf hA, fun m v declared target ht => ?_⟩
    obtain ⟨hnamed, n, hres, ht⟩ := hp.all.mem_ownTargets.1 ht
    have htarget := h.has hp hf hA ht nofun
    exact hf.all.mem_ownTargets.2 ⟨h.has hp hf hA hnamed nofun, n, hres, htarget⟩

/-! The sample where the class has no method of its own: what is overlooked runs what is found for the class. -/

def sampleHeirs : World where
  classes := [
    ⟨objectClass, none, [], [], [], [⟨sampleFoo, [], some ⟨0, []⟩⟩]⟩,
    ⟨"java.lang.Cloneable", some objectClass, [], [.interface], [], []⟩,
    ⟨"C", some objectClass, ["java.lang.Cloneable"], [], [], []⟩,
    ⟨"Main", some objectClass, [], [], [], [⟨sampleEntry.signature, [.static], some sampleCaller⟩]⟩]
  nodup := by decide

set_option maxRecDepth 100000 in
theorem included_in_fast_sampleHeirs :
    IncludedIn ((Analysis.new sampleHeirs { precision := .precise }).answer [.entry sampleEntry])
      ((Analysis.new sampleHeirs { precision := .fast }).answer [.entry sampleEntry]) := by
  have hup :
      ∀ m ∈ ((Analysis.new sampleHeirs { precision := .precise }).answer [.entry sampleEntry]).reachableMethods,
      ∀ body ∈ sampleHeirs.catalog.body? m, ∀ i ∈ body.instrs, ∀ d ∈ i.declared?,
      ∀ t ∈ ((Analysis.new sampleHeirs { precision := .precise }).answer [.entry sampleEntry]).typesOfLocal m d.1,
      ∀ target ∈
        ((Analysis.new sampleHeirs { precision := .fast }).answer [.entry sampleEntry]).dispatch d.2.signature t,
      target ∈
        ((Analysis.new sampleHeirs { precision := .fast }).answer [.entry sampleEntry]).ownTargets m d.1 d.2 := by
    decide +kernel
  refine ((included_in_fast_iff sampleHeirs {} [.entry sampleEntry] trivial).2 ?_).1
  exact fun m hm body hb i hi v declared hd t ht _ target hdispatch =>
    hup m hm body hb i hi (v, declared) hd t ht target hdispatch

set_option maxRecDepth 100000 in
/-- A fast analysis need not find what a call runs on an array. -/
theorem not_forall_included_in_fast :
    ¬ ∀ (w : World) (o : Settings) (requests : List Request), Introduced w.catalog [] requests →
      IncludedIn ((Analysis.new w { o with precision := .precise }).answer requests)
        ((Analysis.new w { o with precision := .fast }).answer requests) := by
  intro h
  have hprecise : (⟨objectClass, sampleFoo⟩ : QualifiedMethod) ∈
      ((Analysis.new sampleClasses { precision := .precise }).answer [.entry sampleEntry]).reachableMethods := by
    decide +kernel
  have hfast : (⟨objectClass, sampleFoo⟩ : QualifiedMethod) ∉
      ((Analysis.new sampleClasses { precision := .fast }).answer [.entry sampleEntry]).reachableMethods := by
    decide +kernel
  exact hfast ((h sampleClasses {} [.entry sampleEntry] trivial).methods _ hprecise)

end Analysis

end TypeFlow
