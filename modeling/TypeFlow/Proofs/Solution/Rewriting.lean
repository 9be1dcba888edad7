import TypeFlow.Proofs.Hierarchy.Bodies
import TypeFlow.Proofs.Solution.Settled

/-!
# Rewritten calls keep the solution

A dynamic call that is rewritten to its only target entails what the target and
its selector brought before. So the facts of the world are closed under the
rules of the rewritten one, and what is found in the rewritten world is closed
under the rules of the world, as far as it is told by the results.
-/

namespace TypeFlow

namespace Catalog

theorem mem_wiring {c : Catalog} {t : DeclType} {φ : Fact} (h : φ ∈ c.wiring t) :
    (∃ n, φ = .cls n ∧ c.find? n = none) ∨ (∃ y, φ = .flow (.aggregate t) y) ∨ ∃ u, φ = .aggregate u := by
  unfold wiring at h
  rcases List.mem_append.1 h with h | h
  · unfold consulting at h
    split at h
    · next n _ =>
      split at h
      · cases h
      · split at h
        · next hnone => exact Or.inl ⟨n, List.mem_singleton.1 h, Option.isNone_iff_eq_none.1 hnone⟩
        · cases h
    · cases h
  · split at h
    · exact Or.inr (Or.inl ⟨.root, List.mem_singleton.1 h⟩)
    · obtain ⟨super, -, h⟩ := List.mem_flatMap.1 h
      rcases List.mem_append.1 h with h | h
      · exact Or.inr (Or.inr ⟨super, Fact.eq_of_mem_gathering h⟩)
      · exact Or.inr (Or.inl ⟨.ofAggregate super, List.mem_singleton.1 h⟩)

/-! ## Rules that look at no body -/

section
variable {f : QualifiedMethod → Body → Body} {c c' : Catalog} (h : Rewrites f c c')
include h

theorem Rewrites.method? (m : QualifiedMethod) : c'.method? m = (c.method? m).map (MethodDef.mapBody (f m)) := by
  unfold Catalog.method?
  rw [h]
  cases c.find? m.owner with
  | none => rfl
  | some d => exact d.method?_mapBodies _ m.signature

theorem Rewrites.body? (m : QualifiedMethod) : c'.body? m = (c.body? m).map (f m) := by
  unfold Catalog.body?
  rw [h.method?]
  cases c.method? m <;> rfl

theorem Rewrites.linking (m : QualifiedMethod) : c'.linking m = c.linking m := by
  unfold Catalog.linking
  rw [resolveMethod_congr h.answer, h.isSome]

theorem Rewrites.accessing (x : QualifiedField) : c'.accessing x = c.accessing x := by
  unfold Catalog.accessing
  rw [resolveField_congr h.answer, h.isSome]

theorem Rewrites.fieldSlot (x : QualifiedField) : c'.fieldSlot x = c.fieldSlot x := by
  unfold Catalog.fieldSlot
  rw [resolveField_congr h.answer]

theorem Rewrites.initializing (n : ClassName) : c'.initializing n = c.initializing n := by
  unfold Catalog.initializing
  rw [h.isSome]

theorem Rewrites.joining (m : QualifiedMethod) (site : SlotSite) : c'.joining m site = c.joining m site := by
  unfold Catalog.joining
  rw [h.method?]
  cases c.method? m <;> rfl

theorem Rewrites.calling (m : QualifiedMethod) (site : SlotSite) : c'.calling m site = c.calling m site := by
  unfold Catalog.calling
  rw [h.linking, resolveMethod_congr h.answer]
  simp only [h.joining]

theorem Rewrites.monitoring (o : Settings) (object? : Option Slot) :
    c'.monitoring o object? = c.monitoring o object? := by
  unfold Catalog.monitoring
  refine congrArg (List.flatMap · _) (funext fun m => ?_)
  unfold entering
  rw [h.linking, resolveMethod_congr h.answer]

theorem Rewrites.asking (q : Analysis.Request) : c'.asking q = c.asking q := by
  cases q with
  | entry m =>
    have hstatic : ∀ target, (c'.method? target).any MethodDef.isStatic =
        (c.method? target).any MethodDef.isStatic := by
      intro target
      rw [h.method?, Option.any_map]
      rfl
    show c'.starting m = c.starting m
    unfold starting
    rw [h.linking, resolveMethod_congr h.answer]
    simp only [hstatic, h.initializing]
  | seed m index t =>
    show c'.seeding m index t = c.seeding m index t
    unfold seeding
    rw [resolveMethod_congr h.answer]
  | settle => rfl

theorem Rewrites.wiring (t : DeclType) : c'.wiring t = c.wiring t := by
  have hsupers : Analysis.directSupertypes c'.find? t = Analysis.directSupertypes c.find? t := by
    unfold Analysis.directSupertypes
    cases t.base with
    | object n =>
      simp only []
      rw [h]
      cases c.find? n <;> rfl
    | _ => rfl
  have hconsult : c'.consulting t = c.consulting t := by
    unfold consulting
    simp only [← Option.not_isSome, h.isSome]
  unfold Catalog.wiring
  rw [hsupers, hconsult]

theorem Rewrites.initializer (o : Settings) (n : ClassName) : c'.initializer o n = c.initializer o n := by
  unfold Catalog.initializer
  rw [h.method?, Option.isSome_map, h.linking]

theorem Rewrites.entails (o : Settings) (b : Scene) (i : Instr) : c'.entails o b i = c.entails o b i := by
  cases i with
  | loadField dst instance? x type =>
    simp only [Catalog.entails, fieldAccess, h.initializing, h.accessing, h.fieldSlot]
  | storeField instance? x src type =>
    simp only [Catalog.entails, fieldAccess, h.initializing, h.accessing, h.fieldSlot]
  | call dst? instance? callee args binding => simp only [Catalog.entails, Catalog.call, h.initializing, h.calling]
  | initClass n => exact h.initializing n
  | enterMonitor object => exact h.monitoring o _
  | exitMonitor object => exact h.monitoring o _
  | _ => rfl

theorem Rewrites.consequences (o : Settings) {φ : Fact} (hφ : ∀ m, φ ≠ .method m) :
    c'.consequences o φ = c.consequences o φ := by
  cases φ with
  | cls n =>
    simp only [Catalog.consequences]
    rw [h]
    cases c.find? n <;> rfl
  | initialized n =>
    simp only [Catalog.consequences, h.initializer, h.superclass?, funext h.initializing]
  | named m =>
    simp only [Catalog.consequences, resolveMethod_congr h.answer]
  | method m => exact absurd rfl (hφ m)
  | aggregate t => exact h.wiring t
  | _ => rfl

theorem Rewrites.outline {m : QualifiedMethod}
    (hf : ∀ body, c.body? m = some body → (f m body).locals = body.locals ∧ (f m body).handlers = body.handlers)
    (o : Settings) : c'.outline o m = c.outline o m := by
  unfold Catalog.body? at hf
  unfold Catalog.outline
  rw [h.method?]
  cases hd : c.method? m with
  | none => rfl
  | some d =>
    have hsync : (d.mapBody (f m)).isSynchronized = d.isSynchronized := rfl
    have hbody : (d.mapBody (f m)).body? = d.body?.map (f m) := rfl
    simp only [Option.map_some, hsync, hbody, h.monitoring]
    cases hb : d.body? with
    | none => rfl
    | some body =>
      obtain ⟨hlocals, hhandlers⟩ := hf body (by rw [hd, Option.bind_some, hb])
      simp only [Option.map_some, Option.toList_some, List.flatMap_singleton, hlocals, hhandlers]

end

end Catalog

/-! ## Rewritten instructions -/

namespace Instr

variable {targets : CallKey → List QualifiedMethod} {i : Instr}

theorem dynamicCall?_eq (i : Instr) : i.dynamicCall? = i.declared?.map fun d => ⟨d.1, d.2.signature⟩ := by
  cases i with
  | call dst? instance? callee args binding =>
    cases instance? with
    | none => rfl
    | some receiver => cases binding <;> rfl
  | _ => rfl

/-- A call with exactly one target calls it directly; nothing else is rewritten. -/
theorem devirtualize_cases (targets : CallKey → List QualifiedMethod) (i : Instr) : i.devirtualize targets = i ∨
    ∃ v declared target, i.declared? = some (v, declared) ∧ targets ⟨v, declared.signature⟩ = [target] ∧
      i.devirtualize targets = i.direct target := by
  unfold devirtualize
  rw [dynamicCall?_eq]
  cases hd : i.declared? with
  | none => exact Or.inl rfl
  | some d =>
    obtain ⟨v, declared⟩ := d
    simp only [Option.map_some]
    split
    · next target ht => exact Or.inr ⟨v, declared, target, rfl, ht, rfl⟩
    · exact Or.inl rfl

theorem entails_direct {v : Local} {declared : QualifiedMethod} (h : i.declared? = some (v, declared)) (c : Catalog)
    (o : Settings) (b : Scene) (target : QualifiedMethod) :
    c.entails o b (i.direct target) = c.calling target (b.siteOf i) := by
  cases i with
  | call dst? instance? callee args binding => cases instance? <;> rfl
  | _ => cases h

end Instr

namespace Analysis

/-! ## The rewritten world -/

/-- What takes the place of a body: the rewritten one where the method is linked. -/
def rewrittenBody (s : Analysis) (m : QualifiedMethod) (b : Body) : Body :=
  match s.devirtualizedBodies.find? fun e => e.1 = m with
  | some e => e.2.1
  | none => b

def rewrittenWorld (s : Analysis) (w : World) : World := w.mapBodies s.rewrittenBody

/-- Whether each call that is rewritten has exactly one target in its own selector. -/
def Definite (w : World) (s : Analysis) : Prop :=
  ∀ m ∈ s.reachableMethods, ∀ body, w.catalog.body? m = some body → ∀ i ∈ body.instrs, ∀ v declared,
    i.declared? = some (v, declared) → ∀ target, s.callTargets m v declared.signature = [target] →
      (s.ownTargets m v declared).length = 1

variable {w : World} {o : Settings} {A : List Fact} {s s' : Analysis}

theorem rewrites_rewrittenWorld (s : Analysis) (w : World) :
    Catalog.Rewrites s.rewrittenBody w.catalog (s.rewrittenWorld w).catalog :=
  w.rewrites_mapBodies s.rewrittenBody

def siteTargets (s : Analysis) (m : QualifiedMethod) (key : CallKey) : List QualifiedMethod :=
  s.callTargets m key.receiver key.signature

theorem Solves.rewrittenBody_eq (h : Solves w o A s) {m : QualifiedMethod} (hm : s.Has (.method m)) {body : Body}
    (hb : w.catalog.body? m = some body) : s.rewrittenBody m body = body.devirtualize (s.siteTargets m) := by
  obtain ⟨r, rfl, id, hr⟩ := hm
  have hbody : r.definition.body? = some body := by
    unfold Catalog.body? at hb
    rwa [h.all.method? hr] at hb
  have hmethod := h.sound.valid.methods.method? hr
  have hdevirt : (s.devirtualizeBody r.reference body).1 = body.devirtualize (s.siteTargets r.reference) := by
    have htargets : s.siteTargets r.reference = s.targetsAt r := by
      funext key
      unfold siteTargets callTargets
      rw [hmethod]
    unfold devirtualizeBody
    rw [hmethod, htargets]
  have hmem : (r.reference, s.devirtualizeBody r.reference body) ∈ s.devirtualizedBodies :=
    List.mem_filterMap.2 ⟨r, List.mem_of_getElem? (Array.getElem?_toList.trans hr), by rw [hbody]; rfl⟩
  unfold rewrittenBody
  cases hfind : s.devirtualizedBodies.find? fun e => e.1 = r.reference with
  | none => exact absurd (List.find?_eq_none.1 hfind _ hmem) (by simp)
  | some e =>
    obtain ⟨r', hr', he⟩ := List.mem_filterMap.1 (List.mem_of_find?_eq_some hfind)
    obtain ⟨body', hbody', rfl⟩ := Option.map_eq_some_iff.1 he
    have href := List.find?_some hfind
    simp only [decide_eq_true_eq] at href
    -- a method is linked once, so the body that is found is the one of this method
    obtain ⟨id', hr'⟩ := List.getElem?_of_mem hr'
    obtain rfl := h.sound.valid.methods.linked_unique
      ⟨href, id', Array.getElem?_toList.symm.trans hr'⟩ ⟨rfl, id, hr⟩
    obtain rfl := Option.some.inj (hbody.symm.trans hbody')
    exact hdevirt

theorem Solves.rewrittenBody_frame (h : Solves w o A s) {m : QualifiedMethod} (hm : s.Has (.method m)) {body : Body}
    (hb : w.catalog.body? m = some body) : (s.rewrittenBody m body).locals = body.locals ∧
      (s.rewrittenBody m body).handlers = body.handlers ∧
      (s.rewrittenBody m body).instrs = body.instrs.map (Instr.devirtualize (s.siteTargets m)) := by
  rw [h.rewrittenBody_eq hm hb]
  exact ⟨rfl, Body.handlers_mapInstrs _ _, Body.instrs_mapInstrs _ _⟩

theorem Solves.mem_methodFacts_rewritten (h : Solves w o A s) {m : QualifiedMethod}
    (hm : s.Has (.method m)) {φ : Fact} :
    φ ∈ (s.rewrittenWorld w).catalog.methodFacts o m ↔
      (∃ body, w.catalog.body? m = some body ∧ ∃ i ∈ body.instrs,
        φ ∈ w.catalog.entails o ⟨m, body.locals⟩ (i.devirtualize (s.siteTargets m))) ∨
          φ ∈ w.catalog.outline o m := by
  have hrw := s.rewrites_rewrittenWorld w
  have houtline := hrw.outline (m := m) (fun body hb =>
    ⟨(h.rewrittenBody_frame hm hb).1, (h.rewrittenBody_frame hm hb).2.1⟩) o
  rw [Catalog.mem_methodFacts, houtline, hrw.body?]
  refine or_congr_left ⟨?_, ?_⟩
  · rintro ⟨body', hb', i', hi', hφ⟩
    obtain ⟨body, hb, rfl⟩ := Option.map_eq_some_iff.1 hb'
    obtain ⟨hlocals, -, hinstrs⟩ := h.rewrittenBody_frame hm hb
    rw [hinstrs] at hi'
    obtain ⟨i, hi, rfl⟩ := List.mem_map.1 hi'
    rw [hlocals, hrw.entails] at hφ
    exact ⟨body, hb, i, hi, hφ⟩
  · rintro ⟨body, hb, i, hi, hφ⟩
    obtain ⟨hlocals, -, hinstrs⟩ := h.rewrittenBody_frame hm hb
    refine ⟨s.rewrittenBody m body, by rw [hb]; rfl, i.devirtualize (s.siteTargets m), ?_, ?_⟩
    · rw [hinstrs]
      exact List.mem_map_of_mem hi
    · rw [hlocals, hrw.entails]
      exact hφ

/-! ## The world solves the rewritten one -/

section
variable (h : Solves w o A s) (hd : Definite w s) {m : QualifiedMethod} (hm : s.Has (.method m)) {body : Body}
  (hb : w.catalog.body? m = some body) {i : Instr} (hi : i ∈ body.instrs) {v : Local} {declared : QualifiedMethod}
  (hdyn : i.declared? = some (v, declared))
include h hm hb hi hdyn

theorem Solves.has_dynamic : s.Has (.calls m ⟨v, declared.signature⟩ (.of o.precision m v declared)) ∧
    s.Has (.serves (.of o.precision m v declared) (Scene.siteOf ⟨m, body.locals⟩ i)) := by
  have hfacts : ∀ φ ∈ w.catalog.entails o ⟨m, body.locals⟩ i, s.Has φ := fun φ hφ =>
    h.closed.follows hm (Catalog.mem_methodFacts.2 (Or.inl ⟨body, hb, i, hi, hφ⟩))
  rw [Catalog.entails_of_declared hdyn] at hfacts
  exact ⟨hfacts _ List.mem_cons_self, hfacts _ (List.mem_cons_of_mem _ List.mem_cons_self)⟩

include hd in
/-- The selector of a rewritten call has the target that the call is rewritten to and no other. -/
theorem Definite.target {target : QualifiedMethod} (ht : s.siteTargets m ⟨v, declared.signature⟩ = [target])
    {t : QualifiedMethod} : s.Has (.target (.of o.precision m v declared) t) ↔ t = target := by
  have hres := h.all.resolveMethod_of_linked hm
  have hown : ∀ {t}, t ∈ s.ownTargets m v declared ↔ s.Has (.target (.of o.precision m v declared) t) := by
    intro t
    refine h.all.mem_ownTargets.trans ⟨?_, fun ht => ⟨Or.inl hm, m, hres, ht⟩⟩
    rintro ⟨-, n, hn, ht⟩
    obtain rfl := Option.some.inj (hres.symm.trans hn)
    exact ht
  have honly : ∀ {t}, s.Has (.target (.of o.precision m v declared) t) → t = target := by
    intro t hmem
    have hsite : t ∈ s.siteTargets m ⟨v, declared.signature⟩ := h.all.mem_callTargets.2
      ⟨Or.inl hm, m, _, hres, (h.has_dynamic hm hb hi hdyn).1, hmem⟩
    rw [ht] at hsite
    exact List.mem_singleton.1 hsite
  refine ⟨honly, ?_⟩
  rintro rfl
  obtain ⟨u, hu⟩ := List.length_eq_one_iff.1
    (hd m (mem_reachableMethods.2 hm) body hb i hi v declared hdyn t ht)
  have hmem := hown.1 (hu ▸ List.mem_singleton_self u)
  exact honly hmem ▸ hmem

end

theorem Definite.calling (h : Solves w o A s) (hd : Definite w s) {m : QualifiedMethod} (hm : s.Has (.method m))
    {body : Body} (hb : w.catalog.body? m = some body) {i : Instr} (hi : i ∈ body.instrs) {v : Local}
    {declared target : QualifiedMethod} (hdyn : i.declared? = some (v, declared))
    (ht : s.siteTargets m ⟨v, declared.signature⟩ = [target]) :
    ∀ φ ∈ w.catalog.calling target (Scene.siteOf ⟨m, body.locals⟩ i), s.Has φ := by
  have htarget := (hd.target h hm hb hi hdyn ht).2 rfl
  have hnamed := h.closed.link htarget
  have hlinked : s.Has (.method target) := h.sound.covered.done h.settled (d := .link target) (by
    obtain ⟨id, sel, -, hsel, hmem⟩ := htarget
    exact ⟨id, sel, hsel, hmem⟩)
  have hres := h.all.resolveMethod_of_linked hlinked
  intro φ hφ
  unfold Catalog.calling at hφ
  rw [linking_of_some hres, hres] at hφ
  rcases List.mem_append.1 hφ with hφ | hφ
  · rw [List.mem_singleton.1 hφ]
    exact hnamed
  · exact h.closed.join htarget (h.has_dynamic hm hb hi hdyn).2 hφ

theorem Definite.closed (h : Solves w o A s) (hd : Definite w s) :
    (s.rewrittenWorld w).catalog.Closed o s.Has where
  follows {φ ψ} hφ hψ := by
    by_cases hm : ∃ m, φ = .method m
    · obtain ⟨m, rfl⟩ := hm
      rcases (h.mem_methodFacts_rewritten hφ).1 hψ with ⟨body, hb, i, hi, hψ⟩ | hψ
      · rcases Instr.devirtualize_cases (s.siteTargets m) i with heq | ⟨v, declared, target, hdyn, ht, heq⟩
        · rw [heq] at hψ
          exact h.closed.follows hφ (Catalog.mem_methodFacts.2 (Or.inl ⟨body, hb, i, hi, hψ⟩))
        · rw [heq, Instr.entails_direct hdyn] at hψ
          exact hd.calling h hφ hb hi hdyn ht ψ hψ
      · exact h.closed.follows hφ (Catalog.mem_methodFacts.2 (Or.inr hψ))
    · rw [(s.rewrites_rewrittenWorld w).consequences o fun m he => hm ⟨m, he⟩] at hψ
      exact h.closed.follows hφ hψ
  carry := h.closed.carry
  aggregate := h.closed.aggregate
  gather := h.closed.gather
  attach := h.closed.attach
  choose hκ ht hm := by
    rw [Catalog.pick_congr (s.rewrites_rewrittenWorld w).answer] at hm
    exact h.closed.choose hκ ht hm
  link := h.closed.link
  join hm hκ hφ := by
    rw [(s.rewrites_rewrittenWorld w).joining] at hφ
    exact h.closed.join hm hκ hφ

/-! ## The rewritten world solves the world -/

structure SameReach (s s' : Analysis) : Prop where
  classes : ∀ n, n ∈ s.reachableClasses ↔ n ∈ s'.reachableClasses
  methods : ∀ m, m ∈ s.reachableMethods ↔ m ∈ s'.reachableMethods
  fields : ∀ f, f ∈ s.reachableFields ↔ f ∈ s'.reachableFields
  slots : ∀ m, Option.Rel (SameSlots s s') (s.method? m) (s'.method? m)
  fieldNodes : ∀ {f n n'}, s.fieldNode? f = some n → s'.fieldNode? f = some n' → SameTypes s s' n n'

/-- What a session of the rewritten world tells of a fact of the world. Edges are told by what flows along them, and
targets by the calls that lead to them; what serves the dispatch alone is not told. -/
def Tells (w : World) (o : Settings) (s' : Analysis) : Fact → Prop
  | .flow x y => ∀ t, s'.Has (.holds x t) → s'.Has (.holds y t)
  | .cls n => s'.Has (.cls n) ∨ w.find? n = none
  | .problem _ => True
  | .aggregate _ => True
  | .calls _ _ _ => True
  | .serves κ σ => Written w o s' (.serves κ σ)
  | .target κ m => s'.Has (.named m) ∧ ∀ σ, Written w o s' (.serves κ σ) → ∀ φ ∈ w.catalog.joining m σ, s'.Has φ
  | φ => s'.Has φ

section
variable (h : Solves w o A s) (h' : Solves (s.rewrittenWorld w) o A s') (hd : Definite w s)

include h' in
theorem Solves.tells {φ : Fact} (hφ : s'.Has φ) (hn : φ.chooser? = none) : Tells w o s' φ := by
  cases φ with
  | flow x y => exact fun t ht => h'.closed.carry ht hφ
  | cls n => exact Or.inl hφ
  | problem p => trivial
  | aggregate t => trivial
  | calls | serves | target => cases hn
  | _ => exact hφ

include h h' hd

theorem Definite.has {φ : Fact} (hφ : s'.Has φ) (hne : ∀ x, φ ≠ .flow x x) : s.Has φ :=
  h'.least (hd.closed h) h.asked hφ hne

theorem Definite.has_silent {m : QualifiedMethod} (hm : s'.Has (.method m)) {φ : Fact} (hn : φ.chooser? = none)
    (hφ : φ ∈ w.catalog.methodFacts o m) : s'.Has φ := by
  have hm' := hd.has h h' hm nofun
  refine h'.closed.follows hm ((h.mem_methodFacts_rewritten hm').2 ?_)
  rcases Catalog.mem_methodFacts.1 hφ with ⟨body, hb, i, hi, hφ⟩ | hφ
  · refine Or.inl ⟨body, hb, i, hi, ?_⟩
    rcases Instr.devirtualize_cases (s.siteTargets m) i with heq | ⟨v, declared, target, hdyn, -, -⟩
    · rwa [heq]
    · -- a dynamic call speaks of its chooser only
      rw [Catalog.entails_of_declared hdyn] at hφ
      rcases List.mem_cons.1 hφ with rfl | hφ
      · cases hn
      · rw [List.mem_singleton.1 hφ] at hn
        cases hn
  · exact Or.inr hφ

/-- A call runs in the rewritten world what it runs on a receiver that its selector has there. -/
theorem Definite.runs {κ : Chooser} {σ : SlotSite} (hκ : Written w o s' (.serves κ σ)) {t : ExactType}
    (ht : s'.Has (.holds κ.feed t)) {target : QualifiedMethod}
    (hpick : w.catalog.pick κ.declared κ.filter? t = some target) :
    s'.Has (.named target) ∧ ∀ φ ∈ w.catalog.joining target σ, s'.Has φ := by
  obtain ⟨m, hm, hwritten⟩ := hκ
  obtain ⟨body, i, v, declared, hb, hi, hdyn, rfl, rfl⟩ := Catalog.call_of_serves hwritten
  have hrw := s.rewrites_rewrittenWorld w
  have hm' := hd.has h h' hm nofun
  have hentails : ∀ φ ∈ w.catalog.entails o ⟨m, body.locals⟩ (i.devirtualize (s.siteTargets m)), s'.Has φ :=
    fun φ hφ => h'.closed.follows hm ((h.mem_methodFacts_rewritten hm').2 (Or.inl ⟨body, hb, i, hi, hφ⟩))
  rcases Instr.devirtualize_cases (s.siteTargets m) i with heq | ⟨v', declared', target', hdyn', htargets, heq⟩
  · -- the call is as it was, and so is its selector
    rw [heq, Catalog.entails_of_declared hdyn] at hentails
    have hserves := hentails _ (List.mem_cons_of_mem _ List.mem_cons_self)
    have htarget := h'.closed.choose hserves ht ((Catalog.pick_congr hrw.answer _ _ _).trans hpick)
    refine ⟨h'.closed.link htarget, fun φ hφ => ?_⟩
    rw [← hrw.joining] at hφ
    exact h'.closed.join htarget hserves hφ
  · -- the call is direct, to what the selector picked for every receiver
    obtain ⟨rfl, rfl⟩ := Prod.mk.inj (Option.some.inj (hdyn.symm.trans hdyn'))
    have hserves := (h.has_dynamic hm' hb hi hdyn).2
    have htarget := h.closed.choose hserves (hd.has h h' ht nofun) hpick
    obtain rfl := (hd.target h hm' hb hi hdyn htargets).1 htarget
    rw [heq, Instr.entails_direct hdyn, Catalog.calling, linking_of_some (resolveMethod_of_pick hpick),
      resolveMethod_of_pick hpick] at hentails
    exact ⟨hentails _ List.mem_cons_self, fun φ hφ => hentails φ (List.mem_cons_of_mem _ hφ)⟩

theorem Definite.closed_tells : w.catalog.Closed o (Tells w o s') := by
  have hrw := s.rewrites_rewrittenWorld w
  have hsame : ∀ φ, s'.Has φ → (∀ m, φ ≠ .method m) → ∀ ψ ∈ w.catalog.consequences o φ, Tells w o s' ψ := by
    intro φ hφ hm ψ hψ
    have hn := w.catalog.silent_consequences o hm ψ hψ
    rw [← hrw.consequences o hm] at hψ
    exact h'.tells (h'.closed.follows hφ hψ) hn
  exact
    { follows := fun {φ ψ} hφ hψ => by
        cases φ with
        | cls n =>
          rcases hφ with hφ | hnone
          · exact hsame _ hφ (by simp) ψ hψ
          · have hmissing : ψ = .problem (.missingClass n) := by
              simpa only [Catalog.consequences, World.catalog, hnone, List.mem_singleton] using hψ
            rw [hmissing]
            trivial
        | initialized n => exact hsame (.initialized n) hφ (by simp) ψ hψ
        | named m => exact hsame (.named m) hφ (by simp) ψ hψ
        | field x => exact hsame (.field x) hφ (by simp) ψ hψ
        | pool k => exact hsame (.pool k) hφ (by simp) ψ hψ
        | aggregate t =>
          rcases Catalog.mem_wiring hψ with ⟨n, rfl, hnone⟩ | ⟨y, rfl⟩ | ⟨u, rfl⟩
          · exact Or.inr hnone
          · -- an aggregate that holds something is there, and connected
            intro u hu
            have hthere : s'.Has (.aggregate t) := Table.mem_keys_of_find? hu.choose_spec.1
            exact hsame (.aggregate t) hthere (by simp) _ hψ u hu
          · trivial
        | method m =>
          cases ψ with
          | calls => trivial
          | serves κ σ => exact ⟨m, hφ, hψ⟩
          | target κ n => exact absurd hψ Catalog.not_target_mem_methodFacts
          | _ => exact h'.tells (hd.has_silent h h' hφ rfl hψ) rfl
        | _ => cases hψ
      carry := fun ht hf => hf _ ht
      aggregate := fun {t φ} ht hφ => by
        rw [Fact.eq_of_mem_gathering hφ]
        trivial
      gather := fun ht => h'.closed.gather ht
      attach := fun {κ site φ} hκ hn hφ => by
        rw [Fact.eq_of_mem_gathering hφ]
        trivial
      choose := fun {κ site t m} hκ ht hm => by
        exact ⟨(hd.runs h h' hκ ht hm).1, fun σ hσ => (hd.runs h h' hσ ht hm).2⟩
      link := fun hm => hm.1
      join := fun {κ site m φ} hm hκ hφ =>
        h'.tells (hm.2 site hκ φ hφ) (w.catalog.silent_joining m site φ hφ) }

theorem Definite.told (hA : Fact.Silent A) {φ : Fact} (hφ : s.Has φ) (hne : ∀ x, φ ≠ .flow x x) : Tells w o s' φ :=
  h.least (hd.closed_tells h h') (fun ψ hψ => h'.tells (h'.asked ψ hψ) (hA ψ hψ)) hφ hne

omit hd in
theorem Solves.localCount_rewritten {m : QualifiedMethod} {r r' : MethodRecord} (hr : s.Linked m r)
    (hr' : s'.Linked m r') : r.localCount = r'.localCount := by
  have hm : s.Has (.method m) := ⟨r, hr⟩
  obtain ⟨rfl, id, hget⟩ := hr
  obtain ⟨href, id', hget'⟩ := hr'
  have hdef := h'.all.method? hget'
  rw [href, (s.rewrites_rewrittenWorld w).method?, h.all.method? hget, Option.map_some] at hdef
  rw [MethodRecord.localCount, MethodRecord.localCount, ← Option.some.inj hdef]
  cases hb : r.definition.body? with
  | none => simp only [MethodDef.mapBody, hb, Option.map_none]
  | some body =>
    have hbody : w.catalog.body? r.reference = some body := by
      unfold Catalog.body?
      rw [h.all.method? hget, Option.bind_some, hb]
    simp only [MethodDef.mapBody, hb, Option.map_some, (h.rewrittenBody_frame hm hbody).1]

theorem Definite.sameReach (hA : Fact.Silent A) : SameReach s s' := by
  have htypes : ∀ {x n n'}, s.StandsFor n x → s'.StandsFor n' x → SameTypes s s' n n' := by
    intro x n n' hn hn' t
    rw [mem_typesAt_iff h.sound.valid hn, mem_typesAt_iff h'.sound.valid hn']
    exact ⟨fun ht => hd.told h h' hA ht nofun, fun ht => hd.has h h' ht nofun⟩
  have hnamed : ∀ m, s.Has (.named m) ↔ s'.Has (.named m) := fun m =>
    ⟨fun hm => hd.told h h' hA hm nofun, fun hm => hd.has h h' hm nofun⟩
  exact
    { classes := fun n => by
        rw [h.all.mem_reachableClasses, h'.all.mem_reachableClasses]
        constructor
        · rintro ⟨hn, hw⟩
          refine ⟨(hd.told h h' hA hn nofun).resolve_right fun hnone => ?_, ?_⟩
          · rw [hnone] at hw
            cases hw
          · exact ((s.rewrites_rewrittenWorld w).isSome n).trans hw
        · rintro ⟨hn, hw⟩
          exact ⟨hd.has h h' hn nofun, ((s.rewrites_rewrittenWorld w).isSome n).symm.trans hw⟩
      methods := fun m => by
        rw [mem_reachableMethods, mem_reachableMethods]
        exact ⟨fun hm => hd.told h h' hA hm nofun, fun hm => hd.has h h' hm nofun⟩
      fields := fun x => by
        rw [mem_reachableFields, mem_reachableFields]
        exact ⟨fun hx => hd.told h h' hA hx nofun, fun hx => hd.has h h' hx nofun⟩
      slots := fun m => by
        have hsome := hnamed m
        rw [← method?_isSome h.sound.valid, ← method?_isSome h'.sound.valid] at hsome
        cases hm : s.method? m with
        | none =>
          cases hm' : s'.method? m with
          | none => exact .none
          | some r' => simp [hm, hm'] at hsome
        | some r =>
          cases hm' : s'.method? m with
          | none => simp [hm, hm'] at hsome
          | some r' =>
            obtain ⟨hr, hres⟩ := h.all.resolveMethod_of_method? hm
            obtain ⟨hr', hres'⟩ := h'.all.resolveMethod_of_method? hm'
            rw [Catalog.resolveMethod_congr (s.rewrites_rewrittenWorld w).answer] at hres'
            rw [← Option.some.inj (hres.symm.trans hres')] at hr'
            exact .some (h.all.aligned h'.all hr hr' (h.sound.processed h.settled hr)
              (h'.sound.processed h'.settled hr') (h.localCount_rewritten h' hr hr') htypes).sameSlots
      fieldNodes := fun {x n n'} hn hn' => by
        obtain ⟨record, hx, rfl⟩ := Option.map_eq_some_iff.1 hn
        obtain ⟨record', hx', rfl⟩ := Option.map_eq_some_iff.1 hn'
        have hslot := (h'.all.fieldSlot hx').2
        rw [(s.rewrites_rewrittenWorld w).fieldSlot] at hslot
        exact htypes (h.all.fieldSlot hx).2 hslot }

end

theorem introduced_congr {c c' : Catalog} (h : ∀ m, c'.resolveMethod m = c.resolveMethod m)
    {entered : List QualifiedMethod} {requests : List Request} (hi : Introduced c entered requests) :
    Introduced c' entered requests := by
  induction requests generalizing entered with
  | nil => trivial
  | cons q requests ih =>
    cases q with
    | entry m => exact ih hi
    | seed m index t =>
      obtain ⟨⟨n, hn, hm⟩, hi⟩ := hi
      exact ⟨⟨n, hn, hm.imp_right fun hres => (h n).trans hres⟩, ih hi⟩
    | settle => exact ih hi

/-- Calls that are rewritten to the only target of their own selector leave what is reachable, and the types that it
holds, as they were. -/
theorem same_of_rewritten (w : World) (o : Settings) (requests : List Request)
    (hi : Introduced w.catalog [] requests)
    (hs : ((Analysis.new w o).after (requests.map Request.command)).isSettled)
    (hd : Definite w ((Analysis.new w o).after (requests.map Request.command))) :
    SameReach ((Analysis.new w o).after (requests.map Request.command))
      ((Analysis.new (((Analysis.new w o).after (requests.map Request.command)).rewrittenWorld w) o).answer
        requests) := by
  have h := solves_after hi hs
  generalize (Analysis.new w o).after (requests.map Request.command) = s at *
  have hrw := s.rewrites_rewrittenWorld w
  have h' := solves_answer (o := o) (introduced_congr (Catalog.resolveMethod_congr hrw.answer) hi)
  rw [funext hrw.asking] at h'
  exact hd.sameReach h h' (Fact.silent_flatMap requests w.catalog.silent_asking)

set_option maxRecDepth 100000 in
theorem same_of_rewritten_sampleMain :
    (((Analysis.new sampleWorld {}).after [.entry sampleMain, .settle]).rewrittenWorld sampleWorld).catalog.body?
        sampleMain = some (sampleBody.mapInstrs fun i => i.direct sampleRun) ∧
      SameReach ((Analysis.new sampleWorld {}).after [.entry sampleMain, .settle])
        ((Analysis.new (((Analysis.new sampleWorld {}).after
          [.entry sampleMain, .settle]).rewrittenWorld sampleWorld) {}).answer [.entry sampleMain, .settle]) := by
  have hsettled : ((Analysis.new sampleWorld {}).after [.entry sampleMain, .settle]).isSettled = true := by
    decide +kernel
  have hown : ∀ m ∈ ((Analysis.new sampleWorld {}).after [.entry sampleMain, .settle]).reachableMethods,
      ∀ body ∈ sampleWorld.catalog.body? m, ∀ i ∈ body.instrs, ∀ d ∈ i.declared?,
      (((Analysis.new sampleWorld {}).after [.entry sampleMain, .settle]).ownTargets m d.1 d.2).length = 1 := by
    decide +kernel
  refine ⟨by decide +kernel, same_of_rewritten sampleWorld {} [.entry sampleMain, .settle] trivial hsettled ?_⟩
  exact fun m hm body hb i hi v declared hd _ _ => hown m hm body hb i hi (v, declared) hd

end Analysis

end TypeFlow
