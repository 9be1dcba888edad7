import TypeFlow.Analysis.Result
import TypeFlow.Proofs.Solution.Least

/-!
# Order independence

Entry points, types of their parameters and runs may come in any order: at the
end the analysis has the facts of the least closed set that contains what was
asked for, and the order leaves no trace in them. Node numbers, selectors and
the order of records may differ, so results are compared by what they tell.
-/

namespace TypeFlow

namespace Analysis

/-! ## Requests -/

inductive Request where
  | entry (m : QualifiedMethod)
  | seed (m : QualifiedMethod) (index : Nat) (t : ExactType)
  | settle
  deriving DecidableEq

def Request.command : Request → Command
  | entry m => .entry m
  | seed m index t => .seed m index t
  | settle => .settle

def answer (s : Analysis) (requests : List Request) : Analysis := (s.after (requests.map Request.command)).settle

/-- Whether each parameter type is given to a method that is an entry point
already, by this name or by one that leads to it; `entered` are the entry
points of before. -/
def Introduced (c : Catalog) (entered : List QualifiedMethod) : List Request → Prop
  | [] => True
  | .entry m :: rest => Introduced c (m :: entered) rest
  | .seed m _ _ :: rest => (∃ n ∈ entered, n = m ∨ c.resolveMethod n = some m) ∧ Introduced c entered rest
  | .settle :: rest => Introduced c entered rest

/-! ## Results -/

def SameTypes (s s' : Analysis) (n n' : NodeId) : Prop := ∀ t, t ∈ s.graph.typesAt n ↔ t ∈ s'.graph.typesAt n'

structure SameSlots (s s' : Analysis) (r r' : MethodRecord) : Prop where
  params : List.Forall₂ (SameTypes s s') r.params r'.params
  result : SameTypes s s' r.result r'.result
  thrown : SameTypes s s' r.thrown r'.thrown
  locals : List.Forall₂ (SameTypes s s') r.locals.toList r'.locals.toList

structure SameResults (s s' : Analysis) : Prop where
  classes : ∀ n, n ∈ s.reachableClasses ↔ n ∈ s'.reachableClasses
  methods : ∀ m, m ∈ s.reachableMethods ↔ m ∈ s'.reachableMethods
  fields : ∀ f, f ∈ s.reachableFields ↔ f ∈ s'.reachableFields
  initialized : ∀ n, (s.classes.find? n).any ClassRecord.initialized =
    (s'.classes.find? n).any ClassRecord.initialized
  problems : ∀ p, p ∈ s.problems ↔ p ∈ s'.problems
  slots : ∀ m, Option.Rel (SameSlots s s') (s.method? m) (s'.method? m)
  fieldNodes : ∀ {f n n'}, s.fieldNode? f = some n → s'.fieldNode? f = some n' → SameTypes s s' n n'
  aggregates : ∀ {t n n'}, s.aggregate? t = some n → s'.aggregate? t = some n' → SameTypes s s' n n'
  targets : ∀ m v sig target, target ∈ s.callTargets m v sig ↔ target ∈ s'.callTargets m v sig

end Analysis

def Catalog.asking (c : Catalog) : Analysis.Request → List Fact
  | .entry m => c.starting m
  | .seed m index t => c.seeding m index t
  | .settle => []

namespace Analysis

variable {w : World} {o : Settings} {K K' : Fact → Prop} {Γ Γ' : List Fact} {s s' : Analysis} {L L' : NodeId → Slot}

/-! ## What an answer has -/

/-- A name that leads to an entry point is a name of it. -/
theorem Grounded.named (h : Grounded w o K Γ s) {n m : QualifiedMethod} (hn : ∀ φ ∈ w.catalog.starting n, s.Has φ)
    (hm : n = m ∨ w.catalog.resolveMethod n = some m) {target : QualifiedMethod}
    (ht : w.catalog.resolveMethod m = some target) : s.Has (.named m) := by
  have hlinking : ∀ {target}, w.catalog.resolveMethod n = some target → s.Has (.named n) := by
    intro target hres
    refine hn _ (List.mem_append_left _ ?_)
    rw [linking_of_some hres]
    exact List.mem_cons_self
  rcases hm with rfl | hm
  · exact hlinking ht
  · refine ((h.kept _ (hlinking hm)).resolve_left id) _ ?_
    rw [Catalog.consequences, hm]
    exact List.mem_cons_of_mem _ (List.mem_cons_of_mem _ List.mem_cons_self)

theorem Grounded.after (h : Grounded w o K Γ s) (hK : w.catalog.Closed o K) {requests : List Request}
    {entered : List QualifiedMethod} (hi : Introduced w.catalog entered requests)
    (he : ∀ n ∈ entered, ∀ φ ∈ w.catalog.starting n, s.Has φ)
    (hq : ∀ φ ∈ requests.flatMap w.catalog.asking, K φ) :
    Brings w o K Γ (requests.flatMap w.catalog.asking) s (s.after (requests.map Request.command)) := by
  induction requests generalizing s entered with
  | nil => exact .refl h
  | cons q requests ih =>
    rw [List.flatMap_cons] at hq ⊢
    have hfirst : Brings w o K Γ (w.catalog.asking q) s (s.command q.command) := by
      have hasked : ∀ φ ∈ w.catalog.asking q, K φ := fun φ hφ => hq φ (List.mem_append_left _ hφ)
      cases q with
      | entry m => exact h.entry hK hasked
      | seed m index t =>
        obtain ⟨⟨n, hn, hm⟩, -⟩ := hi
        obtain ⟨hseed, hhas⟩ := h.seed hK hasked
        refine hseed.mono fun φ hφ => ?_
        have hseeding : φ ∈ w.catalog.seeding m index t := hφ
        cases ht : w.catalog.resolveMethod m with
        | none =>
          rw [Catalog.seeding, ht] at hseeding
          exact absurd hseeding List.not_mem_nil
        | some target => exact hhas (h.named (he n hn) hm ht) φ hφ
      | settle => exact h.settle hK
    have hkept : ∀ n ∈ entered, ∀ φ ∈ w.catalog.starting n, (s.command q.command).Has φ :=
      fun n hn φ hφ => hfirst.leads.has (he n hn φ hφ)
    have hrest : ∃ entered', Introduced w.catalog entered' requests ∧
        ∀ n ∈ entered', ∀ φ ∈ w.catalog.starting n, (s.command q.command).Has φ := by
      cases q with
      | entry m => exact ⟨m :: entered, hi, List.forall_mem_cons.2 ⟨hfirst.has, hkept⟩⟩
      | seed m index t => exact ⟨entered, hi.2, hkept⟩
      | settle => exact ⟨entered, hi, hkept⟩
    obtain ⟨entered', hi', he'⟩ := hrest
    exact hfirst.append (ih hfirst.grounded hi' he' fun φ hφ => hq φ (List.mem_append_right _ hφ))

theorem grounded_answer (hK : w.catalog.Closed o K) {requests : List Request}
    (hi : Introduced w.catalog [] requests) (hq : ∀ φ ∈ requests.flatMap w.catalog.asking, K φ) :
    Brings w o K [] (requests.flatMap w.catalog.asking) (Analysis.new w o)
      ((Analysis.new w o).answer requests) := by
  have hafter := (grounded_new w o K).after hK hi (fun _ hn => absurd hn List.not_mem_nil) hq
  exact hafter.before (hafter.grounded.settle hK)

theorem sound_answer (w : World) (o : Settings) (requests : List Request) :
    ((Analysis.new w o).answer requests).Sound ∧ ((Analysis.new w o).answer requests).isSettled := by
  have hafter := (sound_new w o).after (requests.map Request.command)
  exact ⟨hafter.settle.1, isSettled_settle hafter⟩

/-- The set of all facts is closed. -/
theorem closed_true (c : Catalog) (o : Settings) : c.Closed o fun _ => True where
  follows _ _ := trivial
  carry _ _ := trivial
  aggregate _ _ := trivial
  gather _ := trivial
  attach _ _ _ := trivial
  choose _ _ _ := trivial
  link _ := trivial
  join _ _ _ := trivial

/-- What one answer has the other has when it was asked for as much: it is a closed set. -/
theorem has_of_answer {a b : List Request} (ha : Introduced w.catalog [] a) (hb : Introduced w.catalog [] b)
    (hab : ∀ q ∈ a, q ≠ .settle → q ∈ b) {φ : Fact} (hφ : ((Analysis.new w o).answer a).Has φ) :
    ((Analysis.new w o).answer b).Has φ ∨ ∃ x, φ = .flow x x := by
  have hother := grounded_answer (closed_true w.catalog o) hb fun _ _ => trivial
  obtain ⟨hsound, hsettled⟩ := sound_answer w o b
  have hK := hother.grounded.closed hsound hsettled
  refine (grounded_answer hK ha fun ψ hψ => ?_).grounded.mem hφ
  obtain ⟨q, hq, hψ⟩ := List.mem_flatMap.1 hψ
  by_cases hsettle : q = .settle
  · rw [hsettle] at hψ
    exact absurd hψ List.not_mem_nil
  · exact hother.has ψ (List.mem_flatMap.2 ⟨q, hab q hq hsettle, hψ⟩)

/-! ## Results are facts -/

theorem mem_reachableMethods {m : QualifiedMethod} : m ∈ s.reachableMethods ↔ s.Has (.method m) := by
  unfold reachableMethods
  constructor
  · intro hm
    obtain ⟨r, hr, rfl⟩ := List.mem_map.1 hm
    obtain ⟨id, hid⟩ := List.getElem?_of_mem hr
    exact ⟨r, rfl, id, Array.getElem?_toList.symm.trans hid⟩
  · rintro ⟨r, rfl, id, hr⟩
    exact List.mem_map.2 ⟨r, List.mem_of_getElem? (Array.getElem?_toList.trans hr), rfl⟩

theorem mem_reachableFields {f : QualifiedField} : f ∈ s.reachableFields ↔ s.Has (.field f) := by
  unfold reachableFields
  constructor
  · intro hf
    obtain ⟨⟨g, r⟩, he, hg⟩ := List.mem_filterMap.1 hf
    obtain ⟨heq, hgf⟩ := Option.ite_none_right_eq_some.1 hg
    cases hgf
    exact ⟨r.node, (Table.find?_eq_some_iff.2 he).trans (by rw [heq])⟩
  · rintro ⟨n, hn⟩
    exact List.mem_filterMap.2 ⟨_, Table.find?_eq_some_iff.1 hn, if_pos rfl⟩

theorem Grounded.mem_reachableClasses (h : Grounded w o K Γ s) {n : ClassName} :
    n ∈ s.reachableClasses ↔ s.Has (.cls n) ∧ (w.find? n).isSome := by
  unfold reachableClasses
  constructor
  · intro hn
    obtain ⟨⟨k, r⟩, he, hk⟩ := List.mem_filterMap.1 hn
    have hr := Table.find?_eq_some_iff.2 he
    have hmissing := (h.sourced.classes hr).2.2
    simp only [] at hk
    split at hk
    · cases hk
    · next hpresent =>
      cases hk
      rw [hmissing, Option.isNone_iff_eq_none] at hpresent
      exact ⟨mem_keys_of_classes.2 ⟨r, hr⟩, Option.isSome_iff_ne_none.2 hpresent⟩
  · rintro ⟨hn, hw⟩
    obtain ⟨r, hr⟩ := mem_keys_of_classes.1 hn
    have hmissing := (h.sourced.classes hr).2.2
    refine List.mem_filterMap.2 ⟨(n, r), Table.find?_eq_some_iff.1 hr, ?_⟩
    simp only []
    rw [if_neg]
    rw [hmissing, Option.isNone_iff_eq_none]
    exact Option.isSome_iff_ne_none.1 hw

theorem any_initialized {n : ClassName} :
    (s.classes.find? n).any ClassRecord.initialized ↔ s.Has (.initialized n) := by
  constructor
  · intro hn
    cases hr : s.classes.find? n with
    | none =>
      rw [hr] at hn
      cases hn
    | some r =>
      rw [hr] at hn
      exact ⟨r, hr, hn⟩
  · rintro ⟨r, hr, hi⟩
    rw [hr]
    exact hi

theorem mem_typesAt_iff (hv : s.Valid) {n : NodeId} {x : Slot} (hn : s.StandsFor n x) {t : ExactType} :
    t ∈ s.graph.typesAt n ↔ s.Has (.holds x t) := by
  constructor
  · exact fun ht => ⟨n, hn, ht⟩
  · rintro ⟨n', hn', ht⟩
    exact hv.methods.standsFor_unique hn' hn ▸ ht

/-- The targets of a call are those of the choosers that it was noted with. -/
theorem Grounded.mem_callTargets (h : Grounded w o K Γ s) {m target : QualifiedMethod}
    {v : Local} {sig : Signature} :
    target ∈ s.callTargets m v sig ↔ s.Has (.named m) ∧ ∃ n κ, w.catalog.resolveMethod m = some n ∧
      s.Has (.calls n ⟨v, sig⟩ κ) ∧ s.Has (.target κ target) := by
  unfold callTargets targetsAt
  constructor
  · intro ht
    cases hm : s.method? m with
    | none =>
      rw [hm] at ht
      exact absurd ht List.not_mem_nil
    | some r =>
      rw [hm, OrderedSet.mem_toList, OrderedSet.mem_ofList] at ht
      obtain ⟨hlinked, hres⟩ := h.resolveMethod_of_method? hm
      obtain ⟨id, hid, ht⟩ := List.mem_flatMap.1 ht
      split at ht
      · next sel hsel =>
        obtain ⟨key, hk⟩ := h.valid.selectors.keyed hsel
        obtain ⟨κ, hκ⟩ := h.valid.exists_chosen hk
        refine ⟨(method?_isSome h.valid).1 (Option.isSome_iff_exists.2 ⟨r, hm⟩), r.reference, κ, hres,
          ⟨r, hlinked, id, hid, key, hk, hκ⟩, id, sel, ⟨key, hk, hκ⟩, hsel, ht⟩
      · exact absurd ht List.not_mem_nil
  · rintro ⟨hnamed, n, κ, hres, ⟨r, hr, id, hid, hκ⟩, id', sel, hκ', hsel, ht⟩
    obtain ⟨r', hm⟩ := Option.isSome_iff_exists.1 ((method?_isSome h.valid).2 hnamed)
    obtain ⟨hlinked, hres'⟩ := h.resolveMethod_of_method? hm
    obtain rfl := Option.some.inj (hres.symm.trans hres')
    obtain rfl := h.valid.methods.linked_unique hlinked hr
    obtain rfl := h.valid.answers_unique hκ hκ'
    rw [hm, OrderedSet.mem_toList, OrderedSet.mem_ofList]
    refine List.mem_flatMap.2 ⟨id, hid, ?_⟩
    rw [hsel]
    exact ht

/-! ## Nodes of the same method -/

/-- Whether the nodes of two records of a method are related, each to the one that stands for the same. -/
structure Aligned (R : NodeId → NodeId → Prop) (r r' : MethodRecord) : Prop where
  params : List.Forall₂ R r.params r'.params
  result : R r.result r'.result
  thrown : R r.thrown r'.thrown
  locals : List.Forall₂ R r.locals.toList r'.locals.toList

theorem Aligned.sameSlots {r r' : MethodRecord} (h : Aligned (SameTypes s s') r r') : SameSlots s s' r r' :=
  ⟨h.params, h.result, h.thrown, h.locals⟩

theorem forall₂_of_labels {R : NodeId → NodeId → Prop} (hL : s.Labelled K L) (hL' : s'.Labelled K' L')
    (hR : ∀ {x n n'}, s.StandsFor n x → s'.StandsFor n' x → R n n') {l l' : List NodeId} (hl : ∀ n ∈ l, s.Plain n)
    (hl' : ∀ n ∈ l', s'.Plain n) (heq : l.map L = l'.map L') : List.Forall₂ R l l' := by
  induction l generalizing l' with
  | nil =>
    obtain rfl := List.map_eq_nil_iff.1 heq.symm
    exact .nil
  | cons n l ih =>
    cases l' with
    | nil => cases heq
    | cons n' l' =>
      obtain ⟨hhead, htail⟩ := List.cons.inj heq
      have hn := hL.slot (hl n List.mem_cons_self).1
      have hn' := hL'.slot (hl' n' List.mem_cons_self).1
      rw [hhead] at hn
      exact .cons (hR hn hn') (ih (fun k hk => hl k (List.mem_cons_of_mem _ hk))
        (fun k hk => hl' k (List.mem_cons_of_mem _ hk)) htail)

theorem RecordValid.plain_locals {r : MethodRecord} (h : s.RecordValid r) : ∀ n ∈ r.locals.toList, s.Plain n := by
  intro n hn
  obtain ⟨v, hv⟩ := List.getElem?_of_mem hn
  exact h.locals (Array.getElem?_toList.symm.trans hv)

/-- The records of a method in two analyses of a world have as many nodes for local variables. -/
theorem Grounded.localCount_eq {o' : Settings} (hg : Grounded w o K Γ s) (hg' : Grounded w o' K' Γ' s')
    {m : QualifiedMethod} {r r' : MethodRecord} (hr : s.Linked m r) (hr' : s'.Linked m r') :
    r.localCount = r'.localCount := by
  obtain ⟨rfl, id, hget⟩ := hr
  obtain ⟨href, id', hget'⟩ := hr'
  have hdef := hg'.method? hget'
  rw [href, hg.method? hget] at hdef
  rw [MethodRecord.localCount, MethodRecord.localCount, Option.some.inj hdef]

/-- The records of a method in two analyses are related when all nodes are that stand for the same. -/
theorem Grounded.aligned {w' : World} {o' : Settings} (hg : Grounded w o K Γ s) (hg' : Grounded w' o' K' Γ' s')
    {m : QualifiedMethod} {r r' : MethodRecord} (hr : s.Linked m r) (hr' : s'.Linked m r') (hp : r.processed = true)
    (hp' : r'.processed = true) (hcount : r.localCount = r'.localCount) {R : NodeId → NodeId → Prop}
    (hR : ∀ {x n n'}, s.StandsFor n x → s'.StandsFor n' x → R n n') : Aligned R r r' := by
  obtain ⟨L, hL⟩ := hg.labelled
  obtain ⟨L', hL'⟩ := hg'.labelled
  obtain ⟨hm, id, hget⟩ := hr
  obtain ⟨hm', id', hget'⟩ := hr'
  have hrecord := hg.valid.methods.record hget
  have hrecord' := hg'.valid.methods.record hget'
  have hsize : r.locals.size = r'.locals.size := by
    rw [(hg.sourced.methods hget).2.2 hp, (hg'.sourced.methods hget').2.2 hp', hcount]
  exact
    { params := forall₂_of_labels hL hL' hR hrecord.params hrecord'.params
        (by rw [hL.params hg.valid hget, hL'.params hg'.valid hget', hm, hm'])
      result := hR (x := .result m) ⟨r, ⟨hm, id, hget⟩, rfl⟩ ⟨r', ⟨hm', id', hget'⟩, rfl⟩
      thrown := hR (x := .thrown m) ⟨r, ⟨hm, id, hget⟩, rfl⟩ ⟨r', ⟨hm', id', hget'⟩, rfl⟩
      locals := forall₂_of_labels hL hL' hR hrecord.plain_locals hrecord'.plain_locals
        (by rw [hL.locals ⟨hm, id, hget⟩, hL'.locals ⟨hm', id', hget'⟩, hsize]) }

/-! ## Equal facts, equal results -/

/-- Whether two analyses have the same facts, edges from a slot to itself aside. -/
def Agree (s s' : Analysis) : Prop := ∀ φ, (∀ x, φ ≠ .flow x x) → (s.Has φ ↔ s'.Has φ)

theorem Agree.sameTypes (h : s.Agree s') (hv : s.Valid) (hv' : s'.Valid) {n n' : NodeId} {x : Slot}
    (hn : s.StandsFor n x) (hn' : s'.StandsFor n' x) : SameTypes s s' n n' := by
  intro t
  rw [mem_typesAt_iff hv hn, mem_typesAt_iff hv' hn']
  exact h _ nofun

theorem Agree.sameSlots (h : s.Agree s') (hg : Grounded w o K Γ s)
    (hg' : Grounded w o K' Γ' s') {m : QualifiedMethod}
    {r r' : MethodRecord} (hr : s.Linked m r) (hr' : s'.Linked m r') (hp : r.processed = true)
    (hp' : r'.processed = true) : SameSlots s s' r r' := by
  have hcount := hg.localCount_eq hg' hr hr'
  exact (hg.aligned hg' hr hr' hp hp' hcount fun hn hn' => h.sameTypes hg.valid hg'.valid hn hn').sameSlots

theorem Agree.sameResults (h : s.Agree s') (hg : Grounded w o K Γ s) (hg' : Grounded w o K' Γ' s')
    (hsound : s.Sound) (hsound' : s'.Sound) (hs : s.isSettled) (hs' : s'.isSettled) : SameResults s s' where
  classes n := by
    rw [hg.mem_reachableClasses, hg'.mem_reachableClasses, h (.cls n) nofun]
  methods m := by
    rw [mem_reachableMethods, mem_reachableMethods, h (.method m) nofun]
  fields f := by
    rw [mem_reachableFields, mem_reachableFields, h (.field f) nofun]
  initialized n := by
    rw [Bool.eq_iff_iff, any_initialized, any_initialized, h (.initialized n) nofun]
  problems p := h (.problem p) nofun
  slots m := by
    have hnamed : (s.method? m).isSome ↔ (s'.method? m).isSome := by
      rw [method?_isSome hg.valid, method?_isSome hg'.valid, h (.named m) nofun]
    cases hm : s.method? m with
    | none =>
      cases hm' : s'.method? m with
      | none => exact .none
      | some r' => simp [hm, hm'] at hnamed
    | some r =>
      cases hm' : s'.method? m with
      | none => simp [hm, hm'] at hnamed
      | some r' =>
        obtain ⟨hr, hres⟩ := hg.resolveMethod_of_method? hm
        obtain ⟨hr', hres'⟩ := hg'.resolveMethod_of_method? hm'
        rw [← Option.some.inj (hres.symm.trans hres')] at hr'
        exact .some (h.sameSlots hg hg' hr hr' (hsound.processed hs hr) (hsound'.processed hs' hr'))
  fieldNodes {f n n'} hn hn' := by
    obtain ⟨record, hf, rfl⟩ := Option.map_eq_some_iff.1 hn
    obtain ⟨record', hf', rfl⟩ := Option.map_eq_some_iff.1 hn'
    exact h.sameTypes hg.valid hg'.valid (hg.fieldSlot hf).2 (hg'.fieldSlot hf').2
  aggregates ht ht' := h.sameTypes hg.valid hg'.valid (standsFor_ofAggregate.2 ht) (standsFor_ofAggregate.2 ht')
  targets m v sig target := by
    have hcalls : ∀ n κ, s.Has (.calls n ⟨v, sig⟩ κ) ↔ s'.Has (.calls n ⟨v, sig⟩ κ) := fun n κ => h _ nofun
    have htarget : ∀ κ, s.Has (.target κ target) ↔ s'.Has (.target κ target) := fun κ => h _ nofun
    rw [hg.mem_callTargets, hg'.mem_callTargets, h (.named m) nofun]
    simp only [hcalls, htarget]

/-! ## Order independence -/

/-- Two new analyses of a world that are asked for the same entry points and the
same types of their parameters, in whatever order and with runs anywhere in
between, end with the same results. -/
theorem order_independent (w : World) (o : Settings) {a b : List Request} (ha : Introduced w.catalog [] a)
    (hb : Introduced w.catalog [] b) (hab : ∀ q, q ≠ .settle → (q ∈ a ↔ q ∈ b)) :
    SameResults ((Analysis.new w o).answer a) ((Analysis.new w o).answer b) := by
  have hagree : ((Analysis.new w o).answer a).Agree ((Analysis.new w o).answer b) := by
    intro φ hφ
    constructor
    · intro h
      exact (has_of_answer ha hb (fun q hq hne => (hab q hne).1 hq) h).resolve_right fun ⟨x, hx⟩ => hφ x hx
    · intro h
      exact (has_of_answer hb ha (fun q hq hne => (hab q hne).2 hq) h).resolve_right fun ⟨x, hx⟩ => hφ x hx
  have hga := (grounded_answer (closed_true w.catalog o) ha fun _ _ => trivial).grounded
  have hgb := (grounded_answer (closed_true w.catalog o) hb fun _ _ => trivial).grounded
  obtain ⟨hsa, hta⟩ := sound_answer w o a
  obtain ⟨hsb, htb⟩ := sound_answer w o b
  exact hagree.sameResults hga hgb hsa hsb hta htb

/-- The callee may be an entry point before its caller, with a run before anything leads to it. -/
theorem order_independent_sampleRun :
    SameResults ((Analysis.new sampleWorld {}).answer
        [.entry sampleMain, .settle, .entry sampleRun, .seed sampleRun 0 (.ofClass "A")])
      ((Analysis.new sampleWorld {}).answer
        [.entry sampleRun, .seed sampleRun 0 (.ofClass "A"), .settle, .entry sampleMain]) ∧
      sampleRun ∈ ((Analysis.new sampleWorld {}).answer
        [.entry sampleRun, .seed sampleRun 0 (.ofClass "A"), .settle, .entry sampleMain]).callTargets sampleMain 0
          sampleRun.signature := by
  have hsame := order_independent sampleWorld {}
    (a := [.entry sampleMain, .settle, .entry sampleRun, .seed sampleRun 0 (.ofClass "A")])
    (b := [.entry sampleRun, .seed sampleRun 0 (.ofClass "A"), .settle, .entry sampleMain])
    ⟨⟨sampleRun, List.mem_cons_self, Or.inl rfl⟩, trivial⟩ ⟨⟨sampleRun, List.mem_cons_self, Or.inl rfl⟩, trivial⟩
    fun q hq => by
      simp only [List.mem_cons, List.not_mem_nil, or_false]
      tauto
  exact ⟨hsame, (hsame.targets _ _ _ _).1 (by decide +kernel)⟩

end Analysis

end TypeFlow
