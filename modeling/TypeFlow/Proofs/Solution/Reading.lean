import Mathlib.Data.List.Forall2
import Mathlib.Data.Option.Defs
import TypeFlow.Proofs.Analysis.Invariant
import TypeFlow.Proofs.Solution.Facts

/-!
# Facts of a state

Which facts an analysis has at a moment. Its nodes and selectors are found
again by what they stand for, at most one for each slot and each chooser, and
what it has it keeps while it goes on.
-/

namespace TypeFlow

def CallSite.slots (L : NodeId → Slot) (site : CallSite) : SlotSite where
  receiver? := site.receiver?.map L
  args := site.args.map (Option.map L)
  result? := site.result?.map L
  thrown := L site.thrown

namespace Analysis

/-! ## Nodes and selectors -/

def StandsFor (s : Analysis) (n : NodeId) : Slot → Prop
  | .root => n = root
  | .param m i => ∃ r, s.Linked m r ∧ r.params[i]? = some n
  | .result m => ∃ r, s.Linked m r ∧ r.result = n
  | .thrown m => ∃ r, s.Linked m r ∧ r.thrown = n
  | .var m v => ∃ r, s.Linked m r ∧ r.locals[v]? = some n
  | .field f => s.fields.find? f = some ⟨f, n⟩
  | .aggregate t => s.aggregates.find? t = some n
  | .pool k => s.itemPools.find? k = some n

/-- The slots of a call site, where each end that there is stands for a slot. -/
structure SiteAt (s : Analysis) (site : CallSite) (σ : SlotSite) : Prop where
  receiver? : Option.Rel s.StandsFor site.receiver? σ.receiver?
  args : List.Forall₂ (Option.Rel s.StandsFor) site.args σ.args
  result? : Option.Rel s.StandsFor site.result? σ.result?
  thrown : s.StandsFor site.thrown σ.thrown

def Chosen (s : Analysis) : SelectorKey → Chooser → Prop
  | .shared declared, κ => κ = ⟨declared, none⟩
  | .perSite caller receiver declared, κ => ∃ r, s.methods[caller]? = some r ∧
      κ = ⟨declared, some (r.reference, receiver)⟩

def Answers (s : Analysis) (id : SelectorId) (κ : Chooser) : Prop :=
  ∃ key, s.selectorKeys.find? key = some id ∧ s.Chosen key κ

/-! ## Facts -/

def Has (s : Analysis) : Fact → Prop
  | .holds x t => ∃ n, s.StandsFor n x ∧ t ∈ s.graph.typesAt n
  | .flow x y => ∃ a b, s.StandsFor a x ∧ s.StandsFor b y ∧ s.graph.Flows a b
  | .cls n => n ∈ s.classes.keys
  | .initialized n => ∃ r, s.classes.find? n = some r ∧ r.initialized = true
  | .problem p => p ∈ s.problems
  | .method m => ∃ r, s.Linked m r
  | .named m => (∃ r, s.Linked m r) ∨ m ∈ s.aliases.keys
  | .field f => ∃ n, s.fields.find? f = some ⟨f, n⟩
  | .aggregate t => t ∈ s.aggregates.keys
  | .pool k => k ∈ s.itemPools.keys
  | .calls m key κ => ∃ r, s.Linked m r ∧ ∃ id ∈ r.selectorsAt key, s.Answers id κ
  | .serves κ σ => ∃ (id : Nat) (sel : Selector), s.Answers id κ ∧ s.selectors[id]? = some sel ∧
      ∃ site ∈ sel.sites, s.SiteAt site σ
  | .target κ m => ∃ (id : Nat) (sel : Selector), s.Answers id κ ∧ s.selectors[id]? = some sel ∧ m ∈ sel.targets

/-- Growth that also keeps what is known of classes and what was reported. -/
structure Leads (s s' : Analysis) : Prop where
  grows : s.Grows s'
  classes : ∀ {n r}, s.classes.find? n = some r → ∃ r', s'.classes.find? n = some r' ∧
    (r.initialized = true → r'.initialized = true)
  problems : ∀ {p}, p ∈ s.problems → p ∈ s'.problems

namespace Leads

/-- Growth keeps what is known of classes and what was reported. -/
theorem of_grows {s s' : Analysis} (h : s.Grows s') : s.Leads s' where
  grows := h
  classes hr := by
    obtain ⟨r', hr', hg⟩ := h.recorded hr
    exact ⟨r', hr', hg.initialized⟩
  problems := h.problems

theorem refl (s : Analysis) : s.Leads s := .of_grows (.refl s)

theorem trans {s s' s'' : Analysis} (h : s.Leads s') (h' : s'.Leads s'') : s.Leads s'' :=
  .of_grows (h.grows.trans h'.grows)

end Leads

section
variable {s s' : Analysis}

theorem Grows.standsFor (h : s.Grows s') {n : NodeId} {x : Slot} (hx : s.StandsFor n x) : s'.StandsFor n x := by
  cases x with
  | root => exact hx
  | param m i =>
    obtain ⟨r, hr, hn⟩ := hx
    obtain ⟨r', hr', hg⟩ := h.linked hr
    exact ⟨r', hr', hg.params ▸ hn⟩
  | result m =>
    obtain ⟨r, hr, hn⟩ := hx
    obtain ⟨r', hr', hg⟩ := h.linked hr
    exact ⟨r', hr', hg.result.trans hn⟩
  | thrown m =>
    obtain ⟨r, hr, hn⟩ := hx
    obtain ⟨r', hr', hg⟩ := h.linked hr
    exact ⟨r', hr', hg.thrown.trans hn⟩
  | var m v =>
    obtain ⟨r, hr, hn⟩ := hx
    obtain ⟨r', hr', hg⟩ := h.linked hr
    exact ⟨r', hr', hg.locals hn⟩
  | field f => exact h.fields _ _ hx
  | aggregate t => exact h.aggregates _ _ hx
  | pool k => exact h.itemPools _ _ hx

theorem Grows.optStandsFor (h : s.Grows s') {n? : Option NodeId} {x? : Option Slot}
    (hx : Option.Rel s.StandsFor n? x?) : Option.Rel s'.StandsFor n? x? := by
  cases hx with
  | some hx => exact .some (h.standsFor hx)
  | none => exact .none

theorem Grows.siteAt (h : s.Grows s') {site : CallSite} {σ : SlotSite} (hσ : s.SiteAt site σ) :
    s'.SiteAt site σ where
  receiver? := h.optStandsFor hσ.receiver?
  args := hσ.args.imp fun _ _ => h.optStandsFor
  result? := h.optStandsFor hσ.result?
  thrown := h.standsFor hσ.thrown

theorem Grows.chosen (h : s.Grows s') {key : SelectorKey} {κ : Chooser} (hκ : s.Chosen key κ) :
    s'.Chosen key κ := by
  cases key with
  | shared declared => exact hκ
  | perSite caller receiver declared =>
    obtain ⟨r, hr, rfl⟩ := hκ
    obtain ⟨r', hr', hg⟩ := h.methods _ r hr
    exact ⟨r', hr', by rw [hg.reference]⟩

theorem Grows.answers (h : s.Grows s') {id : SelectorId} {κ : Chooser} (hκ : s.Answers id κ) : s'.Answers id κ := by
  obtain ⟨key, hk, hκ⟩ := hκ
  exact ⟨key, h.selectorKeys _ _ hk, h.chosen hκ⟩

theorem Leads.has (h : s.Leads s') {φ : Fact} (hφ : s.Has φ) : s'.Has φ := by
  cases φ with
  | holds x t =>
    obtain ⟨n, hn, ht⟩ := hφ
    exact ⟨n, h.grows.standsFor hn, h.grows.graph.mem_typesAt ht⟩
  | flow x y =>
    obtain ⟨a, b, ha, hb, hf⟩ := hφ
    exact ⟨a, b, h.grows.standsFor ha, h.grows.standsFor hb, h.grows.graph.flows hf⟩
  | cls n =>
    obtain ⟨r, hr⟩ := Option.isSome_iff_exists.1 (Table.find?_isSome_iff.2 hφ)
    obtain ⟨r', hr', -⟩ := h.classes hr
    exact Table.mem_keys_of_find? hr'
  | initialized n =>
    obtain ⟨r, hr, hi⟩ := hφ
    obtain ⟨r', hr', hi'⟩ := h.classes hr
    exact ⟨r', hr', hi' hi⟩
  | problem p => exact h.problems hφ
  | method m =>
    obtain ⟨r, hr⟩ := hφ
    obtain ⟨r', hr', -⟩ := h.grows.linked hr
    exact ⟨r', hr'⟩
  | named m =>
    rcases hφ with ⟨r, hr⟩ | ha
    · obtain ⟨r', hr', -⟩ := h.grows.linked hr
      exact Or.inl ⟨r', hr'⟩
    · exact Or.inr (h.grows.aliases.mem_keys ha)
  | field f =>
    obtain ⟨n, hn⟩ := hφ
    exact ⟨n, h.grows.fields _ _ hn⟩
  | aggregate t => exact h.grows.aggregates.mem_keys hφ
  | pool k => exact h.grows.itemPools.mem_keys hφ
  | calls m key κ =>
    obtain ⟨r, hr, id, hid, hκ⟩ := hφ
    obtain ⟨r', hr', hg⟩ := h.grows.linked hr
    exact ⟨r', hr', id, (hg.calls key).subset hid, h.grows.answers hκ⟩
  | serves κ σ =>
    obtain ⟨id, sel, hκ, hsel, site, hsite, hσ⟩ := hφ
    obtain ⟨sel', hsel', hg⟩ := h.grows.selectors _ sel hsel
    exact ⟨id, sel', h.grows.answers hκ, hsel', site, hg.sites.subset hsite, h.grows.siteAt hσ⟩
  | target κ m =>
    obtain ⟨id, sel, hκ, hsel, hm⟩ := hφ
    obtain ⟨sel', hsel', hg⟩ := h.grows.selectors _ sel hsel
    exact ⟨id, sel', h.grows.answers hκ, hsel', hg.targets.subset hm⟩

/-! ## One of each -/

theorem MethodsValid.linked_unique (hv : s.MethodsValid) {m : QualifiedMethod} {r r' : MethodRecord}
    (hr : s.Linked m r) (hr' : s.Linked m r') : r = r' := by
  obtain ⟨rfl, i, hi⟩ := hr
  obtain ⟨href, j, hj⟩ := hr'
  obtain rfl := hv.unique hi hj href.symm
  exact Option.some.inj (hi.symm.trans hj)

theorem MethodsValid.standsFor_unique (hv : s.MethodsValid) {a b : NodeId} {x : Slot} (ha : s.StandsFor a x)
    (hb : s.StandsFor b x) : a = b := by
  cases x with
  | root => exact Eq.trans ha (Eq.symm hb)
  | param m i =>
    obtain ⟨r, hr, hn⟩ := ha
    obtain ⟨r', hr', hn'⟩ := hb
    obtain rfl := hv.linked_unique hr hr'
    exact Option.some.inj (hn.symm.trans hn')
  | result m =>
    obtain ⟨r, hr, hn⟩ := ha
    obtain ⟨r', hr', hn'⟩ := hb
    obtain rfl := hv.linked_unique hr hr'
    exact hn.symm.trans hn'
  | thrown m =>
    obtain ⟨r, hr, hn⟩ := ha
    obtain ⟨r', hr', hn'⟩ := hb
    obtain rfl := hv.linked_unique hr hr'
    exact hn.symm.trans hn'
  | var m v =>
    obtain ⟨r, hr, hn⟩ := ha
    obtain ⟨r', hr', hn'⟩ := hb
    obtain rfl := hv.linked_unique hr hr'
    exact Option.some.inj (hn.symm.trans hn')
  | field f => exact congrArg FieldRecord.node (Option.some.inj (Eq.trans (Eq.symm ha) hb))
  | aggregate t => exact Option.some.inj (Eq.trans (Eq.symm ha) hb)
  | pool k => exact Option.some.inj (Eq.trans (Eq.symm ha) hb)

theorem Chosen.unique {key : SelectorKey} {κ κ' : Chooser} (h : s.Chosen key κ) (h' : s.Chosen key κ') :
    κ = κ' := by
  cases key with
  | shared declared => exact Eq.trans h (Eq.symm h')
  | perSite caller receiver declared =>
    obtain ⟨r, hr, rfl⟩ := h
    obtain ⟨r', hr', rfl⟩ := h'
    obtain rfl := Option.some.inj (hr.symm.trans hr')
    rfl

theorem MethodsValid.key_unique (hv : s.MethodsValid) {key key' : SelectorKey} {κ : Chooser} (h : s.Chosen key κ)
    (h' : s.Chosen key' κ) : key = key' := by
  cases key with
  | shared declared =>
    cases key' with
    | shared declared' =>
      cases Eq.trans (Eq.symm h) h'
      rfl
    | perSite caller receiver declared' =>
      obtain ⟨r, -, rfl⟩ := h'
      cases h
  | perSite caller receiver declared =>
    obtain ⟨r, hr, rfl⟩ := h
    cases key' with
    | shared declared' => cases h'
    | perSite caller' receiver' declared' =>
      obtain ⟨r', hr', he⟩ := h'
      obtain ⟨rfl, href, rfl⟩ : declared = declared' ∧ r.reference = r'.reference ∧ receiver = receiver' := by
        simpa using he
      rw [hv.unique hr hr' href]

theorem Valid.answers_unique (hv : s.Valid) {id id' : SelectorId} {κ : Chooser} (h : s.Answers id κ)
    (h' : s.Answers id' κ) : id = id' := by
  obtain ⟨key, hk, hκ⟩ := h
  obtain ⟨key', hk', hκ'⟩ := h'
  obtain rfl := hv.methods.key_unique hκ hκ'
  exact Option.some.inj (hk.symm.trans hk')

theorem Valid.exists_chosen (hv : s.Valid) {key : SelectorKey} {id : SelectorId}
    (hk : s.selectorKeys.find? key = some id) : ∃ κ, s.Chosen key κ := by
  cases key with
  | shared declared => exact ⟨⟨declared, none⟩, rfl⟩
  | perSite caller receiver declared =>
    obtain ⟨sel, -, hvs⟩ := hv.selectors.selector hk
    obtain ⟨-, r, hr, -⟩ := hvs.hearing
    exact ⟨⟨declared, some (r.reference, receiver)⟩, r, hr, rfl⟩

/-- A grown analysis has no other names for the selectors of before. -/
theorem Valid.chosen_of_grows (hv : s.Valid) (h : s.Grows s') {key : SelectorKey} {id : SelectorId} {κ : Chooser}
    (hk : s.selectorKeys.find? key = some id) (hκ : s'.Chosen key κ) : s.Chosen key κ := by
  obtain ⟨κ', hκ'⟩ := hv.exists_chosen hk
  exact hκ.unique (h.chosen hκ') ▸ hκ'

theorem Valid.answers_of_same (hv : s.Valid) (h : s.Grows s') (hk : s'.selectorKeys = s.selectorKeys)
    {id : SelectorId} {κ : Chooser} (hκ : s'.Answers id κ) : s.Answers id κ := by
  obtain ⟨key, hid, hκ⟩ := hκ
  rw [hk] at hid
  exact ⟨key, hid, hv.chosen_of_grows h hid hκ⟩

/-! ## Choosers and their selectors -/

theorem Valid.site_plain (hv : s.Valid) {id : Nat} {κ : Chooser} {sel : Selector} {site : CallSite}
    (hκ : s.Answers id κ) (hs : s.selectors[id]? = some sel) (hsite : site ∈ sel.sites) :
    ∀ n ∈ site.nodes, s.Plain n := by
  obtain ⟨key, hk, -⟩ := hκ
  obtain ⟨sel', hs', hvs⟩ := hv.selectors.selector hk
  obtain rfl := Option.some.inj (hs.symm.trans hs')
  exact hvs.sites site hsite

theorem Chosen.declared {key : SelectorKey} {κ : Chooser} (h : s.Chosen key κ) : κ.declared = key.declared := by
  cases key with
  | shared declared => cases h; rfl
  | perSite caller receiver declared =>
    obtain ⟨r, -, rfl⟩ := h
    rfl

theorem Chosen.filter? {key : SelectorKey} {κ : Chooser} (h : s.Chosen key κ) : κ.filter? = key.filter? := by
  cases key with
  | shared declared => cases h; rfl
  | perSite caller receiver declared =>
    obtain ⟨r, -, rfl⟩ := h
    rfl

theorem standsFor_ofAggregate {n : NodeId} {t : DeclType} :
    s.StandsFor n (.ofAggregate t) ↔ s.aggregate? t = some n := by
  unfold Slot.ofAggregate aggregate?
  split
  · exact ⟨fun h => congrArg some (Eq.symm h), fun h => (Option.some.inj h).symm⟩
  · exact Iff.rfl

theorem Chosen.standsFor_feed (hv : s.MethodsValid) {key : SelectorKey} {κ : Chooser} (h : s.Chosen key κ)
    {n : NodeId} : s.StandsFor n κ.feed ↔ s.feed? key = some n := by
  cases key with
  | shared declared =>
    cases h
    exact standsFor_ofAggregate
  | perSite caller receiver declared =>
    obtain ⟨r, hr, rfl⟩ := h
    constructor
    · rintro ⟨r', hr', hn⟩
      obtain rfl := hv.linked_unique ⟨rfl, caller, hr⟩ hr'
      exact Option.bind_eq_some_iff.2 ⟨r, hr, hn⟩
    · intro hn
      obtain ⟨r', hr', hn⟩ := Option.bind_eq_some_iff.1 hn
      obtain rfl := Option.some.inj (hr.symm.trans hr')
      exact ⟨r, ⟨rfl, caller, hr⟩, hn⟩

theorem chosen_selectorKey {caller : Nat} {r : MethodRecord} (hr : s.methods[caller]? = some r) (receiver : Local)
    (declared : QualifiedMethod) :
    s.Chosen (s.selectorKey caller receiver declared)
      (.of s.settings.precision r.reference receiver declared) := by
  unfold selectorKey
  cases s.settings.precision with
  | fast => exact rfl
  | precise => exact ⟨r, hr, rfl⟩

theorem RecordValid.method? {r : MethodRecord} (h : s.RecordValid r) :
    s.hierarchy.view.method? r.reference = some r.definition := by
  have hd := Hierarchy.lookup_of_find? h.declaring
  exact Option.bind_eq_some_iff.2 ⟨_, hd, h.definition⟩

end

end Analysis

end TypeFlow
