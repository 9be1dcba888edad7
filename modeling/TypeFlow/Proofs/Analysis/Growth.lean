import TypeFlow.Analysis.Settle
import TypeFlow.Proofs.FlowGraph.Closure
import TypeFlow.Proofs.Hierarchy.Coherence

/-!
# Growth of analyses

Within a generation an analysis only gains: what is linked stays linked with
the same nodes, what is noted stays noted. `Grows` says this of two analyses;
every fact that is read from linked records and from edges is kept by it.
-/

namespace TypeFlow

/-! ## Tables and arrays that keep their entries -/

section
variable {κ α : Type} [DecidableEq κ]

theorem Table.mem_keys_insert {t : Table κ α} {k j : κ} {v : α} :
    j ∈ (t.insert k v).keys ↔ j ∈ t.keys ∨ j = k := by
  rw [Table.keys_insert]
  split
  · next hk =>
    refine ⟨Or.inl, fun h => ?_⟩
    rcases h with h | rfl
    · exact h
    · exact hk
  · rw [List.mem_append, List.mem_singleton]

theorem Table.mem_keys_insert_cases {t : Table κ α} {k j : κ} {v : α}
    (h : j ∈ (t.insert k v).keys) : j ∈ t.keys ∨ j = k := Table.mem_keys_insert.1 h

def Table.Keeps (t t' : Table κ α) : Prop := ∀ k v, t.find? k = some v → t'.find? k = some v

namespace Table.Keeps

variable {t t' t'' : Table κ α}

theorem refl (t : Table κ α) : t.Keeps t := fun _ _ h => h

theorem trans (h : t.Keeps t') (h' : t'.Keeps t'') : t.Keeps t'' := fun k v hk => h' k v (h k v hk)

theorem insert {k : κ} (h : t.find? k = none) (v : α) : t.Keeps (t.insert k v) := by
  intro k' v' hk
  rw [Table.find?_insert, if_neg]
  · exact hk
  · rintro rfl
    rw [h] at hk
    cases hk

theorem mem_keys (h : t.Keeps t') {k : κ} (hk : k ∈ t.keys) : k ∈ t'.keys := by
  obtain ⟨v, hv⟩ := Option.isSome_iff_exists.1 (Table.find?_isSome_iff.2 hk)
  exact Table.mem_keys_of_find? (h k v hv)

end Table.Keeps

theorem getElem?_push_cases {a : Array α} {x y : α} {i : Nat} (h : (a.push y)[i]? = some x) :
    a[i]? = some x ∨ i = a.size ∧ x = y := by
  rw [Array.getElem?_push] at h
  split at h
  · next hi =>
    cases h
    exact Or.inr ⟨hi, rfl⟩
  · exact Or.inl h

theorem getElem?_modify_self {a : Array α} {x : α} {i : Nat} (h : a[i]? = some x) (f : α → α) :
    (a.modify i f)[i]? = some (f x) := by
  rw [Array.getElem?_modify, if_pos rfl, h]
  rfl

theorem getElem?_modify_cases {a : Array α} {f : α → α} {x : α} {i j : Nat} (h : (a.modify j f)[i]? = some x) :
    i ≠ j ∧ a[i]? = some x ∨ i = j ∧ ∃ y, a[j]? = some y ∧ x = f y := by
  rw [Array.getElem?_modify] at h
  split at h
  · next hi =>
    subst hi
    obtain ⟨y, hy, hxy⟩ := Option.map_eq_some_iff.1 h
    exact Or.inr ⟨rfl, y, hy, hxy.symm⟩
  · next hi => exact Or.inl ⟨Ne.symm hi, h⟩

def Pointwise (R : α → α → Prop) (a a' : Array α) : Prop :=
  ∀ (i : Nat) (x : α), a[i]? = some x → ∃ x', a'[i]? = some x' ∧ R x x'

namespace Pointwise

variable {R : α → α → Prop} {a a' a'' : Array α}

theorem refl (hr : ∀ x, R x x) (a : Array α) : Pointwise R a a := fun _ x hx => ⟨x, hx, hr x⟩

theorem trans (ht : ∀ {x y z}, R x y → R y z → R x z) (h : Pointwise R a a') (h' : Pointwise R a' a'') :
    Pointwise R a a'' := by
  intro i x hx
  obtain ⟨y, hy, hxy⟩ := h i x hx
  obtain ⟨z, hz, hyz⟩ := h' i y hy
  exact ⟨z, hz, ht hxy hyz⟩

theorem push (hr : ∀ x, R x x) (a : Array α) (y : α) : Pointwise R a (a.push y) := by
  intro i x hx
  have hlt := (Array.getElem?_eq_some_iff.1 hx).1
  rw [Array.getElem?_push, if_neg (Nat.ne_of_lt hlt)]
  exact ⟨x, hx, hr x⟩

theorem modify (hr : ∀ x, R x x) {f : α → α} {j : Nat} (hf : ∀ x, a[j]? = some x → R x (f x)) :
    Pointwise R a (a.modify j f) := by
  intro i x hx
  rw [Array.getElem?_modify]
  split
  · next hij =>
    subst hij
    exact ⟨f x, by rw [hx]; rfl, hf x hx⟩
  · exact ⟨x, hx, hr x⟩

end Pointwise

end

/-! ## Records -/

structure ClassRecord.Grows (r r' : ClassRecord) : Prop where
  missing : r'.missing = r.missing
  initialized : r.initialized = true → r'.initialized = true

namespace ClassRecord.Grows

theorem refl (r : ClassRecord) : r.Grows r := ⟨rfl, id⟩

theorem trans {r r' r'' : ClassRecord} (h : r.Grows r') (h' : r'.Grows r'') : r.Grows r'' :=
  ⟨h'.missing.trans h.missing, fun hi => h'.initialized (h.initialized hi)⟩

end ClassRecord.Grows

/-- A record keeps what it says; its local variables are given once, its calls get more selectors. -/
structure MethodRecord.Grows (r r' : MethodRecord) : Prop where
  reference : r'.reference = r.reference
  declaring : r'.declaring = r.declaring
  definition : r'.definition = r.definition
  params : r'.params = r.params
  result : r'.result = r.result
  thrown : r'.thrown = r.thrown
  processed : r.processed = true → r'.processed = true
  settled : r.processed = true → r'.locals = r.locals
  locals : ∀ {v n : Nat}, r.locals[v]? = some n → r'.locals[v]? = some n
  calls : ∀ key, r.selectorsAt key <+: r'.selectorsAt key

namespace MethodRecord.Grows

theorem refl (r : MethodRecord) : r.Grows r :=
  ⟨rfl, rfl, rfl, rfl, rfl, rfl, id, fun _ => rfl, id, fun _ => List.prefix_rfl⟩

theorem trans {r r' r'' : MethodRecord} (h : r.Grows r') (h' : r'.Grows r'') : r.Grows r'' where
  reference := h'.reference.trans h.reference
  declaring := h'.declaring.trans h.declaring
  definition := h'.definition.trans h.definition
  params := h'.params.trans h.params
  result := h'.result.trans h.result
  thrown := h'.thrown.trans h.thrown
  processed hp := h'.processed (h.processed hp)
  settled hp := (h'.settled (h.processed hp)).trans (h.settled hp)
  locals hv := h'.locals (h.locals hv)
  calls key := (h.calls key).trans (h'.calls key)

/-- A method that is not processed has no local variables that it could lose. -/
theorem opened {r : MethodRecord} (hp : r.processed = false) (hl : r.locals = #[]) (locals : Array NodeId) :
    r.Grows { r with processed := true, locals } := by
  refine { refl r with processed := fun _ => rfl, settled := ?_, locals := ?_ }
  · intro hp'
    exact nomatch hp.symm.trans hp'
  · intro v n hv
    rw [hl] at hv
    simp at hv

end MethodRecord.Grows

theorem OrderedSet.prefix_insert {α : Type} [DecidableEq α] (s : OrderedSet α) (a : α) :
    s.toList <+: (s.insert a).toList := by
  by_cases h : a ∈ s
  · exact (OrderedSet.insert_of_mem h).symm ▸ List.prefix_rfl
  · rw [OrderedSet.toList_insert_of_not_mem h]
    exact List.prefix_append _ _

theorem MethodRecord.selectorsAt_noteCall (r : MethodRecord) (key key' : CallKey) (id : SelectorId) :
    (r.noteCall key id).selectorsAt key'
      = if key' = key then (((r.calls.find? key).getD ∅).insert id).toList else r.selectorsAt key' := by
  simp only [selectorsAt, noteCall, Table.find?_insert]
  by_cases hk : key' = key
  · simp [hk]
  · simp [hk]

theorem MethodRecord.selectorsAt_noteCall_cases {r : MethodRecord} {key key' : CallKey} {id k : SelectorId}
    (h : k ∈ (r.noteCall key id).selectorsAt key') : k ∈ r.selectorsAt key' ∨ key' = key ∧ k = id := by
  rw [MethodRecord.selectorsAt_noteCall] at h
  split at h
  · next he =>
    subst he
    rcases OrderedSet.mem_insert.1 h with h | rfl
    · refine Or.inl ?_
      unfold MethodRecord.selectorsAt
      cases hc : r.calls.find? key' with
      | none =>
        rw [hc] at h
        exact absurd h (OrderedSet.not_mem_empty k)
      | some ids =>
        rw [hc] at h
        exact h
    · exact Or.inr ⟨rfl, rfl⟩
  · exact Or.inl h

theorem MethodRecord.grows_noteCall (r : MethodRecord) (key : CallKey) (id : SelectorId) :
    r.Grows (r.noteCall key id) where
  reference := rfl
  declaring := rfl
  definition := rfl
  params := rfl
  result := rfl
  thrown := rfl
  processed := fun h => h
  settled := fun _ => rfl
  locals := fun h => h
  calls key' := by
    rw [selectorsAt_noteCall]
    split
    · next hk =>
      subst hk
      refine List.IsPrefix.trans ?_ (OrderedSet.prefix_insert _ _)
      unfold selectorsAt
      cases r.calls.find? key' with
      | some ids => exact List.prefix_rfl
      | none => exact List.nil_prefix
    · exact List.prefix_rfl

structure Selector.Grows (a b : Selector) : Prop where
  declared : b.declared = a.declared
  filter? : b.filter? = a.filter?
  listener : b.listener = a.listener
  targets : a.targets.toList <+: b.targets.toList
  sites : a.sites <+: b.sites

namespace Selector.Grows

theorem refl (a : Selector) : a.Grows a := ⟨rfl, rfl, rfl, List.prefix_rfl, List.prefix_rfl⟩

theorem trans {a b c : Selector} (h : a.Grows b) (h' : b.Grows c) : a.Grows c :=
  ⟨h'.declared.trans h.declared, h'.filter?.trans h.filter?, h'.listener.trans h.listener,
    h.targets.trans h'.targets, h.sites.trans h'.sites⟩

end Selector.Grows

/-! ## Analyses -/

namespace Analysis

/-- A node that is there and is not an aggregate. -/
def Plain (s : Analysis) (n : NodeId) : Prop := n < s.graph.nodes.size ∧ ∀ t, s.aggregates.find? t ≠ some n

structure Grows (s s' : Analysis) : Prop where
  settings : s'.settings = s.settings
  hierarchy : s.hierarchy.Retains s'.hierarchy
  graph : s.graph.Grows s'.graph
  recorded : ∀ {n r}, s.classes.find? n = some r → ∃ r', s'.classes.find? n = some r' ∧ r.Grows r'
  problems : ∀ {p}, p ∈ s.problems → p ∈ s'.problems
  methods : Pointwise MethodRecord.Grows s.methods s'.methods
  aliases : s.aliases.Keeps s'.aliases
  fields : s.fields.Keeps s'.fields
  aggregates : s.aggregates.Keeps s'.aggregates
  /-- An aggregate gets a node of its own. -/
  aggregated : ∀ {t n}, s'.aggregates.find? t = some n → s.aggregates.find? t = some n ∨ s.graph.nodes.size ≤ n
  itemPools : s.itemPools.Keeps s'.itemPools
  selectorKeys : s.selectorKeys.Keeps s'.selectorKeys
  listeners : Pointwise Eq s.listeners s'.listeners
  selectors : Pointwise Selector.Grows s.selectors s'.selectors

namespace Grows

theorem refl (s : Analysis) : s.Grows s where
  settings := rfl
  hierarchy := fun _ _ h => h
  graph := .refl _
  recorded hr := ⟨_, hr, .refl _⟩
  problems := id
  methods := .refl .refl _
  aliases := .refl _
  fields := .refl _
  aggregates := .refl _
  aggregated := Or.inl
  itemPools := .refl _
  selectorKeys := .refl _
  listeners := .refl (fun _ => rfl) _
  selectors := .refl .refl _

theorem trans {s s' s'' : Analysis} (h : s.Grows s') (h' : s'.Grows s'') : s.Grows s'' where
  settings := h'.settings.trans h.settings
  hierarchy := h.hierarchy.trans h'.hierarchy
  graph := h.graph.trans h'.graph
  recorded hr := by
    obtain ⟨r', hr', hg⟩ := h.recorded hr
    obtain ⟨r'', hr'', hg'⟩ := h'.recorded hr'
    exact ⟨r'', hr'', hg.trans hg'⟩
  problems hp := h'.problems (h.problems hp)
  methods := h.methods.trans (fun h h' => h.trans h') h'.methods
  aliases := h.aliases.trans h'.aliases
  fields := h.fields.trans h'.fields
  aggregates := h.aggregates.trans h'.aggregates
  aggregated ht := by
    rcases h'.aggregated ht with ht | hn
    · exact h.aggregated ht
    · exact Or.inr (Nat.le_trans h.graph.size hn)
  itemPools := h.itemPools.trans h'.itemPools
  selectorKeys := h.selectorKeys.trans h'.selectorKeys
  listeners := h.listeners.trans Eq.trans h'.listeners
  selectors := h.selectors.trans (fun h h' => h.trans h') h'.selectors

variable {s s' : Analysis}

theorem classes (h : s.Grows s') : s.classes.keys ⊆ s'.classes.keys := by
  intro n hn
  obtain ⟨r, hr⟩ := Option.isSome_iff_exists.1 (Table.find?_isSome_iff.2 hn)
  obtain ⟨r', hr', -⟩ := h.recorded hr
  exact Table.mem_keys_of_find? hr'

theorem listener (h : s.Grows s') {i : Nat} {l : Listener} (hl : s.listeners[i]? = some l) :
    s'.listeners[i]? = some l := by
  obtain ⟨l', hl', rfl⟩ := h.listeners i l hl
  exact hl'

theorem decides (h : s.Grows s') {α : Type} {f : Catalog → α} {a : α} (hd : s.hierarchy.Decides f a) :
    s'.hierarchy.Decides f a := hd.retains h.hierarchy

theorem lt_size (h : s.Grows s') {n : Nat} (hn : n < s.graph.nodes.size) : n < s'.graph.nodes.size :=
  Nat.lt_of_lt_of_le hn h.graph.size

theorem plain (h : s.Grows s') {n : Nat} (hn : s.Plain n) : s'.Plain n := by
  refine ⟨h.lt_size hn.1, fun t ht => ?_⟩
  rcases h.aggregated ht with ht | hle
  · exact hn.2 t ht
  · exact absurd hn.1 (Nat.not_lt.2 hle)

theorem withGraph (s : Analysis) {g : FlowGraph} (hg : s.graph.Grows g) : s.Grows { s with graph := g } :=
  { refl s with graph := hg }

theorem withHierarchy (s : Analysis) {h : Hierarchy} (hh : s.hierarchy.Retains h) :
    s.Grows { s with hierarchy := h } :=
  { refl s with hierarchy := hh }

end Grows

end Analysis

end TypeFlow
