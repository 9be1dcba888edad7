import TypeFlow.Proofs.Analysis.Entries
import TypeFlow.Proofs.Analysis.Fixpoint

/-!
# A generation never takes anything back

Growth says what stays true of a later analysis. Here the order counts as well:
whatever an analysis lists, a later one of the same generation lists in the same
order, with more at the end. Tables are written again at keys that they have,
so for each of them it has to be said what is written there.
-/

namespace TypeFlow

/-! ## Tables that are continued -/

structure Table.Extends {κ α : Type} [DecidableEq κ] (R : α → α → Prop) (t t' : Table κ α) : Prop where
  keys : t.keys <+: t'.keys
  values : ∀ {k v}, t.find? k = some v → ∃ v', t'.find? k = some v' ∧ R v v'

namespace Table.Extends

variable {κ α : Type} [DecidableEq κ] {R : α → α → Prop} {t t' t'' : Table κ α}

theorem refl (hr : ∀ x, R x x) (t : Table κ α) : t.Extends R t :=
  ⟨List.prefix_rfl, fun {_ v} hv => ⟨v, hv, hr v⟩⟩

theorem trans (ht : ∀ {x y z}, R x y → R y z → R x z) (h : t.Extends R t') (h' : t'.Extends R t'') :
    t.Extends R t'' where
  keys := h.keys.trans h'.keys
  values hv := by
    obtain ⟨v', hv', hvv'⟩ := h.values hv
    obtain ⟨v'', hv'', hv'v''⟩ := h'.values hv'
    exact ⟨v'', hv'', ht hvv' hv'v''⟩

/-- A key that is new goes to the end. -/
theorem insert (hr : ∀ x, R x x) {k : κ} (hk : t.find? k = none) (v : α) : t.Extends R (t.insert k v) where
  keys := by
    rw [Table.keys_insert, if_neg (Table.find?_eq_none_iff.1 hk)]
    exact List.prefix_append _ _
  values {k' v'} hv := ⟨v', Table.Keeps.insert hk v k' v' hv, hr v'⟩

/-- Writing a value that is there already changes nothing. -/
theorem insert_same (hr : ∀ x, R x x) {k : κ} {v : α} (hk : t.find? k = some v) : t.Extends R (t.insert k v) where
  keys := by
    have hkeys : (t.insert k v).keys = t.keys := by rw [Table.keys_insert, if_pos (Table.mem_keys_of_find? hk)]
    exact hkeys ▸ List.prefix_rfl
  values {k' v'} hv := by
    refine ⟨v', ?_, hr v'⟩
    rw [Table.find?_insert]
    split
    · next heq =>
      subst heq
      exact hk.symm.trans hv
    · exact hv

end Table.Extends

/-! ## Records -/

/-- A record that grows gets its local variables at once, when it is processed, and its calls in order. -/
structure MethodRecord.Advances (r r' : MethodRecord) : Prop extends r.Grows r' where
  opened : r'.locals = r.locals ∨ r.locals = #[] ∧ r.processed = false ∧ r'.processed = true
  callKeys : r.calls.keys <+: r'.calls.keys

namespace MethodRecord.Advances

theorem refl (r : MethodRecord) : r.Advances r := ⟨.refl r, Or.inl rfl, List.prefix_rfl⟩

theorem trans {r r' r'' : MethodRecord} (h : r.Advances r') (h' : r'.Advances r'') : r.Advances r'' where
  toGrows := h.toGrows.trans h'.toGrows
  opened := by
    rcases h.opened with he | ⟨hl, hp, hp'⟩
    · rcases h'.opened with he' | ⟨hl', hp', hp''⟩
      · exact Or.inl (he'.trans he)
      · have hp : r.processed = false := Bool.eq_false_iff.2 fun hp => nomatch hp'.symm.trans (h.processed hp)
        exact Or.inr ⟨he ▸ hl', hp, hp''⟩
    · exact Or.inr ⟨hl, hp, h'.processed hp'⟩
  callKeys := h.callKeys.trans h'.callKeys

theorem noteCall (r : MethodRecord) (key : CallKey) (id : SelectorId) : r.Advances (r.noteCall key id) where
  toGrows := r.grows_noteCall key id
  opened := Or.inl rfl
  callKeys := by
    have hkeys : (r.noteCall key id).calls.keys =
        if key ∈ r.calls.keys then r.calls.keys else r.calls.keys ++ [key] :=
      Table.keys_insert _ _ _
    rw [hkeys]
    split
    · exact List.prefix_rfl
    · exact List.prefix_append _ _

end MethodRecord.Advances

namespace Analysis

structure Extends (s s' : Analysis) : Prop where
  generation : s'.generation = s.generation
  classes : s.classes.Extends ClassRecord.Grows s'.classes
  methods : Pointwise MethodRecord.Advances s.methods s'.methods
  fields : s.fields.Extends Eq s'.fields
  selectors : Pointwise Selector.Grows s.selectors s'.selectors
  problems : s.problems.toList <+: s'.problems.toList
  graph : s.graph.Grows s'.graph

namespace Extends

theorem refl (s : Analysis) : s.Extends s where
  generation := rfl
  classes := .refl .refl _
  methods := .refl .refl _
  fields := .refl (fun _ => rfl) _
  selectors := .refl .refl _
  problems := List.prefix_rfl
  graph := .refl _

theorem trans {s s' s'' : Analysis} (h : s.Extends s') (h' : s'.Extends s'') : s.Extends s'' where
  generation := h'.generation.trans h.generation
  classes := h.classes.trans (fun h h' => h.trans h') h'.classes
  methods := h.methods.trans (fun h h' => h.trans h') h'.methods
  fields := h.fields.trans Eq.trans h'.fields
  selectors := h.selectors.trans (fun h h' => h.trans h') h'.selectors
  problems := h.problems.trans h'.problems
  graph := h.graph.trans h'.graph

end Extends

variable {w : Actor} {s s' : Analysis} {γ γ' : List Duty}

/-! ## Linking classes -/

theorem recordClass_prefix (s : Analysis) (n : ClassName) :
    s.classes.keys <+: (s.recordClass n).classes.keys ∧
      s.problems.toList <+: (s.recordClass n).problems.toList := by
  obtain ⟨-, hclasses, hproblems⟩ := s.recordClass_eq n
  rw [hclasses, hproblems, Table.keys_insert]
  constructor <;> split
  · exact List.prefix_rfl
  · exact List.prefix_append _ _
  · exact OrderedSet.prefix_insert _ _
  · exact List.prefix_rfl

theorem recordClasses_prefix (s : Analysis) (names : List ClassName) :
    s.classes.keys <+: (names.foldl recordClass s).classes.keys ∧
      s.problems.toList <+: (names.foldl recordClass s).problems.toList := by
  induction names generalizing s with
  | nil => exact ⟨List.prefix_rfl, List.prefix_rfl⟩
  | cons n names ih =>
    obtain ⟨hkeys, hproblems⟩ := s.recordClass_prefix n
    obtain ⟨hkeys', hproblems'⟩ := ih (s.recordClass n)
    exact ⟨hkeys.trans hkeys', hproblems.trans hproblems'⟩

theorem linkClass_prefix (s : Analysis) (name : ClassName) :
    s.classes.keys <+: (s.linkClass name).2.classes.keys ∧
      s.problems.toList <+: (s.linkClass name).2.problems.toList := by
  by_cases hn : name ∈ s.classes.keys
  · rw [linkClass_of_mem hn]
    exact ⟨List.prefix_rfl, List.prefix_rfl⟩
  · rw [linkClass_of_not_mem hn]
    exact recordClasses_prefix _ _

/-! ## Steps -/

theorem Step.classKeys_prefix (h : Step w s γ s' γ') : s.classes.keys <+: s'.classes.keys := by
  cases h with
  | linkClass name => exact (s.linkClass_prefix name).1
  | markInitialized name => exact Table.keys_adjust s.classes name _ ▸ List.prefix_rfl
  | aggregate ht => exact aggregate_of_none ht ▸ List.prefix_rfl
  | pool hk => exact poolNode_of_none hk ▸ List.prefix_rfl
  | _ => exact List.prefix_rfl

theorem Step.problems_prefix (h : Step w s γ s' γ') : s.problems.toList <+: s'.problems.toList := by
  cases h with
  | linkClass name => exact (s.linkClass_prefix name).2
  | report hp => exact OrderedSet.prefix_insert _ _
  | aggregate ht => exact aggregate_of_none ht ▸ List.prefix_rfl
  | pool hk => exact poolNode_of_none hk ▸ List.prefix_rfl
  | _ => exact List.prefix_rfl

theorem Step.fields_extends (h : Step w s γ s' γ') : s.fields.Extends Eq s'.fields := by
  cases h with
  | linkClass name =>
    obtain ⟨h, c, p, heq, -⟩ := s.linkClass_frame name
    rw [heq]
    exact .refl (fun _ => rfl) _
  | fieldAlias hf hr hd => exact .insert (fun _ => rfl) hf _
  | @newField f resolved hf hr hd hs hc =>
    -- a field that resolves to itself is written twice, with the same record
    refine .trans Eq.trans (.insert (fun _ => rfl) hr ⟨resolved, s.graph.newNode.1⟩) ?_
    by_cases he : f = resolved
    · subst he
      exact .insert_same (fun _ => rfl) (Table.find?_insert_self _ _ _)
    · refine .insert (fun _ => rfl) ?_ _
      rw [Table.find?_insert, if_neg he]
      exact hf
  | aggregate ht =>
    rw [aggregate_of_none ht]
    exact .refl (fun _ => rfl) _
  | pool hk =>
    rw [poolNode_of_none hk]
    exact .refl (fun _ => rfl) _
  | _ => exact .refl (fun _ => rfl) _

theorem Step.methods_advance (h : Step w s γ s' γ') : Pointwise MethodRecord.Advances s.methods s'.methods := by
  cases h with
  | linkClass name =>
    obtain ⟨h, c, p, heq, -⟩ := s.linkClass_frame name
    rw [heq]
    exact .refl .refl _
  | recordMethod hm hd hf hc => exact .push .refl _ _
  | aggregate ht =>
    rw [aggregate_of_none ht]
    exact .refl .refl _
  | pool hk =>
    rw [poolNode_of_none hk]
    exact .refl .refl _
  | site hs hk hr hpr hn => exact .modify .refl fun r _ => .noteCall r _ _
  | openBody hr hp hl hw =>
    refine .modify .refl fun r' hr' => ?_
    obtain rfl : r' = _ := Option.some.inj (hr'.symm.trans hr)
    exact ⟨.opened hp hl _, Or.inr ⟨hl, hp, rfl⟩, List.prefix_rfl⟩
  | _ => exact .refl .refl _

theorem Step.extends (h : Step w s γ s' γ') : s.Extends s' where
  generation := h.generation_eq
  classes := ⟨h.classKeys_prefix, h.grows.recorded⟩
  methods := h.methods_advance
  fields := h.fields_extends
  selectors := h.grows.selectors
  problems := h.problems_prefix
  graph := h.grows.graph

theorem Moves.extends (h : Moves w s γ s' γ') : s.Extends s' := by
  induction h with
  | refl => exact .refl _
  | tail _ hs ih => exact ih.trans hs.extends

/-! ## Sessions -/

theorem setWorld_extends (s : Analysis) (w : World) : s.Extends (s.setWorld w) := { Extends.refl s with }

theorem Sound.history_extends (h : s.Sound) {ops : List Op} (hops : ∀ names, .command (.evict names) ∉ ops) :
    s.Extends (s.history ops) :=
  h.history_related .refl (fun h h' => h.trans h') Moves.extends setWorld_extends hops

/-- Whatever was asked before, no request but an eviction takes back anything that an analysis lists, changes what a
record says or clears one of its marks. -/
theorem extends_history (w : World) (settings : Settings) (ops later : List Op)
    (hlater : ∀ names, .command (.evict names) ∉ later) :
    ((new w settings).history ops).Extends ((new w settings).history (ops ++ later)) := by
  unfold history
  rw [List.foldl_append]
  exact ((sound_new w settings).history ops).1.history_extends hlater

/-- Among the requests before there may be evictions. -/
theorem extends_history_sampleMain :
    ((new sampleWorld {}).history [.command (.entry sampleMain), .command (.evict ["A"])]).Extends
      ((new sampleWorld {}).history
        ([.command (.entry sampleMain), .command (.evict ["A"])] ++ [.command .settle, .linkClass "B"])) :=
  extends_history sampleWorld {} _ _ (by simp)

end Analysis

end TypeFlow
