import TypeFlow.Proofs.Analysis.Run
import TypeFlow.Proofs.Conversion

/-!
# Every run ends

A method is linked once, and an analysis makes aggregates and shared
selectors only for what the world names. So the methods and the tasks that
can still come up are counted in advance, no step raises the count, and each
one that is taken from its queue lowers it.
-/

namespace TypeFlow

/-! ## What a world names -/

/-- Whether some type of a list has the innermost type of `t` and some type of the list at least its dimensions. -/
def Bounded (types : List DeclType) (t : DeclType) : Prop :=
  t.dims ≤ (types.map DeclType.dims).foldl max 0 ∧ ∃ u ∈ types, u.base = t.base

def variants (types : List DeclType) : List DeclType :=
  types.flatMap fun u => (List.range ((types.map DeclType.dims).foldl max 0 + 1)).map u.base.wrap

theorem le_foldl_max {l : List Nat} {n : Nat} (m : Nat) (h : n ∈ l ∨ n ≤ m) : n ≤ l.foldl max m := by
  induction l generalizing m with
  | nil => exact h.resolve_left List.not_mem_nil
  | cons k l ih =>
    refine ih (max m k) ?_
    rcases h with h | h
    · rcases List.mem_cons.1 h with rfl | h
      · exact Or.inr (Nat.le_max_right _ _)
      · exact Or.inl h
    · exact Or.inr (Nat.le_trans h (Nat.le_max_left _ _))

theorem bounded_of_mem {types : List DeclType} {t u : DeclType} (hu : u ∈ types) (hb : u.base = t.base)
    (hd : t.dims ≤ u.dims) : Bounded types t :=
  ⟨Nat.le_trans hd (le_foldl_max 0 (Or.inl (List.mem_map.2 ⟨u, hu, rfl⟩))), u, hu, hb⟩

theorem Bounded.mem_variants {types : List DeclType} {t : DeclType} (h : Bounded types t) : t ∈ variants types := by
  obtain ⟨hd, u, hu, hb⟩ := h
  refine List.mem_flatMap.2 ⟨u, hu, List.mem_map.2 ⟨t.dims, List.mem_range.2 (Nat.lt_succ_of_le hd), ?_⟩⟩
  rw [hb]
  exact t.wrap_base

theorem length_variants (types : List DeclType) :
    (variants types).length = types.length * ((types.map DeclType.dims).foldl max 0 + 1) := by
  unfold variants
  generalize (types.map DeclType.dims).foldl max 0 = k
  induction types with
  | nil => simp
  | cons u types ih =>
    rw [List.flatMap_cons, List.length_append, ih, List.length_map, List.length_range,
      List.length_cons, Nat.succ_mul, Nat.add_comm]

/-- What an instruction brings is the exact type of one that it mentions, or that of an array inside it. -/
theorem Instr.exists_outer_of_brings (i : Instr) {t : ExactType} (h : t ∈ i.brings) :
    ∃ u ∈ i.mentions, ∃ outer, ExactType.ofDecl? u = some outer ∧
      (t = outer ∨ ∃ count, t ∈ Analysis.innerArrays outer count) := by
  cases i with
  | textConst dst value => exact ⟨_, List.mem_cons_self, _, rfl, Or.inl (List.mem_singleton.1 h)⟩
  | classConst dst constant => exact ⟨_, List.mem_cons_self, _, rfl, Or.inl (List.mem_singleton.1 h)⟩
  | new dst cls => exact ⟨_, List.mem_cons_self, _, rfl, Or.inl (List.mem_singleton.1 h)⟩
  | newArray dst item length => exact ⟨.array item, List.mem_cons_self, t, Option.mem_toList.1 h, Or.inl rfl⟩
  | newMultiArray dst type lengths =>
    cases hd : ExactType.ofDecl? type with
    | none =>
      simp only [Instr.brings, hd] at h
      exact absurd h List.not_mem_nil
    | some outer =>
      simp only [Instr.brings, hd] at h
      exact ⟨type, List.mem_cons_self, outer, hd, (List.mem_cons.1 h).imp id fun h => ⟨_, h⟩⟩
  | _ => exact absurd h List.not_mem_nil

/-- What an instruction brings has an innermost type that it mentions. -/
theorem Instr.mentions_of_brings {i : Instr} {t : ExactType} (h : t ∈ i.brings) :
    ∃ u ∈ i.mentions, u.base = t.toDecl.base ∧ t.toDecl.dims ≤ u.dims := by
  obtain ⟨u, hu, outer, hd, hcases⟩ := i.exists_outer_of_brings h
  refine ⟨u, hu, ?_⟩
  rcases hcases with rfl | ⟨count, hinner⟩
  · rw [ExactType.toDecl_ofDecl? hd]
    exact ⟨rfl, Nat.le_refl _⟩
  · obtain ⟨helement, -, level, -, -, hsum⟩ := Analysis.mem_innerArrays_iff.1 hinner
    rw [ExactType.ofDecl?_eq_some hd] at helement hsum
    show u.base = (t.element.wrap t.dims).base ∧ (t.element.wrap t.dims).dims ≤ u.dims
    rw [helement, DeclType.base_wrap, DeclType.base_base, DeclType.dims_wrap, DeclType.dims_base, Nat.zero_add]
    exact ⟨rfl, Nat.le.intro hsum⟩

theorem Instr.mentions_of_selects {i : Instr} {m : QualifiedMethod} (h : m ∈ i.selects) :
    .object m.owner ∈ i.mentions := by
  cases i with
  | call dst? instance? callee args binding =>
    cases instance? with
    | none => exact absurd h List.not_mem_nil
    | some receiver =>
      obtain ⟨owner, ho, rfl⟩ := List.mem_map.1 h
      exact List.mem_map.2 ⟨owner, ho, rfl⟩
  | _ => exact absurd h List.not_mem_nil

theorem Instr.length_selects_le (i : Instr) : i.selects.length ≤ if i.isCall then 1 else 0 := by
  cases i with
  | call dst? instance? callee args binding =>
    cases instance? with
    | none => exact Nat.zero_le _
    | some receiver =>
      unfold selects isCall
      rw [List.length_map]
      cases binding.receiver? with
      | none => exact Nat.zero_le _
      | some owner => exact Nat.le_refl _
  | _ => exact Nat.zero_le _

namespace Catalog

variable {c : Catalog}

def declared (c : Catalog) : List QualifiedMethod :=
  c.names.flatMap fun n => match c.find? n with
    | some d => d.methods.map fun f => ⟨n, f.signature⟩
    | none => []

theorem length_declared (c : Catalog) : c.declared.length = sumOver (fun d => d.methods.length) c.classes := by
  unfold declared classes
  induction c.names with
  | nil => rfl
  | cons n names ih =>
    rw [List.flatMap_cons, List.length_append, ih, List.filterMap_cons]
    cases c.find? n with
    | none => simp
    | some d => simp

theorem mem_declared {m : QualifiedMethod} {d : ClassDef} {f : MethodDef} (hd : c.find? m.owner = some d)
    (hf : d.method? m.signature = some f) : m ∈ c.declared := by
  refine List.mem_flatMap.2 ⟨m.owner, c.mem_names hd, ?_⟩
  have hsig := List.find?_some hf
  simp only [decide_eq_true_eq] at hsig
  rw [hd]
  refine List.mem_map.2 ⟨f, List.mem_of_find?_eq_some hf, ?_⟩
  rw [hsig]

theorem mem_classes {n : ClassName} {d : ClassDef} (hd : c.find? n = some d) : d ∈ c.classes :=
  List.mem_filterMap.2 ⟨n, c.mem_names hd, hd⟩

theorem mem_instrs {n : ClassName} {d : ClassDef} {sig : Signature} {f : MethodDef} {body : Body} {i : Instr}
    (hd : c.find? n = some d) (hf : d.method? sig = some f) (hb : f.body? = some body) (hi : i ∈ body.instrs) :
    i ∈ c.instrs := by
  refine List.mem_flatMap.2 ⟨d, mem_classes hd, List.mem_flatMap.2 ⟨f, List.mem_of_find?_eq_some hf, ?_⟩⟩
  rw [hb]
  exact hi

theorem length_selects_le (c : Catalog) :
    (c.instrs.flatMap Instr.selects).length ≤ (c.instrs.filter Instr.isCall).length := by
  induction c.instrs with
  | nil => exact Nat.le_refl _
  | cons i instrs ih =>
    have hi := i.length_selects_le
    rw [List.flatMap_cons, List.length_append, List.filter_cons]
    split
    · next hcall =>
      rw [if_pos hcall] at hi
      rw [List.length_cons]
      omega
    · next hcall =>
      rw [if_neg hcall] at hi
      omega

end Catalog

namespace Analysis

variable {s₀ s s' : Analysis} {γ γ' : List Duty} {w : Actor}

/-- What a run that began at `s₀` has met so far. -/
structure Within (s₀ s : Analysis) : Prop where
  lookup : ∀ n, s.hierarchy.lookup n = s₀.hierarchy.lookup n
  types : ∀ e ∈ s.graph.types, Bounded s₀.mentioned e.toDecl
  aggregates : ∀ t ∈ s.aggregates.keys, Bounded s₀.mentioned t

theorem mem_mentioned_of_instr {i : Instr} (hi : i ∈ s.hierarchy.view.instrs) {t : DeclType} (ht : t ∈ i.mentions) :
    t ∈ s.mentioned := by
  unfold mentioned
  refine List.mem_append_left _ (List.mem_append_left _ (List.mem_append_left _ (List.mem_append_left _ ?_)))
  exact List.mem_flatMap.2 ⟨i, hi, ht⟩

theorem mem_mentioned_of_supertype {n super : ClassName} {d : ClassDef} (hd : s.hierarchy.lookup n = some d)
    (hs : super ∈ d.supertypes) : .object super ∈ s.mentioned := by
  unfold mentioned
  refine List.mem_append_left _ (List.mem_append_left _ (List.mem_append_left _ (List.mem_append_right _ ?_)))
  exact List.mem_flatMap.2 ⟨d, Catalog.mem_classes (c := s.hierarchy.view) hd, List.mem_map.2 ⟨super, hs, rfl⟩⟩

theorem Within.refl (s : Analysis) : s.Within s where
  lookup _ := rfl
  types e he := by
    refine bounded_of_mem (u := e.toDecl) ?_ rfl (Nat.le_refl _)
    unfold mentioned
    refine List.mem_append_left _ (List.mem_append_left _ (List.mem_append_right _ ?_))
    exact List.mem_map.2 ⟨e, he, rfl⟩
  aggregates t ht := by
    refine bounded_of_mem (u := t) ?_ rfl (Nat.le_refl _)
    unfold mentioned
    exact List.mem_append_left _ (List.mem_append_right _ ht)

theorem Within.instr (hw : s₀.Within s) (hv : s.Valid) {p : Instr → Prop} (hp : s.InBody p) :
    ∃ i ∈ s₀.hierarchy.view.instrs, p i := by
  obtain ⟨id, r, body, hr, hb, i, hi, hpi⟩ := hp
  have hrec := hv.methods.record hr
  have hfind : s₀.hierarchy.view.find? r.reference.owner = some r.declaring :=
    (hw.lookup _).symm.trans (Hierarchy.lookup_of_find? hrec.declaring)
  exact ⟨i, Catalog.mem_instrs hfind hrec.definition hb hi, hpi⟩

theorem Within.brings (hw : s₀.Within s) (hv : s.Valid) {t : ExactType} (hb : s.InBody fun i => t ∈ i.brings) :
    Bounded s₀.mentioned t.toDecl := by
  obtain ⟨i, hi, ht⟩ := hw.instr hv hb
  obtain ⟨u, hu, hbase, hdims⟩ := Instr.mentions_of_brings ht
  exact bounded_of_mem (mem_mentioned_of_instr hi hu) hbase hdims

theorem Within.aggregable (hw : s₀.Within s) (hv : s.Valid) {t : DeclType} (ht : s.Aggregable t) :
    Bounded s₀.mentioned t := by
  rcases ht with ⟨e, he, rfl⟩ | ⟨sub, hsub, ht⟩ | ⟨declared, hd, rfl⟩
  · exact hw.types e he
  · unfold directSupertypes at ht
    split at ht
    · next name _ =>
      split at ht
      · cases ht
      · split at ht
        · next d hd =>
          obtain ⟨super, hs, rfl⟩ := List.mem_map.1 ht
          have hmem := mem_mentioned_of_supertype ((hw.lookup name).symm.trans hd) hs
          refine ⟨?_, _, hmem, ?_⟩
          · have hdims := (hw.aggregates sub hsub).1
            rw [DeclType.dims_wrap]
            exact Nat.le_trans (Nat.le_of_eq (Nat.zero_add _)) hdims
          · rw [DeclType.base_wrap]
        · cases ht
    · cases ht
  · obtain ⟨id, hid⟩ := Option.isSome_iff_exists.1 (Table.find?_isSome_iff.2 hd)
    obtain ⟨sel, _, hsel⟩ := hv.selectors.selector hid
    obtain ⟨i, hi, hm⟩ := hw.instr hv hsel.asked
    exact bounded_of_mem (mem_mentioned_of_instr hi (Instr.mentions_of_selects hm)) rfl (Nat.le_refl _)

end Analysis

end TypeFlow
