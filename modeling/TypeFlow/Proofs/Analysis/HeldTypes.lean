import TypeFlow.Proofs.Analysis.Covariance
import TypeFlow.Proofs.Analysis.Driven
import TypeFlow.Proofs.Analysis.Restart

/-!
# Types that values have

A declared type may be void or nest to any depth, and an allocation may give
more lengths than its type has dimensions. All the same only types that values
can have are made from them: the conversion refuses the others, and no inner
array loses its last dimension. What then flows was brought by an instruction
or given to a parameter, and its class was linked before it got to any node.
-/

namespace TypeFlow

/-- What an instruction brings is well formed, whatever type it names and however many lengths it gives. -/
theorem Instr.wellFormed_of_brings {i : Instr} {t : ExactType} (h : t ∈ i.brings) : t.WellFormed := by
  obtain ⟨type, -, outer, hd, hcases⟩ := i.exists_outer_of_brings h
  have houter := ExactType.wellFormed_of_ofDecl? hd
  rcases hcases with rfl | ⟨count, hinner⟩
  · exact houter
  · obtain ⟨helement, hdims, -⟩ := Analysis.mem_innerArrays_iff.1 hinner
    exact houter.of_element helement hdims

namespace Analysis

structure Typed (s : Analysis) : Prop where
  wellFormed : ∀ t ∈ s.graph.types, t.WellFormed
  linked : ∀ t ∈ s.graph.types, ∀ name, t.element.className? = some name → name ∈ s.classes.keys

def SeedsTyped (s : Analysis) : Prop :=
  ∀ m seeds, s.entries.find? m = some seeds → ∀ seed ∈ seeds, seed.2.WellFormed

variable {s s' : Analysis} {γ γ' : List Duty} {t : ExactType}

namespace Typed

theorem of_empty (h : s.graph.types = ∅) : s.Typed := by
  have hnone : ∀ t, t ∉ s.graph.types := fun t => h ▸ OrderedSet.not_mem_empty t
  exact ⟨fun t ht => absurd ht (hnone t), fun t ht => absurd ht (hnone t)⟩

/-- Classes stay linked, so only a new type could do harm. -/
theorem grow (h : s.Typed) (hg : s.Grows s') (htypes : s'.graph.types = s.graph.types) : s'.Typed where
  wellFormed t ht := h.wellFormed t (htypes ▸ ht)
  linked t ht name hname := hg.classes (h.linked t (htypes ▸ ht) name hname)

theorem step (h : s.Typed) (hstep : Step .analysis s γ s' γ') : s'.Typed where
  wellFormed t ht := by
    rcases hstep.types t ht with ht | ⟨⟨id, r, body, -, -, i, -, hi⟩, -⟩
    · exact h.wellFormed t ht
    · exact Instr.wellFormed_of_brings hi
  linked t ht name hname := by
    refine hstep.grows.classes ?_
    rcases hstep.types t ht with ht | ⟨-, hlinked⟩
    · exact h.linked t ht name hname
    · exact hlinked name hname

theorem moves (h : s.Typed) (hm : Moves .analysis s γ s' γ') : s'.Typed :=
  hm.invariant (P := fun s _ => s.Typed) (fun hstep h => h.step hstep) h

theorem drain (h : s.Typed) (hv : s.Valid) : s.drain.Typed := h.moves (moves_drain (w := .analysis) hv [])

theorem withType (h : s.Typed) (ht : t.WellFormed)
    (hc : ∀ name, t.element.className? = some name → name ∈ s.classes.keys) (nodes : List NodeId) :
    (s.withType t nodes).Typed := by
  refine ⟨fun u hu => ?_, fun u hu => ?_⟩
  · rcases mem_types_withType.1 hu with hu | rfl
    · exact h.wellFormed u hu
    · exact ht
  · rcases mem_types_withType.1 hu with hu | rfl
    · exact h.linked u hu
    · exact hc

/-- Whoever asks for an instance: its class is linked first. -/
theorem instantiate (h : s.Typed) (hv : s.Valid) {n : NodeId} (hn : n < s.graph.nodes.size) (ht : t.WellFormed) :
    (s.instantiate n t).Typed := by
  have hlink := moves_linkElement (w := .analysis) s t []
  have hvalid := valid_withType (hlink.valid hv) t (lt_size_of_mem_pair (hlink.valid hv) (hlink.grows.lt_size hn))
  rw [instantiate_eq]
  exact ((h.moves hlink).withType ht (fun _ => mem_keys_linkElement) _).drain hvalid.1

end Typed

theorem driven_typed : Driven .analysis ExactType.WellFormed Typed where
  moves _ hm h := h.moves hm
  instantiate hv hn ht h := h.instantiate hv hn.1 ht
  noted _ _ _ h := ⟨h.wellFormed, h.linked⟩

/-! ## Parameter types -/

theorem SeedsTyped.of_entries (h : s.SeedsTyped) (hentries : s'.entries = s.entries) : s'.SeedsTyped :=
  fun m seeds hfind => h m seeds (hentries ▸ hfind)

theorem SeedsTyped.addEntry (h : s.SeedsTyped) (hv : s.Valid) (m : QualifiedMethod) :
    (s.addEntry m).2.SeedsTyped := by
  rcases addEntry_cases hv m with ⟨id, u, hadd, -, -, hentries, -⟩ | ⟨u, hadd, -, hentries⟩
  · rw [hadd]
    intro k seeds hfind
    rw [hentries, Table.find?_insertNew] at hfind
    split at hfind
    · cases hfind
      exact fun seed hseed => absurd hseed List.not_mem_nil
    · exact h k seeds hfind
  · rw [hadd]
    exact h.of_entries hentries

theorem SeedsTyped.noteSeed (h : s.SeedsTyped) (m : QualifiedMethod) (index : Nat) (ht : t.WellFormed) :
    (s.noteSeed m (index, t)).SeedsTyped := by
  have hnoted : ∀ seed ∈ (s.entries.find? m).getD [], seed.2.WellFormed := by
    cases hfind : s.entries.find? m with
    | none => exact fun seed hseed => absurd hseed List.not_mem_nil
    | some seeds => exact h m seeds hfind
  intro k seeds hfind
  rcases Table.find?_insert_cases hfind with hfind | ⟨rfl, rfl⟩
  · exact h k seeds hfind
  · split
    · exact hnoted
    · intro seed hseed
      rcases List.mem_append.1 hseed with hseed | hseed
      · exact hnoted seed hseed
      · exact List.mem_singleton.1 hseed ▸ ht

theorem SeedsTyped.seedParam (h : s.SeedsTyped) (hv : s.Valid) {m : QualifiedMethod} {index : Nat}
    (ht : t.WellFormed) (hok : s.seedParam m index t = .ok s') : s'.SeedsTyped := by
  obtain ⟨u, hentries, rfl⟩ := seedParam_ok hv hok
  exact (h.of_entries hentries).noteSeed m index ht

/-! ## Sessions -/

/-- Whether nothing is added to a node directly, and each type that is given to a parameter is well formed; a
request that is refused gives none. -/
structure GivesWellFormed (s : Analysis) (ops : List Op) : Prop where
  adds : ∀ n t, .addType n t ∉ ops
  seeds : ∀ before {m index t s'}, before ++ [.command (.seed m index t)] <+: ops →
    (s.history before).seedParam m index t = .ok s' → t.WellFormed

theorem GivesWellFormed.tail {op : Op} {ops : List Op} (h : s.GivesWellFormed (op :: ops)) :
    (s.apply op).GivesWellFormed ops where
  adds n t hmem := h.adds n t (List.mem_cons_of_mem _ hmem)
  seeds before _ _ _ _ hbefore hok := h.seeds (op :: before) (List.cons_prefix_cons.2 ⟨rfl, hbefore⟩) hok

/-- Users of the graph who add no types leave them as they are, and what comes of it is up to the analysis. -/
theorem Typed.apply (h : s.Typed) (hs : s.Sound) {op : Op} (hcommand : ¬ ∃ c, op = .command c)
    (hadd : ∀ n t, op ≠ .addType n t) : (s.apply op).Typed := by
  have hv := hs.valid
  have hgrows := ((hs.apply_cases op).resolve_right hcommand).grows
  cases op with
  | command c => exact absurd ⟨c, rfl⟩ hcommand
  | linkClass name => exact h.moves (moves_linkClass s [] name)
  | linkMethod m => exact h.moves (moves_linkMethod hv [] m).1
  | linkField f => exact h.moves (moves_linkField hv [] f).1
  | newNode => exact h.grow hgrows rfl
  | aggregate t =>
    refine h.grow hgrows ?_
    show (s.aggregate t).2.graph.types = s.graph.types
    cases ht : s.aggregate? t with
    | some n => rw [aggregate_of_some ht]
    | none =>
      rw [aggregate_of_none ht]
      rfl
  | addType n t => exact absurd rfl (hadd n t)
  | connect source target =>
    simp only [Analysis.apply]
    split
    · next hn =>
      rw [Bool.and_eq_true] at hn
      have hstep : Step .client s [] { s with graph := s.graph.connect source target } [] :=
        Step.connect (FlowGraph.hasNode_iff.1 hn.1) (FlowGraph.hasNode_iff.1 hn.2) (Or.inl rfl)
      exact (h.grow hstep.grows (FlowGraph.types_connect _ _ _)).drain (hstep.valid hv)
    · exact h
  | observe n label =>
    simp only [Analysis.apply]
    split
    · next hn =>
      have hstep : Step .client s [] { s with
          graph := s.graph.listen n s.listeners.size
          listeners := s.listeners.push (.observer label) } [] := Step.observe rfl (FlowGraph.hasNode_iff.1 hn)
      exact (h.grow hstep.grows FlowGraph.types_listen).drain (hstep.valid hv)
    · exact h
  | takeObservations => exact h.grow hgrows rfl

/-- Whether a session has flows of well formed types only, and would have when its entry points are linked again. -/
structure WellTyped (s : Analysis) : Prop where
  sound : s.Sound
  rostered : s.Rostered
  typed : s.Typed
  seeds : s.SeedsTyped

namespace WellTyped

theorem settle (h : s.WellTyped) : s.settle.Typed := by
  have hv := h.sound.valid
  have hreseed := moves_reseedEntries hv []
  have hreseeded := driven_typed.reseedEntries hv h.typed fun e he =>
    h.seeds e.1 e.2 (Table.find?_eq_some_iff.2 he)
  exact hreseeded.moves
    (moves_runWaves (w := .analysis) nofun (hreseed.valid hv) (hreseed.covered h.sound.covered) _ _)

theorem command (h : s.WellTyped) {c : Command}
    (hc : ∀ {m index t s'}, c = .seed m index t → s.seedParam m index t = .ok s' → t.WellFormed) :
    (s.command c).Typed ∧ (s.command c).SeedsTyped := by
  have hv := h.sound.valid
  cases c with
  | entry m => exact ⟨driven_typed.addEntry hv h.typed m, h.seeds.addEntry hv m⟩
  | seed m index t =>
    simp only [Analysis.command]
    split
    · next hok =>
      have ht := hc rfl hok
      exact ⟨driven_typed.seedParam hv h.typed ht hok, h.seeds.seedParam hv ht hok⟩
    · exact ⟨h.typed, h.seeds⟩
  | world w => exact ⟨⟨h.typed.wellFormed, h.typed.linked⟩, h.seeds⟩
  | evict names => exact ⟨.of_empty rfl, h.seeds⟩
  | settle =>
    exact ⟨h.settle, h.seeds.of_entries (h.rostered.entries_command h.sound (c := .settle) rfl)⟩

theorem apply (h : s.WellTyped) {op : Op} {ops : List Op} (hops : s.GivesWellFormed (op :: ops)) :
    (s.apply op).WellTyped := by
  have hsound := (h.sound.apply op).1
  by_cases hcommand : ∃ c, op = .command c
  · obtain ⟨c, rfl⟩ := hcommand
    obtain ⟨htyped, hseeds⟩ := h.command fun hc hok => hops.seeds [] (hc ▸ ⟨ops, rfl⟩) hok
    exact ⟨hsound, h.rostered.command h.sound c, htyped, hseeds⟩
  · have hm := (h.sound.apply_cases op).resolve_right hcommand
    have htyped := h.typed.apply h.sound hcommand fun n t heq => hops.adds n t (heq ▸ List.mem_cons_self)
    exact ⟨hsound, h.rostered.moves hm nofun, htyped, h.seeds.of_entries (hm.entries_eq nofun)⟩

theorem history (h : s.WellTyped) {ops : List Op} (hops : s.GivesWellFormed ops) : (s.history ops).WellTyped := by
  induction ops generalizing s with
  | nil => exact h
  | cons op ops ih => exact ih (h.apply hops) hops.tail

end WellTyped

theorem wellTyped_new (w : World) (settings : Settings) : (new w settings).WellTyped where
  sound := sound_new w settings
  rostered := rostered_new w settings
  typed := .of_empty rfl
  seeds := nofun

/-- Whether the types that were interned and those that nodes hold are well formed, and the class of an object that
a node holds has a record. -/
structure FlowsWellFormed (s : Analysis) : Prop where
  interned : ∀ t ∈ s.graph.types, t.WellFormed
  held : ∀ n, ∀ i ∈ s.graph.held n, ∃ t, s.graph.type? i = some t ∧ t.WellFormed
  recorded : ∀ n, ∀ t ∈ s.graph.typesAt n, ∀ name, t.element = .object name → ∃ r, s.classes.find? name = some r

theorem WellTyped.flowsWellFormed (h : s.WellTyped) : s.FlowsWellFormed where
  interned := h.typed.wellFormed
  held n i hi := by
    obtain ⟨t, ht⟩ := FlowGraph.exists_type? (h.sound.valid.graph.held hi)
    exact ⟨t, ht, h.typed.wellFormed t (List.mem_of_getElem? ht)⟩
  recorded n t ht name hname := by
    obtain ⟨i, -, hi⟩ := FlowGraph.mem_typesAt.1 ht
    have hmem : t ∈ s.graph.types := List.mem_of_getElem? hi
    have hlinked := h.typed.linked t hmem name (congrArg DeclType.className? hname)
    exact Option.isSome_iff_exists.1 (Table.find?_isSome_iff.2 hlinked)

/-! ## Only well formed types flow -/

/-- Only well formed types flow, whatever the bodies of the world declare: as long as no others are given from
outside, none is interned or held, each object that is held has a class that is linked, and the inner arrays of an
allocation have one dimension less at each level and at least one left. -/
theorem wellFormed_history (w : World) (settings : Settings) {ops : List Op}
    (hops : (new w settings).GivesWellFormed ops) : ((new w settings).history ops).FlowsWellFormed ∧
      ∀ t count inner, inner ∈ innerArrays t count ↔ inner.element = t.element ∧ 1 ≤ inner.dims ∧
        ∃ level, 1 ≤ level ∧ level < count ∧ inner.dims + level = t.dims :=
  ⟨((wellTyped_new w settings).history hops).flowsWellFormed, fun _ _ _ => mem_innerArrays_iff⟩

/-! Arrays of arrays are made of a class that is nowhere, and an array of numbers is given to the receiver. -/

def sampleGiven : List Op :=
  [.command (.entry ⟨"A", ⟨"main", [], .void⟩⟩), .command (.seed ⟨"A", ⟨"main", [], .void⟩⟩ 0 ⟨.primitive .int, 2⟩),
    .command .settle]

theorem givesWellFormed_sampleGiven (s : Analysis) : s.GivesWellFormed sampleGiven where
  adds n t hmem := by simp [sampleGiven] at hmem
  seeds before m index t s' hbefore _ := by
    have hmem := hbefore.subset (List.mem_append_right before List.mem_cons_self)
    simp only [sampleGiven, List.mem_cons, Op.command.injEq, Command.seed.injEq, reduceCtorEq, List.not_mem_nil,
      or_false, false_or] at hmem
    obtain ⟨-, -, rfl⟩ := hmem
    decide

theorem flowsWellFormed_sampleGiven : (new sampleArrays {}).GivesWellFormed sampleGiven ∧
    ((new sampleArrays {}).history sampleGiven).FlowsWellFormed :=
  ⟨givesWellFormed_sampleGiven _, (wellFormed_history sampleArrays {} (givesWellFormed_sampleGiven _)).1⟩

set_option maxRecDepth 100000 in
example : ((new sampleArrays {}).history sampleGiven).graph.types.toList.map ExactType.text
      = ["int[][]", "A", "B[]", "C[][]", "C[]"] ∧
    ((new sampleArrays {}).history sampleGiven).classes.keys = ["A", "B", "C"] := by
  decide +kernel

end Analysis

end TypeFlow
