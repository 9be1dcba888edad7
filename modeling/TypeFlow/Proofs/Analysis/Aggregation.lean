import TypeFlow.Proofs.Analysis.Fixpoint
import TypeFlow.Proofs.Hierarchy.Supertypes

/-!
# Where instances are collected

When an analysis is driven from its entry points, whatever a node holds is
held by the root. From there each type goes to its own aggregate and on along
the direct supertypes, as far as the top class.
-/

namespace TypeFlow

namespace Analysis

variable {w : Actor} {s s' : Analysis} {γ γ' : List Duty}

/-! ## The root -/

def Rooted (s : Analysis) : Prop := ∀ n i : Nat, i ∈ s.graph.held n → i ∈ s.graph.held root

theorem Rooted.of_arrived (hr : s.Rooted) (h : s.Grows s')
    (ha : ∀ n i : Nat, i ∈ s'.graph.held n → i ∈ s.graph.held n ∨ i ∈ s'.graph.held root) : s'.Rooted := by
  intro n i hi
  rcases ha n i hi with hi | hi
  · exact h.graph.mem_held (hr n i hi)
  · exact hi

theorem Rooted.of_same (hr : s.Rooted) (hh : ∀ n, s'.graph.held n = s.graph.held n) : s'.Rooted := by
  intro n i hi
  rw [hh] at hi ⊢
  exact hr n i hi

theorem rooted_withType (hv : s.Valid) (hr : s.Rooted) {n : Nat} (hn : n < s.graph.nodes.size) (t : ExactType) :
    (s.withType t [n, root]).Rooted := by
  refine hr.of_arrived (s.grows_withType t _) fun m i hi => ?_
  rcases FlowGraph.arrived_addAll hi with hi | rfl
  · exact Or.inl (FlowGraph.held_intern s.graph t m ▸ hi)
  · have hnodes : ∀ k ∈ [n, root], k < (s.graph.intern t).2.nodes.size := by
      rw [FlowGraph.nodes_intern]
      exact lt_size_of_mem_pair hv hn
    refine Or.inr ((FlowGraph.valid_addAll (hv.graph.intern t) ?_ hnodes).2 root ?_)
    · exact FlowGraph.lt_types_of_type? (s.graph.type?_intern t)
    · exact List.mem_cons_of_mem _ List.mem_cons_self

theorem Step.rooted (hstep : Step w s γ s' γ') (hw : w ≠ .client) (hv : s.Valid) (hr : s.Rooted) : s'.Rooted := by
  have h := hstep.grows
  cases hstep with
  | linkClass name => exact hr.of_same fun n => by rw [graph_linkClass]
  | @recordMethod m d f =>
    refine hr.of_same fun n => ?_
    rw [recordMethod_eq]
    simp only [FlowGraph.held_newNode, FlowGraph.held_newNodes]
  | newField => exact hr.of_same fun n => FlowGraph.held_newNode s.graph n
  | aggregate ht =>
    rw [aggregate_of_none ht]
    exact hr.of_same fun n => FlowGraph.held_newNode s.graph n
  | pool hk =>
    rw [poolNode_of_none hk]
    exact hr.of_same fun n => FlowGraph.held_newNode s.graph n
  | connect ha hb hk =>
    refine hr.of_arrived h fun n i hi => ?_
    rcases FlowGraph.arrived_connect hi with hi | hi
    · exact Or.inl hi
    · exact Or.inr (h.graph.mem_held (hr _ _ hi))
  | instantiate hn hk hb => exact rooted_withType hv hr hn _
  | @gather n i t hi ht hn =>
    refine hr.of_arrived h fun m j hj => ?_
    rcases FlowGraph.arrived_add hj with hj | rfl
    · exact Or.inl hj
    · exact Or.inr (h.graph.mem_held hi)
  | newPerSite =>
    refine hr.of_same fun n => ?_
    simp only []
    split
    · exact FlowGraph.held_listen n
    · rfl
  | attach => exact hr.of_same fun n => FlowGraph.held_listen n
  | takeNotice hg =>
    obtain ⟨rest, -, rfl⟩ := FlowGraph.takeNotice_some hg
    exact hr
  | openBody => exact hr.of_same fun n => FlowGraph.held_newNodes s.graph _ n
  | newNode hc => exact absurd hc hw
  | addType hc => exact absurd hc hw
  | observe hc => exact absurd hc hw
  | _ => exact hr

theorem Moves.rooted (h : Moves w s γ s' γ') (hw : w ≠ .client) (hv : s.Valid) (hr : s.Rooted) : s'.Rooted :=
  (h.invariant (P := fun s _ => s.Valid ∧ s.Rooted)
    (fun hstep hp => ⟨hstep.valid hp.1, hstep.rooted hw hp.1 hp.2⟩) ⟨hv, hr⟩).2

theorem rooted_blank (settings : Settings) (h : Hierarchy)
    (entries : Table QualifiedMethod (List (Nat × ExactType)))
    (reseed : Bool) (generation : Nat) (observations : List (String × ExactType)) :
    (blank settings h entries reseed generation observations).Rooted := by
  intro n i hi
  have hi' : i ∈ initialGraph.held n := hi
  rw [held_initialGraph] at hi'
  cases hi'

theorem Rooted.command (hr : s.Rooted) (h : s.Sound) (c : Command) : (s.command c).Rooted := by
  rcases h.command_cases c with hm | ⟨w, rfl⟩ | ⟨names, rfl⟩
  · exact hm.rooted nofun h.valid hr
  · exact hr
  · exact rooted_blank _ _ _ _ _ _

theorem Rooted.after (hr : s.Rooted) (h : s.Sound) (commands : List Command) : (s.after commands).Rooted := by
  induction commands generalizing s with
  | nil => exact hr
  | cons c commands ih => exact ih (hr.command h c) (h.command c).1

theorem rooted_new (w : World) (settings : Settings) : (Analysis.new w settings).Rooted :=
  rooted_blank settings { world := w } ∅ false 0 []

/-! ## Aggregates -/

/-- A type that the root holds is held by the aggregate of its own declared type, as no notice waits. -/
theorem Sound.mem_own_aggregate (h : s.Sound) {i : Nat} {t : ExactType} (hi : i ∈ s.graph.held root)
    (ht : s.graph.type? i = some t) : ∃ n, s.aggregate? t.toDecl = some n ∧ i ∈ s.graph.held n := by
  have howes : s.Owes (.notice ⟨aggregationListener, i⟩) := ⟨root, h.valid.listeners.root, hi⟩
  have hcalm : s.graph.pending = [] := h.calm
  have hpending : ⟨aggregationListener, i⟩ ∉ s.graph.pending := hcalm ▸ List.not_mem_nil
  obtain ⟨l, t', hl, ht', hserved⟩ := ((h.covered _ howes).resolve_left hpending).resolve_left List.not_mem_nil
  obtain rfl : t = t' := Option.some.inj (ht.symm.trans ht')
  obtain rfl : .aggregation = l := Option.some.inj (h.valid.listeners.aggregation.symm.trans hl)
  exact hserved

theorem Sound.mem_typesAt_own_aggregate (h : s.Sound) {t : ExactType} (ht : t ∈ s.graph.typesAt root) :
    ∃ n, s.aggregate? t.toDecl = some n ∧ t ∈ s.graph.typesAt n := by
  obtain ⟨i, hi, hit⟩ := FlowGraph.mem_typesAt.1 ht
  obtain ⟨n, hn, hin⟩ := h.mem_own_aggregate hi hit
  exact ⟨n, hn, FlowGraph.mem_typesAt.2 ⟨i, hin, hit⟩⟩

theorem isRoot_wrap {name : ClassName} {k : Nat} :
    ((DeclType.object name).wrap k).isRoot = true ↔ name = objectClass ∧ k = 0 := by
  unfold DeclType.isRoot
  cases k with
  | zero => simp [DeclType.wrap]
  | succ k => simp [DeclType.wrap]

/-- In a settled analysis the types of an aggregate go on to those of all inherited
classes, with as many dimensions. -/
theorem Sound.mem_arrays_of_inherits (h : s.Sound) (hs : s.isSettled) {name target : ClassName} {k n i : Nat}
    (hinh : s.hierarchy.view.Inherits name target) (hn : s.aggregate? ((DeclType.object name).wrap k) = some n)
    (hi : i ∈ s.graph.held n) :
    ∃ m, s.aggregate? ((DeclType.object target).wrap k) = some m ∧ i ∈ s.graph.held m := by
  induction hinh generalizing n with
  | self name => exact ⟨n, hn, hi⟩
  | @step name super target d hne hd hsuper _ ih =>
    have hroot : ¬ ((DeclType.object name).wrap k).isRoot = true := fun heq => hne (isRoot_wrap.1 heq).1
    have hfind : s.aggregates.find? ((DeclType.object name).wrap k) = some n := by
      unfold aggregate? at hn
      rwa [if_neg hroot] at hn
    have howes : s.Owes (.task (.wire ((DeclType.object name).wrap k) n)) := hfind
    obtain ⟨supers, hdec, _, hall, -⟩ := h.covered.done hs howes
    have hmem : (DeclType.object super).wrap k ∈ supers := by
      rw [← hdec.view]
      unfold directSupertypes
      rw [DeclType.base_wrap, DeclType.dims_wrap]
      simp only [DeclType.base, DeclType.dims, Nat.zero_add, if_neg hne, hd]
      exact List.mem_map.2 ⟨super, hsuper, rfl⟩
    obtain ⟨m, hm, hflow⟩ := hall _ hmem
    exact ih hm (h.valid.graph.mem_held_of_flows hflow hi)

theorem Sound.mem_aggregate_of_inherits (h : s.Sound) (hs : s.isSettled) {name target : ClassName} {n i : Nat}
    (hinh : s.hierarchy.view.Inherits name target) (hn : s.aggregate? (.object name) = some n)
    (hi : i ∈ s.graph.held n) : ∃ m, s.aggregate? (.object target) = some m ∧ i ∈ s.graph.held m :=
  h.mem_arrays_of_inherits (k := 0) hs hinh hn hi

end Analysis

end TypeFlow
