import TypeFlow.Proofs.Analysis.Bound

/-!
# Runs that come to their end

The methods and the tasks that are left never become more, and each one that
is taken makes them fewer. So a run that is given as many steps as there are
at its start empties both queues.
-/

namespace TypeFlow

theorem countP_succ_le {α : Type} {p q : α → Bool} {l : List α} {x : α} (h : ∀ y, q y = true → p y = true)
    (hx : x ∈ l) (hp : p x = true) (hq : q x = false) : l.countP q + 1 ≤ l.countP p := by
  induction l with
  | nil => cases hx
  | cons y l ih =>
    rw [List.countP_cons, List.countP_cons]
    rcases List.mem_cons.1 hx with rfl | hx
    · have hle : l.countP q ≤ l.countP p := List.countP_mono_left fun y _ => h y
      rw [hp, hq]
      simp only [if_true, Bool.false_eq_true, if_false]
      omega
    · have hle := ih hx
      have hy : (if q y = true then 1 else 0) ≤ if p y = true then 1 else 0 := by
        by_cases hqy : q y = true
        · exact Nat.le_of_eq ((if_pos hqy).trans (if_pos (h y hqy)).symm)
        · rw [if_neg hqy]
          exact Nat.zero_le _
      omega

namespace Analysis

variable {s₀ s s' : Analysis} {γ γ' : List Duty} {w : Actor}

def methodsLeft (s₀ s : Analysis) : Nat :=
  s.worklist.length + s₀.hierarchy.view.declared.countP fun m => (s.declarationId? m).isNone

def tasksLeft (s₀ s : Analysis) : Nat :=
  s.deferred.length + (variants s₀.mentioned).countP (fun t => decide (t ∉ s.aggregates.keys))
    + (s₀.hierarchy.view.instrs.flatMap Instr.selects).countP fun m => decide (.shared m ∉ s.selectorKeys.keys)

theorem methodsLeft_le_bound (s : Analysis) : s.methodsLeft s ≤ s.methodBound := by
  unfold methodsLeft methodBound
  rw [← Catalog.length_declared]
  exact Nat.add_le_add_left List.countP_le_length _

theorem tasksLeft_le_bound (s : Analysis) : s.tasksLeft s ≤ s.taskBound := by
  have htypes : (variants s.mentioned).countP (fun t => decide (t ∉ s.aggregates.keys))
      ≤ s.mentioned.length * ((s.mentioned.map DeclType.dims).foldl max 0 + 1) :=
    length_variants s.mentioned ▸ List.countP_le_length
  have hselects : (s.hierarchy.view.instrs.flatMap Instr.selects).countP
      (fun m => decide (.shared m ∉ s.selectorKeys.keys)) ≤ (s.hierarchy.view.instrs.filter Instr.isCall).length :=
    Nat.le_trans List.countP_le_length (Catalog.length_selects_le _)
  unfold tasksLeft taskBound
  simp only []
  omega

/-! ## What a step of a run brings up -/

/-- A type is new when a linked body brings it, and its class is linked by then. -/
theorem Step.types (h : Step .analysis s γ s' γ') : ∀ e ∈ s'.graph.types, e ∈ s.graph.types ∨
    (s.InBody fun i => e ∈ i.brings) ∧ ∀ name, e.element.className? = some name → name ∈ s.classes.keys := by
  have hsame : s'.graph.types = s.graph.types → ∀ e ∈ s'.graph.types, e ∈ s.graph.types ∨
      (s.InBody fun i => e ∈ i.brings) ∧ ∀ name, e.element.className? = some name → name ∈ s.classes.keys :=
    fun heq e he => Or.inl (heq ▸ he)
  cases h with
  | linkClass name => exact hsame (congrArg FlowGraph.types (graph_linkClass s name))
  | @recordMethod m d f => exact hsame (FlowGraph.types_newNodes s.graph (m.signature.params.length + 1))
  | aggregate ht =>
    rw [aggregate_of_none ht] at hsame ⊢
    exact hsame rfl
  | pool hk =>
    rw [poolNode_of_none hk] at hsame ⊢
    exact hsame rfl
  | connect => exact hsame (FlowGraph.types_connect _ _ _)
  | @instantiate n t hn hk hb hc =>
    intro e he
    rcases mem_types_withType.1 he with he | rfl
    · exact Or.inl he
    · exact Or.inr ⟨hb rfl, hc⟩
  | gather => exact hsame (FlowGraph.types_add s.graph _ _)
  | newPerSite =>
    refine hsame ?_
    simp only []
    split
    · exact FlowGraph.types_listen
    · rfl
  | attach => exact hsame FlowGraph.types_listen
  | takeNotice hg =>
    obtain ⟨rest, -, rfl⟩ := FlowGraph.takeNotice_some hg
    exact hsame rfl
  | openBody => exact hsame (FlowGraph.types_newNodes s.graph _)
  | newNode hw => cases hw
  | addType hw => cases hw
  | observe hw => cases hw
  | _ => exact hsame rfl

theorem Step.aggregates (h : Step .analysis s γ s' γ') :
    ∀ t ∈ s'.aggregates.keys, t ∈ s.aggregates.keys ∨ s.Aggregable t := by
  cases h with
  | linkClass name =>
    obtain ⟨h, c, p, hs, _⟩ := s.linkClass_frame name
    rw [hs]
    exact fun t ht => Or.inl ht
  | @aggregate t ht ha =>
    rw [aggregate_of_none ht]
    intro u hu
    have hu' : u ∈ (s.aggregates.insert t s.graph.newNode.1).keys := hu
    rw [Table.keys_insert] at hu'
    split at hu'
    · exact Or.inl hu'
    · rcases List.mem_append.1 hu' with hu' | hu'
      · exact Or.inl hu'
      · exact Or.inr (List.mem_singleton.1 hu' ▸ ha.resolve_left nofun)
  | pool hk =>
    rw [poolNode_of_none hk]
    exact fun t ht => Or.inl ht
  | _ => exact fun t ht => Or.inl ht

theorem Within.step (hw : s₀.Within s) (hv : s.Valid) (h : Step .analysis s γ s' γ') : s₀.Within s' where
  lookup n := (h.learns.lookup n).trans (hw.lookup n)
  types e he := by
    rcases h.types e he with he | ⟨hb, -⟩
    · exact hw.types e he
    · exact hw.brings hv hb
  aggregates t ht := by
    rcases h.aggregates t ht with ht | ha
    · exact hw.aggregates t ht
    · exact hw.aggregable hv ha

/-! ## Counting -/

theorem declarationId?_isNone_of_grows (h : s.Grows s') {m : QualifiedMethod}
    (hm : (s'.declarationId? m).isNone = true) :
    (s.declarationId? m).isNone = true := by
  cases hd : s.declarationId? m with
  | none => rfl
  | some id =>
    obtain ⟨r, hr, rfl⟩ := exists_of_declarationId? hd
    obtain ⟨r', hr', hg⟩ := h.methods id r hr
    rw [Option.isNone_iff_eq_none] at hm
    exact absurd hg.reference (reference_ne_of_declarationId? hm hr')

theorem methodsLeft_le (h : s.Grows s') (hw : s'.worklist.length ≤ s.worklist.length) :
    s₀.methodsLeft s' ≤ s₀.methodsLeft s :=
  Nat.add_le_add hw (List.countP_mono_left fun _ _ => declarationId?_isNone_of_grows h)

/-- A method that waits newly is one that could still be linked. -/
theorem Step.methodsLeft_le (h : Step w s γ s' γ') (hl : ∀ n, s.hierarchy.lookup n = s₀.hierarchy.lookup n) :
    s₀.methodsLeft s' ≤ s₀.methodsLeft s := by
  have hgrows := h.grows
  cases h with
  | linkClass name =>
    obtain ⟨h, c, p, hs, _⟩ := s.linkClass_frame name
    rw [hs] at hgrows ⊢
    exact Analysis.methodsLeft_le hgrows (Nat.le_refl _)
  | @recordMethod m d f hm hd hf =>
    have hmem : m ∈ s₀.hierarchy.view.declared :=
      Catalog.mem_declared ((hl _).symm.trans (Hierarchy.lookup_of_find? hd)) hf
    have hself : (s.recordMethod m d f).2.methods[s.methods.size]? = some (s.newRecord m d f) :=
      Array.getElem?_push_size
    have hlinked : ((s.recordMethod m d f).2.declarationId? m).isNone = false := by
      cases hid : (s.recordMethod m d f).2.declarationId? m with
      | some id => rfl
      | none => exact absurd rfl (reference_ne_of_declarationId? hid hself)
    have hcount := countP_succ_le (fun _ => declarationId?_isNone_of_grows hgrows) hmem
      (p := fun m => (s.declarationId? m).isNone) (Option.isNone_iff_eq_none.2 hm) hlinked
    have hlength : (s.recordMethod m d f).2.worklist.length = s.worklist.length + 1 := List.length_append
    unfold methodsLeft
    rw [hlength]
    omega
  | aggregate ht =>
    rw [aggregate_of_none ht] at hgrows ⊢
    exact Analysis.methodsLeft_le hgrows (Nat.le_refl _)
  | pool hk =>
    rw [poolNode_of_none hk] at hgrows ⊢
    exact Analysis.methodsLeft_le hgrows (Nat.le_refl _)
  | takeMethod hw =>
    refine Analysis.methodsLeft_le hgrows ?_
    rw [hw]
    exact Nat.le_succ _
  | _ => exact Analysis.methodsLeft_le hgrows (Nat.le_refl _)

theorem tasksLeft_le (h : s.Grows s') (hd : s'.deferred.length ≤ s.deferred.length) :
    s₀.tasksLeft s' ≤ s₀.tasksLeft s := by
  refine Nat.add_le_add (Nat.add_le_add hd (List.countP_mono_left fun t _ ht => ?_))
    (List.countP_mono_left fun m _ hm => ?_)
  · exact decide_eq_true fun hold => of_decide_eq_true ht (h.aggregates.mem_keys hold)
  · exact decide_eq_true fun hold => of_decide_eq_true hm (h.selectorKeys.mem_keys hold)

/-- A task that waits newly belongs to an aggregate or selector that was not there. -/
theorem Step.tasksLeft_le (h : Step .analysis s γ s' γ') (hv : s.Valid) (hw : s₀.Within s) :
    s₀.tasksLeft s' ≤ s₀.tasksLeft s := by
  have hgrows := h.grows
  cases h with
  | linkClass name =>
    obtain ⟨h, c, p, hs, _⟩ := s.linkClass_frame name
    rw [hs] at hgrows ⊢
    exact Analysis.tasksLeft_le hgrows (Nat.le_refl _)
  | @aggregate t ht ha =>
    have hmem := (hw.aggregable hv (ha.resolve_left nofun)).mem_variants
    have hnew := Table.find?_eq_none_iff.1 (not_isRoot_of_none ht).2
    rw [aggregate_of_none ht] at hgrows ⊢
    have hcount := countP_succ_le (p := fun t => decide (t ∉ s.aggregates.keys))
      (q := fun u => decide (u ∉ (s.aggregates.insert t s.graph.newNode.1).keys))
      (fun u hu => decide_eq_true fun hold => of_decide_eq_true hu (hgrows.aggregates.mem_keys hold)) hmem
      (decide_eq_true hnew) (decide_eq_false fun hnot => hnot (Table.mem_keys_of_find?
        (Table.find?_insert_self s.aggregates t s.graph.newNode.1)))
    have hlength : (s.deferred ++ [Task.wire t s.graph.newNode.1]).length = s.deferred.length + 1 :=
      List.length_append
    unfold tasksLeft
    simp only [hlength]
    omega
  | pool hk =>
    rw [poolNode_of_none hk] at hgrows ⊢
    exact Analysis.tasksLeft_le hgrows (Nat.le_refl _)
  | @newShared declared hk hp hb =>
    obtain ⟨i, hi, hselects⟩ := hw.instr hv hb
    have hmem : declared ∈ s₀.hierarchy.view.instrs.flatMap Instr.selects := List.mem_flatMap.2 ⟨i, hi, hselects⟩
    have hcount := countP_succ_le (p := fun m => decide (.shared m ∉ s.selectorKeys.keys))
      (q := fun m => decide (.shared m ∉ (s.selectorKeys.insert (.shared declared) s.selectors.size).keys))
      (fun m hm => decide_eq_true fun hold => of_decide_eq_true hm (hgrows.selectorKeys.mem_keys hold)) hmem
      (decide_eq_true (Table.find?_eq_none_iff.1 hk)) (decide_eq_false fun hnot => hnot (Table.mem_keys_of_find?
        (Table.find?_insert_self s.selectorKeys (.shared declared) s.selectors.size)))
    have hlength : (s.deferred ++ [Task.attach s.selectors.size declared.owner]).length = s.deferred.length + 1 :=
      List.length_append
    unfold tasksLeft defer withSelector
    simp only [hlength]
    omega
  | takeTasks => exact Analysis.tasksLeft_le hgrows (Nat.zero_le _)
  | _ => exact Analysis.tasksLeft_le hgrows (Nat.le_refl _)

structure Running (s₀ : Analysis) (methods tasks : Nat) (s : Analysis) : Prop where
  valid : s.Valid
  within : s₀.Within s
  methods : s₀.methodsLeft s ≤ methods
  tasks : s₀.tasksLeft s ≤ tasks

theorem Running.moves {m t : Nat} (hr : s₀.Running m t s) (h : Moves .analysis s γ s' γ') : s₀.Running m t s' :=
  h.invariant (P := fun s _ => s₀.Running m t s) (fun hstep hr =>
    ⟨hstep.valid hr.valid, hr.within.step hr.valid hstep,
      Nat.le_trans (hstep.methodsLeft_le hr.within.lookup) hr.methods,
      Nat.le_trans (hstep.tasksLeft_le hr.valid hr.within) hr.tasks⟩) hr

/-! ## Queues that run empty -/

theorem worklist_processMethods {m t : Nat} (hr : s₀.Running m t s) (hc : s.Covered []) :
    (processMethods m s).worklist = [] := by
  induction m generalizing s with
  | zero =>
    have hle : s.worklist.length ≤ 0 := Nat.le_trans (Nat.le_add_right _ _) hr.methods
    exact List.length_eq_zero_iff.1 (Nat.le_zero.1 hle)
  | succ m ih =>
    unfold processMethods
    split
    · next hw => exact hw
    · next id rest hw =>
      have htake : s₀.methodsLeft { s with worklist := rest } ≤ m := by
        have hle := hr.methods
        unfold methodsLeft at hle ⊢
        rw [hw, List.length_cons] at hle
        simp only [declarationId?] at hle ⊢
        omega
      have hstep : Step .analysis s [] { s with worklist := rest } [.body id] := .takeMethod hw
      have hrest : s₀.Running m t { s with worklist := rest } :=
        ⟨hstep.valid hr.valid, hr.within.step hr.valid hstep, htake,
          Nat.le_trans (hstep.tasksLeft_le hr.valid hr.within) hr.tasks⟩
      have hnext := moves_processNext (w := .analysis) hr.valid hc hw
      exact ih (hrest.moves hnext) (hnext.covered (hstep.covered hc))

theorem running_runTasks {m t : Nat} (hr : s₀.Running m (t + 1) s) (hd : s.deferred ≠ []) :
    s₀.Running m t s.runTasks := by
  have hlength := List.length_pos_iff.2 hd
  have htake : s₀.tasksLeft { s with deferred := [] } ≤ t := by
    have hle := hr.tasks
    unfold tasksLeft at hle ⊢
    simp only [List.length_nil]
    omega
  have hstep : Step .analysis s [] { s with deferred := [] } (s.deferred.map .task ++ []) := .takeTasks s [] nofun
  have hrest : s₀.Running m t { s with deferred := [] } :=
    ⟨hstep.valid hr.valid, hr.within.step hr.valid hstep,
      Nat.le_trans (hstep.methodsLeft_le hr.within.lookup) hr.methods, htake⟩
  exact hrest.moves (moves_takenTasks (w := .analysis) nofun hr.valid)

theorem tasksLeft_pos (s₀ : Analysis) {s : Analysis} (hd : s.deferred ≠ []) : 0 < s₀.tasksLeft s := by
  have hlength := List.length_pos_iff.2 hd
  unfold tasksLeft
  omega

theorem running_waveMethods {m t : Nat} (hr : s₀.Running m t s) (hc : s.Covered []) :
    s₀.Running m t (waveMethods m s) ∧ (waveMethods m s).worklist = [] := by
  have htally : Moves .analysis s [] { s with tally := { s.tally with waves := s.tally.waves + 1 } } [] :=
    (Step.note (by rfl) _ fun _ => by rfl).moves
  exact ⟨hr.moves (moves_waveMethods hr.valid hc m), worklist_processMethods (hr.moves htally) (htally.covered hc)⟩

/-- As long as a wave leaves tasks, running them leaves fewer. -/
theorem running_wave {m t : Nat} (hr : s₀.Running m t s) (hc : s.Covered [])
    (hd : (waveMethods m s).deferred.isEmpty ≠ true) : ∃ k, t = k + 1 ∧ s₀.Running m k (waveMethods m s).runTasks ∧
      (waveMethods m s).runTasks.Covered [] := by
  have hne : (waveMethods m s).deferred ≠ [] := fun h => hd (List.isEmpty_iff.2 h)
  have hmethods := moves_waveMethods (w := .analysis) hr.valid hc m
  have htasks := moves_runTasks (w := .analysis) nofun (hmethods.valid hr.valid)
  have hr₁ := (running_waveMethods hr hc).1
  have hpos := Nat.lt_of_lt_of_le (s₀.tasksLeft_pos hne) hr₁.tasks
  obtain ⟨k, rfl⟩ := Nat.exists_eq_succ_of_ne_zero (Nat.ne_of_gt hpos)
  exact ⟨k, rfl, running_runTasks hr₁ hne, htasks.covered (hmethods.covered hc)⟩

/-- A run with more waves than there are tasks left empties both queues. -/
theorem settled_runWaves {m t fuel : Nat} (hr : s₀.Running m t s) (hc : s.Covered []) (hf : t < fuel) :
    (runWaves m fuel s).worklist = [] ∧ (runWaves m fuel s).deferred = [] := by
  induction fuel generalizing t s with
  | zero => exact absurd hf (Nat.not_lt_zero t)
  | succ fuel ih =>
    rw [runWaves_succ]
    split
    · next hd => exact ⟨(running_waveMethods hr hc).2, List.isEmpty_iff.1 hd⟩
    · next hd =>
      obtain ⟨k, rfl, hr₁, hc₁⟩ := running_wave hr hc hd
      exact ih hr₁ hc₁ (by omega)

/-- Waves with the bounds that a run takes at its start. -/
theorem settled_waves (hv : s.Valid) (hc : s.Covered []) :
    (runWaves s.methodBound (s.taskBound + 1) s).worklist = [] ∧
      (runWaves s.methodBound (s.taskBound + 1) s).deferred = [] :=
  settled_runWaves ⟨hv, .refl s, s.methodsLeft_le_bound, s.tasksLeft_le_bound⟩ hc (Nat.lt_succ_self _)

/-! ## More than enough -/

theorem processMethods_of_empty (h : s.worklist = []) (m : Nat) : processMethods m s = s := by
  cases m with
  | zero => rfl
  | succ m =>
    unfold processMethods
    rw [h]

theorem processMethods_more {m m' : Nat} (h : (processMethods m s).worklist = []) (hm : m ≤ m') :
    processMethods m' s = processMethods m s := by
  induction m generalizing s m' with
  | zero => exact processMethods_of_empty h m'
  | succ m ih =>
    obtain ⟨k, rfl⟩ := Nat.exists_eq_add_of_le hm
    rw [Nat.add_right_comm]
    unfold processMethods at h ⊢
    split
    · rfl
    · next id rest hw =>
      rw [hw] at h
      exact ih h (Nat.le_add_right m k)

/-- A run that settles does the same with higher bounds. -/
theorem runWaves_more {m t fuel m' fuel' : Nat} (hr : s₀.Running m t s) (hc : s.Covered []) (hf : t < fuel)
    (hm : m ≤ m') (hfuel : fuel ≤ fuel') : runWaves m' fuel' s = runWaves m fuel s := by
  induction fuel generalizing t s fuel' with
  | zero => exact absurd hf (Nat.not_lt_zero t)
  | succ fuel ih =>
    obtain ⟨k, rfl⟩ := Nat.exists_eq_add_of_le hfuel
    have hwave : waveMethods m' s = waveMethods m s := processMethods_more (running_waveMethods hr hc).2 hm
    rw [Nat.add_right_comm, runWaves_succ, runWaves_succ, hwave]
    split
    · rfl
    · next hd =>
      obtain ⟨t, rfl, hr₁, hc₁⟩ := running_wave hr hc hd
      exact ih hr₁ hc₁ (by omega) (Nat.le_add_right fuel k)

end Analysis

end TypeFlow
