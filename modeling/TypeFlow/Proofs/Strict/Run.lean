import TypeFlow.Proofs.Strict.Transfer

/-!
# Strict runs

The loops of a strict run end before their turns are used up, and every method
and task that they take is there. Entry points are linked and seeded in the
same way.
-/

namespace TypeFlow

open Analysis

namespace Strict

variable {s s' : Analysis}

/-! ## Waves -/

theorem gives_processMethods {methods : Nat}
    (hend : (Analysis.processMethods methods s).worklist = []) (hv : s.Valid)
    (hc : s.Covered []) : Gives false (processMethods (methods + 1)) s () (Analysis.processMethods methods s) := by
  induction methods generalizing s with
  | zero =>
    -- one turn more than there are methods, to find that none is left
    rw [processMethods]
    refine (gives_look _).bind ?_
    rw [show s.worklist = [] from hend]
    exact .pure ()
  | succ methods ih =>
    rw [processMethods]
    refine (gives_look _).bind ?_
    cases hw : s.worklist with
    | nil =>
      rw [processMethods_of_empty hw]
      exact .pure ()
    | cons id rest =>
      have htake : Moves .client s [] { s with worklist := rest } [.body id] := (Step.takeMethod hw).moves
      have hnext := htake.trans (moves_processNext hv hc hw)
      obtain ⟨r, hr, hp⟩ := hv.queues.worklist id (hw ▸ List.mem_cons_self)
      have hnot : id ∉ rest := (List.nodup_cons.1 (hw ▸ hv.queues.nodup)).1
      unfold Analysis.processMethods at hend ⊢
      rw [hw] at hend ⊢
      refine (gives_note (f := fun s => { s with worklist := rest }) rfl rfl rfl).bind ?_
      refine (gives_processMethod (htake.valid hv) (htake.covered hc) ?_ hr hp hnot).bind ?_
      · intro m hm
        cases List.mem_singleton.1 hm
      · exact ih hend (hnext.valid hv) (hnext.covered hc)

theorem gives_runTasks (hv : s.Valid) : Gives false runTasks s () s.runTasks := by
  have htake : Moves .driver s [] { s with deferred := [] } (s.deferred.map .task ++ []) :=
    (Step.takeTasks (w := .driver) s [] nofun).moves
  have howes : ∀ t ∈ s.deferred, Owes { s with deferred := [] } (.task t) :=
    fun t ht => htake.grows.owes_task (hv.queues.deferred t ht)
  unfold runTasks
  refine (gives_look _).bind ((gives_note (f := fun s => { s with deferred := [] }) rfl rfl rfl).bind ?_)
  refine (gives_forM (fun s' => s'.Valid ∧ ∀ t ∈ s.deferred, s'.Owes (.task t)) s.deferred (fun t ht {s'} hi => ?_)
    ⟨htake.valid hv, howes⟩).1
  have htally : Moves .driver s' [] { s' with tally := { s'.tally with tasksRun := s'.tally.tasksRun + 1 } } [] :=
    (Step.note (w := .driver) (by rfl) _ nofun).moves
  have hv' := htally.valid hi.1
  have ho' := htally.grows.owes_task (hi.2 t ht)
  have hall := htally.trans (moves_runTask hv' ho' []).1
  refine ⟨(gives_note (f := fun s => { s with tally := { s.tally with tasksRun := s.tally.tasksRun + 1 } })
    rfl rfl rfl).bind (gives_runTask hv' ho'), hall.valid hi.1, fun u hu => ?_⟩
  exact hall.grows.owes_task (hi.2 u hu)

theorem gives_waveMethods {s₀ : Analysis} {methods tasks : Nat}
    (hr : s₀.Running methods tasks s) (hc : s.Covered []) :
    Gives false (processMethods (methods + 1)) s.countWave () (waveMethods methods s) := by
  have hcount : Moves .client s [] s.countWave [] := (Step.note (by rfl) _ fun _ => by rfl).moves
  exact gives_processMethods (running_waveMethods hr hc).2 (hcount.valid hr.valid) (hcount.covered hc)

theorem gives_runWaves {s₀ : Analysis} {methods tasks fuel : Nat}
    (hr : s₀.Running methods tasks s) (hc : s.Covered [])
    (hf : tasks < fuel) : Gives false (runWaves (methods + 1) fuel) s () (Analysis.runWaves methods fuel s) := by
  induction fuel generalizing tasks s with
  | zero => exact absurd hf (Nat.not_lt_zero _)
  | succ fuel ih =>
    rw [runWaves, runWaves_succ]
    refine (gives_note (f := countWave) rfl rfl rfl).bind ((gives_waveMethods hr hc).bind ((gives_look _).bind ?_))
    by_cases hd : (waveMethods methods s).deferred.isEmpty
    · rw [if_pos hd, if_pos hd]
      exact .pure ()
    · obtain ⟨k, rfl, hr₁, hc₁⟩ := running_wave hr hc hd
      rw [if_neg hd, if_neg hd]
      exact (gives_runTasks (running_waveMethods hr hc).1.valid).bind (ih hr₁ hc₁ (by omega))

/-! ## Entry points -/

theorem gives_addEntry (hv : s.Valid) (m : QualifiedMethod) :
    Gives false (addEntry m) s (s.addEntry m).1 (s.addEntry m).2 := by
  obtain ⟨hlink, hnames⟩ := moves_linkMethod (w := .client) hv [] m
  unfold addEntry
  refine (gives_run (f := fun s => s.linkMethod m) (quiet_linkMethod s m)).bind ?_
  cases hid : (s.linkMethod m).1 with
  | none =>
    rw [addEntry_of_unresolved hid]
    exact .pure _
  | some id =>
    rw [hid] at hnames
    obtain ⟨r, hr, -⟩ := hnames
    rw [addEntry_of_linked hid]
    refine (gives_find hr).bind ((gives_find (holder?_eq ((hlink.valid hv).methods.record hr))).bind ?_)
    simp only [initializeOwner, hr]
    by_cases hstatic : r.definition.isStatic = true
    · simp only [hstatic, if_true]
      refine (gives_change (f := fun s => s.initializeClass r.reference.owner) (quiet_initializeClass _ _)).bind ?_
      exact (gives_note (f := fun s => { s with entries := s.entries.insertNew m [] }) rfl rfl rfl).bind (.pure _)
    · simp only [hstatic]
      exact (gives_note (f := fun s => { s with entries := s.entries.insertNew m [] }) rfl rfl rfl).bind (.pure _)

theorem gives_seedParam (hv : s.Valid) (m : QualifiedMethod) (index : Nat) (t : ExactType) :
    Gives false (seedParam m index t) s ((s.seedParam m index t).map fun _ => ())
      (s.command (.seed m index t)) := by
  simp only [Analysis.command]
  unfold seedParam Analysis.seedParam method?
  refine (gives_look _).bind ?_
  cases hid : s.methodId? m with
  | none => exact .pure _
  | some id =>
    obtain ⟨r, hr, -⟩ := hv.methods.names_of_methodId? hid
    refine (gives_find hr).bind ?_
    simp only [Option.bind_some, hr]
    cases hn : r.params[index]? with
    | none => exact .pure _
    | some n =>
      have hplain := (hv.methods.record hr).params n (List.mem_of_getElem? hn)
      refine (gives_instantiate hv hplain.1 t).bind ?_
      exact (gives_note (f := fun s => s.noteSeed m (index, t)) rfl rfl rfl).bind (.pure _)

theorem gives_reseedParam (hv : s.Valid) (m : QualifiedMethod) (seed : Nat × ExactType) :
    Gives false (reseedParam m seed) s () (s.reseedParam m seed) := by
  have hseed := gives_seedParam hv m seed.1 seed.2
  unfold reseedParam Analysis.reseedParam
  refine hseed.bind ?_
  rw [Analysis.command]
  cases s.seedParam m seed.1 seed.2 with
  | ok s' => exact .pure ()
  | error e => exact gives_note (f := fun s => s.noteSeed m seed) rfl rfl rfl

theorem gives_reseedEntry (hv : s.Valid) (m : QualifiedMethod) (seeds : List (Nat × ExactType)) :
    Gives false (reseedEntry m seeds) s () (s.reseedEntry m seeds) := by
  have hadd := gives_addEntry hv m
  have hmoves := moves_addEntry hv m []
  unfold reseedEntry
  cases h : s.addEntry m with
  | mk result t =>
    rw [h] at hadd hmoves
    refine hadd.bind ?_
    cases result with
    | error e =>
      rw [reseedEntry_of_error h]
      exact gives_note
        (f := fun s => { s.report (.missingEntry m) with entries := s.entries.insert m seeds }) rfl rfl rfl
    | ok id =>
      rw [reseedEntry_of_ok h]
      refine (gives_forM Valid seeds (fun seed _ {s'} hv' => ?_) (hmoves.valid hv)).1
      exact ⟨gives_reseedParam hv' m seed, (moves_reseedParam hv' m seed []).valid hv'⟩

theorem gives_reseedEntries (hv : s.Valid) : Gives false reseedEntries s () s.reseedEntries := by
  unfold reseedEntries Analysis.reseedEntries
  refine (gives_look _).bind ?_
  split
  · refine (gives_look _).bind
      ((gives_note (f := fun s => { s with reseed := false, entries := ∅ }) rfl rfl rfl).bind ?_)
    refine (gives_forM Valid s.entries.entries (fun e _ {s'} hv' => ?_) ((moves_takeEntries s []).valid hv)).1
    exact ⟨gives_reseedEntry hv' e.1 e.2, (moves_reseedEntry hv' e.1 e.2 []).valid hv'⟩
  · exact .pure ()

theorem gives_settle (h : s.Sound) : Gives false settle s () s.settle := by
  have hreseed := moves_reseedEntries h.valid []
  have hrunning : s.reseedEntries.Running s.reseedEntries.methodBound s.reseedEntries.taskBound s.reseedEntries :=
    ⟨hreseed.valid h.valid, .refl _, methodsLeft_le_bound _, tasksLeft_le_bound _⟩
  refine (gives_reseedEntries h.valid).bind ((gives_look _).bind ((gives_look _).bind ?_))
  exact gives_runWaves hrunning (hreseed.covered h.covered) (Nat.lt_succ_self _)

end Strict

end TypeFlow
