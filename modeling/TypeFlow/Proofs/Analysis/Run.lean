import TypeFlow.Proofs.Analysis.Calm
import TypeFlow.Proofs.Analysis.Process

/-!
# Runs by steps

A run takes methods and tasks from their queues and does what they ask for.
Nothing is in hand between two of them, so everything there is a reason for
waits or is done.
-/

namespace TypeFlow

namespace Analysis

variable {w : Actor} {s s' : Analysis}

/-! ## Waves -/

theorem moves_processNext (hv : s.Valid) (hc : s.Covered []) {id : MethodId} {rest : List MethodId}
    (hw : s.worklist = id :: rest) :
    Moves w { s with worklist := rest } [.body id] ({ s with worklist := rest }.processMethod id) [] := by
  have htake : Moves w s [] { s with worklist := rest } [.body id] := (Step.takeMethod hw).moves
  obtain ⟨r, hr, hp⟩ := hv.queues.worklist id (hw ▸ List.mem_cons_self)
  have hnot : id ∉ rest := (List.nodup_cons.1 (hw ▸ hv.queues.nodup)).1
  obtain ⟨hprocess, hdone⟩ := moves_processMethod (w := w) (htake.valid hv) (htake.covered hc)
    (fun m hm => nomatch List.mem_singleton.1 hm) hr hp hnot
  refine hprocess.tail (.fulfil fun d hd => Or.inr ?_)
  rw [List.mem_singleton] at hd
  exact hd ▸ hdone

theorem moves_processMethods (hv : s.Valid) (hc : s.Covered []) (fuel : Nat) :
    Moves w s [] (processMethods fuel s) [] := by
  induction fuel generalizing s with
  | zero => exact .refl s []
  | succ fuel ih =>
    unfold processMethods
    split
    · exact .refl s []
    · next id rest hw =>
      have hnext := (Step.takeMethod hw).moves.trans (moves_processNext (w := w) hv hc hw)
      exact hnext.trans (ih (hnext.valid hv) (hnext.covered hc))

theorem moves_takenTasks (hw : w ≠ .client) (hv : s.Valid) :
    Moves w { s with deferred := [] } (s.deferred.map .task) s.runTasks [] := by
  have htake : Moves w s [] { s with deferred := [] } (s.deferred.map .task) :=
    List.append_nil (s.deferred.map Duty.task) ▸ (Step.takeTasks s [] hw).moves
  obtain ⟨hrun, hdone⟩ := moves_foldl (w := w) (γ := s.deferred.map .task) (s := { s with deferred := [] })
    (fun s task => { s with tally := { s.tally with tasksRun := s.tally.tasksRun + 1 } }.runTask task) s.deferred
    (I := fun s' => s'.Valid ∧ ∀ t ∈ s.deferred, s'.Owes (.task t)) (G := fun s t => s.Done (.task t))
    (fun h hi => ⟨h.valid hi.1, fun t ht => h.grows.owes_task (hi.2 t ht)⟩) (fun h hd => h.grows.done hd)
    (fun {s' t} ht hi => by
      have htally : Moves w s' (s.deferred.map .task)
          { s' with tally := { s'.tally with tasksRun := s'.tally.tasksRun + 1 } } (s.deferred.map .task) :=
        (Step.note (by rfl) _ fun hclient => absurd hclient hw).moves
      obtain ⟨htask, hdone⟩ := moves_runTask (w := w) (htally.valid hi.1) (htally.grows.owes_task (hi.2 t ht))
        (s.deferred.map .task)
      exact ⟨htally.trans htask, hdone⟩)
    ⟨htake.valid hv, fun t ht => htake.grows.owes_task (hv.queues.deferred t ht)⟩
  refine hrun.tail (.fulfil fun d hd => Or.inr ?_)
  obtain ⟨t, ht, rfl⟩ := List.mem_map.1 hd
  exact hdone t ht

theorem moves_runTasks (hw : w ≠ .client) (hv : s.Valid) : Moves w s [] s.runTasks [] := by
  have htake : Moves w s [] { s with deferred := [] } (s.deferred.map .task) :=
    List.append_nil (s.deferred.map Duty.task) ▸ (Step.takeTasks s [] hw).moves
  exact htake.trans (moves_takenTasks hw hv)

def waveMethods (methods : Nat) (s : Analysis) : Analysis :=
  processMethods methods { s with tally := { s.tally with waves := s.tally.waves + 1 } }

theorem runWaves_succ (methods fuel : Nat) (s : Analysis) :
    runWaves methods (fuel + 1) s =
      if (waveMethods methods s).deferred.isEmpty then waveMethods methods s
      else runWaves methods fuel (waveMethods methods s).runTasks := rfl

theorem moves_waveMethods (hv : s.Valid) (hc : s.Covered []) (methods : Nat) :
    Moves w s [] (waveMethods methods s) [] := by
  have htally : Moves w s [] { s with tally := { s.tally with waves := s.tally.waves + 1 } } [] :=
    (Step.note (by rfl) _ fun _ => by rfl).moves
  exact htally.trans (moves_processMethods (htally.valid hv) (htally.covered hc) methods)

theorem moves_runWaves (hw : w ≠ .client) (hv : s.Valid) (hc : s.Covered []) (methods fuel : Nat) :
    Moves w s [] (runWaves methods fuel s) [] := by
  induction fuel generalizing s with
  | zero => exact .refl s []
  | succ fuel ih =>
    have hmethods := moves_waveMethods (w := w) hv hc methods
    rw [runWaves_succ]
    split
    · exact hmethods
    · have hwave := hmethods.trans (moves_runTasks hw (hmethods.valid hv))
      exact hwave.trans (ih (hwave.valid hv) (hwave.covered hc))

/-! ## Entry points -/

variable {γ : List Duty}

def initializeOwner (s : Analysis) (id : MethodId) : Analysis :=
  match s.methods[id]? with
  | some r => if r.definition.isStatic then s.initializeClass r.reference.owner else s
  | none => s

theorem moves_initializeOwner (hv : s.Valid) (id : MethodId) (γ : List Duty) :
    Moves w s γ (s.initializeOwner id) γ := by
  unfold initializeOwner
  split
  · split
    · exact (moves_initializeClass hv γ _).1
    · exact .refl s γ
  · exact .refl s γ

theorem addEntry_of_linked {m : QualifiedMethod} {id : MethodId} (h : (s.linkMethod m).1 = some id) :
    s.addEntry m = (.ok id, { (s.linkMethod m).2.initializeOwner id with
      entries := ((s.linkMethod m).2.initializeOwner id).entries.insertNew m [] }) := by
  simp only [addEntry, h]
  rfl

theorem addEntry_of_unresolved {m : QualifiedMethod} (h : (s.linkMethod m).1 = none) :
    s.addEntry m = (.error (.unresolved m), (s.linkMethod m).2) := by
  simp only [addEntry, h]

theorem moves_addEntry (hv : s.Valid) (m : QualifiedMethod) (γ : List Duty) :
    Moves .driver s γ (s.addEntry m).2 γ := by
  obtain ⟨hlink, -⟩ := moves_linkMethod (w := .driver) hv γ m
  cases hid : (s.linkMethod m).1 with
  | none =>
    rw [addEntry_of_unresolved hid]
    exact hlink
  | some id =>
    rw [addEntry_of_linked hid]
    exact (hlink.trans (moves_initializeOwner (hlink.valid hv) id γ)).tail (.entries _ γ _ rfl)

theorem moves_noteSeed (s : Analysis) (m : QualifiedMethod) (seed : Nat × ExactType)
    (γ : List Duty) : Moves .driver s γ (s.noteSeed m seed) γ := (Step.entries s γ _ rfl).moves

/-- Only a parameter of a linked method is given types. -/
theorem seedParam_eq_ok_iff {m : QualifiedMethod} {index : Nat} {t : ExactType} :
    s.seedParam m index t = .ok s' ↔ ∃ r n, s.method? m = some r ∧ r.params[index]? = some n ∧
      s' = (s.instantiate n t).noteSeed m (index, t) := by
  unfold seedParam
  cases s.method? m with
  | none => simp
  | some r =>
    cases hparam : r.params[index]? with
    | none => simp [hparam]
    | some n => simp [hparam, eq_comm]

theorem MethodsValid.param_plain (hv : s.MethodsValid) {m : QualifiedMethod} {r : MethodRecord} {index : Nat}
    {n : NodeId} (hr : s.method? m = some r) (hn : r.params[index]? = some n) : s.Plain n := by
  obtain ⟨id, _, hid⟩ := Option.bind_eq_some_iff.1 hr
  exact (hv.record hid).params n (List.mem_of_getElem? hn)

theorem moves_seedParam (hv : s.Valid) {m : QualifiedMethod} {index : Nat} {t : ExactType}
    (h : s.seedParam m index t = .ok s') (γ : List Duty) : Moves .driver s γ s' γ := by
  obtain ⟨r, n, hr, hn, rfl⟩ := seedParam_eq_ok_iff.1 h
  obtain ⟨hinst, -⟩ := moves_instantiate (w := .driver) (t := t) hv (hv.methods.param_plain hr hn) nofun γ
  exact hinst.trans (moves_noteSeed _ m (index, t) γ)

/-- Gives a parameter type to an entry point that is linked again; it is noted even where it is refused. -/
def reseedParam (m : QualifiedMethod) (s : Analysis) (seed : Nat × ExactType) : Analysis :=
  match s.seedParam m seed.1 seed.2 with
  | .ok s => s
  | .error _ => s.noteSeed m seed

theorem moves_reseedParam (hv : s.Valid) (m : QualifiedMethod) (seed : Nat × ExactType) (γ : List Duty) :
    Moves .driver s γ (s.reseedParam m seed) γ := by
  unfold reseedParam
  split
  · next hok => exact moves_seedParam hv hok γ
  · exact moves_noteSeed s m seed γ

theorem moves_reseedParams (hv : s.Valid) (m : QualifiedMethod) (seeds : List (Nat × ExactType)) (γ : List Duty) :
    Moves .driver s γ (seeds.foldl (reseedParam m) s) γ :=
  moves_foldl_valid (fun hv seed => moves_reseedParam hv m seed γ) seeds hv

theorem reseedEntry_of_error {m : QualifiedMethod} {e : EntryError} (h : s.addEntry m = (.error e, s'))
    (seeds : List (Nat × ExactType)) :
    s.reseedEntry m seeds = { s'.report (.missingEntry m) with entries := s'.entries.insert m seeds } := by
  unfold reseedEntry
  rw [h]
  rfl

theorem reseedEntry_of_ok {m : QualifiedMethod} {id : MethodId} (h : s.addEntry m = (.ok id, s'))
    (seeds : List (Nat × ExactType)) : s.reseedEntry m seeds = seeds.foldl (reseedParam m) s' := by
  unfold reseedEntry
  rw [h]
  rfl

theorem moves_reseedEntry (hv : s.Valid) (m : QualifiedMethod) (seeds : List (Nat × ExactType))
    (γ : List Duty) : Moves .driver s γ (s.reseedEntry m seeds) γ := by
  have hadd := moves_addEntry hv m γ
  cases h : s.addEntry m with
  | mk result t =>
    rw [h] at hadd
    cases result with
    | error e =>
      rw [reseedEntry_of_error h]
      exact (hadd.tail (.report (show Warrants _ (.missingEntry m) from trivial) (Or.inl rfl))).tail
        (.entries _ γ _ rfl)
    | ok id =>
      rw [reseedEntry_of_ok h]
      exact hadd.trans (moves_reseedParams (hadd.valid hv) m seeds γ)

/-- The entry points that an eviction left are taken out of their table before they are linked again. -/
theorem moves_takeEntries (s : Analysis) (γ : List Duty) :
    Moves .driver s γ { s with reseed := false, entries := ∅ } γ :=
  (Step.reseed s γ rfl).moves.tail (.entries _ γ ∅ rfl)

theorem moves_foldl_reseedEntry (hv : s.Valid) (l : List (QualifiedMethod × List (Nat × ExactType)))
    (γ : List Duty) : Moves .driver s γ (l.foldl (fun s e => s.reseedEntry e.1 e.2) s) γ :=
  moves_foldl_valid (fun hv e => moves_reseedEntry hv e.1 e.2 γ) l hv

theorem moves_reseedEntries (hv : s.Valid) (γ : List Duty) : Moves .driver s γ s.reseedEntries γ := by
  have htake := moves_takeEntries s γ
  unfold reseedEntries
  split
  · exact htake.trans (moves_foldl_reseedEntry (htake.valid hv) s.entries.entries γ)
  · exact .refl s γ

theorem moves_settle (hv : s.Valid) (hc : s.Covered []) : Moves .driver s [] s.settle [] := by
  have hreseed := moves_reseedEntries hv []
  exact hreseed.trans (moves_runWaves (w := .driver) nofun (hreseed.valid hv) (hreseed.covered hc) _ _)

end Analysis

end TypeFlow
