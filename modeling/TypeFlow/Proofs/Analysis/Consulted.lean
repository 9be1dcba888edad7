import TypeFlow.Proofs.Analysis.Incremental
import TypeFlow.Proofs.Analysis.Tracking
import TypeFlow.Proofs.Solution.Order

/-!
# Only consulted classes matter

Whatever is asked of a new analysis: over each other world that agrees on the
names that it looked up, found or not, the same requests are refused and the
same state comes of them.
-/

namespace TypeFlow

namespace Analysis

variable {w : World} {s : Analysis}

/-! ## Waves -/

theorem tracks_processBody (s : Analysis) (id : MethodId) (r : MethodRecord) (body : Body) :
    Tracks w s (s.processBody id r body) ((s.setWorld w).processBody id r body) := by
  have hopen := Tracks.blind (w := w) (k := fun u => { u with
    graph := (u.graph.newNodes body.locals).2
    methods := u.methods.modify id fun r => { r with locals := (u.graph.newNodes body.locals).1.toArray } }) s
      fun _ _ => rfl
  exact hopen.trans
    (k := (runBody · ⟨id, (s.graph.newNodes body.locals).1.toArray, r.result, r.thrown⟩ r.params body))
    (tracks_runBody _ _ r.params body)

def processParts (s : Analysis) (id : MethodId) (r : MethodRecord) : Analysis :=
  let s := match r.definition.body? with
    | some body => s.processBody id r body
    | none => s
  if r.definition.isSynchronized then s.linkMonitors none else s

theorem tracks_processParts (s : Analysis) (id : MethodId) (r : MethodRecord) :
    Tracks w s (s.processParts id r) ((s.setWorld w).processParts id r) := by
  have hmonitors : ∀ u : Analysis, Tracks w u (if r.definition.isSynchronized then u.linkMonitors none else u)
      (if r.definition.isSynchronized then (u.setWorld w).linkMonitors none else u.setWorld w) :=
    fun u => .ite (tracks_linkMonitors u none) (.refl u)
  unfold processParts
  cases r.definition.body? with
  | none => exact hmonitors s
  | some body =>
    exact (tracks_processBody s id r body).trans
      (k := fun u => if r.definition.isSynchronized then u.linkMonitors none else u) (hmonitors _)

theorem tracks_processMethod (s : Analysis) (id : MethodId) :
    Tracks w s (s.processMethod id) ((s.setWorld w).processMethod id) := by
  have hsame : (s.setWorld w).methods[id]? = s.methods[id]? := rfl
  unfold processMethod
  rw [hsame]
  cases s.methods[id]? with
  | none => exact .refl s
  | some r =>
    have hmarked : Tracks w s (s.marked id) ((s.setWorld w).marked id) :=
      .blind (k := (marked · id)) s fun _ _ => rfl
    exact .ite (.refl s) (hmarked.trans (k := (processParts · id r)) (tracks_processParts _ id r))

theorem tracks_processMethods (fuel : Nat) (s : Analysis) :
    Tracks w s (processMethods fuel s) (processMethods fuel (s.setWorld w)) := by
  induction fuel generalizing s with
  | zero => exact .refl s
  | succ fuel ih =>
    have hsame : (s.setWorld w).worklist = s.worklist := rfl
    unfold processMethods
    rw [hsame]
    cases s.worklist with
    | nil => exact .refl s
    | cons id rest =>
      have hnext := Tracks.blind (w := w) (k := fun u => { u with worklist := rest }) s fun _ _ => rfl
      exact (hnext.trans (k := (processMethod · id)) (tracks_processMethod _ id)).trans
        (k := processMethods fuel) (ih _)

theorem tracks_runTasks (s : Analysis) : Tracks w s s.runTasks (s.setWorld w).runTasks := by
  have htake := Tracks.blind (w := w) (k := fun u => { u with deferred := [] }) s fun _ _ => rfl
  refine htake.trans
    (k := fun u => s.deferred.foldl
      (fun s task => { s with tally := { s.tally with tasksRun := s.tally.tasksRun + 1 } }.runTask task) u)
    (.foldl (fun s task => ?_) _ _)
  exact (Tracks.blind (k := fun u => { u with tally := { u.tally with tasksRun := u.tally.tasksRun + 1 } }) s
    fun _ _ => rfl).trans (k := (runTask · task)) (tracks_runTask _ task)

theorem tracks_runWaves (methods fuel : Nat) (s : Analysis) :
    Tracks w s (runWaves methods fuel s) (runWaves methods fuel (s.setWorld w)) := by
  induction fuel generalizing s with
  | zero => exact .refl s
  | succ fuel ih =>
    have hmethods : Tracks w s (waveMethods methods s) (waveMethods methods (s.setWorld w)) :=
      (Tracks.blind (k := fun u => { u with tally := { u.tally with waves := u.tally.waves + 1 } }) s
        fun _ _ => rfl).trans (k := processMethods methods) (tracks_processMethods methods _)
    refine hmethods.trans (k := fun u => if u.deferred.isEmpty then u else runWaves methods fuel u.runTasks) ?_
    exact .ite (.refl _) ((tracks_runTasks _).trans (k := runWaves methods fuel) (ih _))

/-! ## Requests -/

theorem Fresh.setWorld (h : s.Fresh) (w : World) : (s.setWorld w).Fresh := ⟨h.sound.setWorld w, h.reseed⟩

theorem Fresh.settle (h : s.Fresh) : s.settle.Fresh := by
  have hsettled := isSettled_settle h.sound
  simp only [isSettled, Bool.and_eq_true, Bool.not_eq_true'] at hsettled
  exact ⟨h.sound.settle.1, hsettled.1.1.1⟩

/-- The bounds of a run look at the whole world, but a run ends before it comes to them. -/
theorem Fresh.tracks_settle (h : s.Fresh) : Tracks w s s.settle (s.setWorld w).settle := by
  have hother := h.setWorld w
  rw [settle_of_reseed h.reseed, settle_of_reseed hother.reseed,
    ← h.sound.runWaves_of_le (Nat.le_max_left _ (s.setWorld w).methodBound)
      (Nat.le_max_left _ ((s.setWorld w).taskBound + 1)),
    ← hother.sound.runWaves_of_le (Nat.le_max_right s.methodBound _) (Nat.le_max_right (s.taskBound + 1) _)]
  exact tracks_runWaves _ _ s

def enterLinked (s : Analysis) (m : QualifiedMethod) : Option MethodId → Except EntryError MethodId × Analysis
  | none => (.error (.unresolved m), s)
  | some id => (.ok id, { s.initializeOwner id with entries := (s.initializeOwner id).entries.insertNew m [] })

theorem addEntry_eq (s : Analysis) (m : QualifiedMethod) :
    s.addEntry m = (s.linkMethod m).2.enterLinked m (s.linkMethod m).1 := by
  cases hid : (s.linkMethod m).1 with
  | none => exact addEntry_of_unresolved hid
  | some id => exact addEntry_of_linked hid

theorem tracks_initializeOwner (s : Analysis) (id : MethodId) :
    Tracks w s (s.initializeOwner id) ((s.setWorld w).initializeOwner id) := by
  have hsame : (s.setWorld w).methods[id]? = s.methods[id]? := rfl
  unfold initializeOwner
  rw [hsame]
  cases s.methods[id]? with
  | none => exact .refl s
  | some r => exact .ite (tracks_initializeClass s r.reference.owner) (.refl s)

theorem tracks_enterLinked (s : Analysis) (m : QualifiedMethod) (id? : Option MethodId) :
    TracksTo w s (s.enterLinked m id?) ((s.setWorld w).enterLinked m id?) := by
  cases id? with
  | none => exact .pair (.refl s) _
  | some id =>
    exact .pair ((tracks_initializeOwner s id).trans (k := fun u => { u with entries := u.entries.insertNew m [] })
      (.blind (k := fun u => { u with entries := u.entries.insertNew m [] }) _ fun _ _ => rfl)) _

theorem tracks_addEntry (s : Analysis) (m : QualifiedMethod) :
    TracksTo w s (s.addEntry m) ((s.setWorld w).addEntry m) := by
  rw [addEntry_eq, addEntry_eq]
  exact (tracks_linkMethod s m).bindTo (k := fun id? u => u.enterLinked m id?) (tracks_enterLinked _ m _)

/-- What a request is answered, where only an entry point that is linked has anything to be told. -/
def outcome (s : Analysis) : Request → Except EntryError (Option MethodId)
  | .entry m => (s.addEntry m).1.map some
  | .seed m index t => (s.seedParam m index t).map fun _ => none
  | .settle => .ok none

def outcomes (s : Analysis) : List Request → List (Except EntryError (Option MethodId))
  | [] => []
  | q :: requests => s.outcome q :: (s.command q.command).outcomes requests

theorem tracks_seed (s : Analysis) (m : QualifiedMethod) (index : Nat) (t : ExactType) :
    TracksTo w s (s.outcome (.seed m index t), s.command (.seed m index t))
      ((s.setWorld w).outcome (.seed m index t), (s.setWorld w).command (.seed m index t)) := by
  have hsame : (s.setWorld w).method? m = s.method? m := rfl
  simp only [outcome, command, seedParam, hsame]
  cases s.method? m with
  | none => exact .pair (.refl s) _
  | some r =>
    simp only []
    cases r.params[index]? with
    | none => exact .pair (.refl s) _
    | some n =>
      exact .pair ((tracks_instantiate s n t).trans (k := (noteSeed · m (index, t)))
        (.blind (k := (noteSeed · m (index, t))) _ fun _ _ => rfl)) _

theorem Fresh.tracks_request (h : s.Fresh) (q : Request) :
    TracksTo w s (s.outcome q, s.command q.command)
      ((s.setWorld w).outcome q, (s.setWorld w).command q.command) := by
  cases q with
  | entry m =>
    have hadd := tracks_addEntry (w := w) s m
    exact ⟨hadd.learns, fun ha => by simp only [outcome, command, Request.command, hadd.same ha]⟩
  | seed m index t => exact tracks_seed s m index t
  | settle => exact .pair h.tracks_settle _

theorem Fresh.request (h : s.Fresh) (q : Request) : (s.command q.command).Fresh := by
  cases q with
  | entry m => exact h.entry m
  | seed m index t => exact h.seed m index t
  | settle => exact h.settle

theorem Fresh.tracks_requests (h : s.Fresh) (requests : List Request) :
    TracksTo w s (s.outcomes requests, s.after (requests.map Request.command))
      ((s.setWorld w).outcomes requests, (s.setWorld w).after (requests.map Request.command)) := by
  induction requests generalizing s with
  | nil => exact .pair (.refl s) []
  | cons q requests ih =>
    exact (h.tracks_request q).bindTo
      (k := fun r u => (r :: u.outcomes requests, u.after (requests.map Request.command)))
      ((ih (h.request q)).map (s.outcome q :: ·))

/-- Names that nobody asked for have no say: another world that has the names remembered in the end as the first one
has them refuses the same requests, and the same state comes of them. -/
theorem consulted_classes_suffice (w₁ w₂ : World) (o : Settings) (requests : List Request)
    (h : ∀ n ∈ ((Analysis.new w₁ o).after (requests.map Request.command)).hierarchy.classes.keys,
      w₂.find? n = w₁.find? n) :
    (Analysis.new w₂ o).outcomes requests = (Analysis.new w₁ o).outcomes requests ∧
      (Analysis.new w₂ o).after (requests.map Request.command) =
        ((Analysis.new w₁ o).after (requests.map Request.command)).setWorld w₂ := by
  have hfresh : (Analysis.new w₁ o).Fresh := ⟨sound_new w₁ o, rfl⟩
  have htracks := hfresh.tracks_requests (w := w₂) requests
  have hworld : ((Analysis.new w₁ o).after (requests.map Request.command)).hierarchy.world = w₁ :=
    htracks.learns.world
  have hagrees : ((Analysis.new w₁ o).after (requests.map Request.command)).hierarchy.Agrees w₂ := by
    intro n hn
    rw [hworld]
    exact h n hn
  have hsame := htracks.same hagrees
  exact ⟨congrArg Prod.fst hsame, congrArg Prod.snd hsame⟩

/-! The sample with a subclass that overrides a method but is never instantiated, and with
an entry point that is refused. -/

def sampleWider : World :=
  sampleWorld.insert ⟨"B", some "A", [], [], [], [⟨sampleRun.signature, [], some sampleBody⟩]⟩

def sampleRequests : List Request := [.entry sampleMain, .entry ⟨"C", sampleRun.signature⟩, .settle]

set_option maxRecDepth 100000 in
theorem after_sampleWider :
    sampleWider.find? "B" ≠ sampleWorld.find? "B" ∧
      (Analysis.new sampleWider {}).outcomes sampleRequests =
        (Analysis.new sampleWorld {}).outcomes sampleRequests ∧
      (Analysis.new sampleWider {}).after (sampleRequests.map Request.command) =
        ((Analysis.new sampleWorld {}).after (sampleRequests.map Request.command)).setWorld sampleWider := by
  have hkeys : ((Analysis.new sampleWorld {}).after (sampleRequests.map Request.command)).hierarchy.classes.keys =
      ["A", "C"] := by
    decide +kernel
  have hagree : ∀ n ∈ ["A", "C"], sampleWider.find? n = sampleWorld.find? n := by decide
  refine ⟨by decide, consulted_classes_suffice sampleWorld sampleWider {} sampleRequests fun n hn => hagree n ?_⟩
  rw [← hkeys]
  exact hn

end Analysis

end TypeFlow
