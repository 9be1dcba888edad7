import Mathlib.Data.List.Induction
import TypeFlow.Proofs.Analysis.Declarations
import TypeFlow.Proofs.Analysis.Driven
import TypeFlow.Proofs.Analysis.Entries

/-!
# Work is done once

Methods and tasks come up at any time: while an instruction is applied, while a
notice is served, while another task runs. A method comes up with its record, a
task with its aggregate or its shared selector, and a run takes a batch of tasks
out of the queue before it runs the first. So what was run so far and what waits
are together the tasks that the aggregates and the shared selectors call for,
each of them once.
-/

namespace TypeFlow

def SelectorKey.isShared : SelectorKey → Bool
  | shared _ => true
  | perSite .. => false

namespace Analysis

def attachment? : SelectorKey × SelectorId → Option Task
  | (.shared declared, id) => some (.attach id declared.owner)
  | (.perSite .., _) => none

/-- What the aggregates and the shared selectors call for. -/
def tasks (s : Analysis) : List Task :=
  s.aggregates.entries.map (fun e => .wire e.1 e.2) ++ s.selectorKeys.entries.filterMap attachment?

def waveTasks (methods : Nat) : Nat → Analysis → List Task
  | 0, _ => []
  | fuel + 1, s =>
    if (waveMethods methods s).deferred.isEmpty then []
    else (waveMethods methods s).deferred ++ waveTasks methods fuel (waveMethods methods s).runTasks

def settleTasks (s : Analysis) : List Task :=
  waveTasks s.reseedEntries.methodBound (s.reseedEntries.taskBound + 1) s.reseedEntries

def ranAfter (ran : List Task) (s : Analysis) : Op → List Task
  | .command .settle => ran ++ s.settleTasks
  | .command (.evict _) => []
  | _ => ran

/-- The tasks that requests run in the generation in which they end, in order, after those that were run before. -/
def ranIn (ran : List Task) (s : Analysis) : List Op → List Task
  | [] => ran
  | op :: ops => ranIn (s.ranAfter ran op) (s.apply op) ops

variable {w : Actor} {s s' : Analysis} {γ γ' : List Duty} {ran : List Task} {k : Nat}

/-! ## What there is to do -/

theorem length_tasks (s : Analysis) :
    s.tasks.length = s.aggregates.size + (s.selectorKeys.keys.filter SelectorKey.isShared).length := by
  have hattach : ∀ l : List (SelectorKey × SelectorId),
      (l.filterMap attachment?).length = ((l.map Prod.fst).filter SelectorKey.isShared).length := by
    intro l
    induction l with
    | nil => rfl
    | cons e l ih =>
      obtain ⟨key, id⟩ := e
      cases key with
      | shared declared => exact congrArg (· + 1) ih
      | perSite caller receiver declared => exact ih
  unfold tasks
  rw [List.length_append, List.length_map, hattach]
  rfl

theorem mem_tasks_iff {t : Task} : t ∈ s.tasks ↔ s.Owes (.task t) := by
  unfold tasks
  rw [List.mem_append, List.mem_map, List.mem_filterMap]
  cases t with
  | wire t n =>
    constructor
    · rintro (⟨e, he, heq⟩ | ⟨⟨key, id⟩, -, heq⟩)
      · cases heq
        exact Table.find?_eq_some_iff.2 he
      · cases key <;> cases heq
    · intro hn
      exact Or.inl ⟨(t, n), Table.find?_eq_some_iff.1 hn, rfl⟩
  | attach id owner =>
    constructor
    · rintro (⟨e, -, heq⟩ | ⟨⟨key, id⟩, he, heq⟩)
      · cases heq
      · cases key <;> cases heq
        exact ⟨_, Table.find?_eq_some_iff.2 he, rfl⟩
    · rintro ⟨declared, hid, rfl⟩
      exact Or.inr ⟨(.shared declared, id), Table.find?_eq_some_iff.1 hid, rfl⟩

/-- Aggregates differ by their types, selectors by their numbers. -/
theorem nodup_tasks (hv : s.Valid) : s.tasks.Nodup := by
  unfold tasks
  refine List.nodup_append.2 ⟨?_, ?_, ?_⟩
  · refine (List.Nodup.of_map Prod.fst s.aggregates.nodup).map fun e e' heq => ?_
    exact Prod.ext (Task.wire.inj heq).1 (Task.wire.inj heq).2
  · have hdiffer : s.selectorKeys.entries.Pairwise fun e e' => e.2 ≠ e'.2 := by
      refine (List.Nodup.of_map Prod.fst s.selectorKeys.nodup).pairwise_of_forall_ne
        fun e he e' he' hne hid => hne ?_
      have hkey := hv.selectors.key (Table.find?_eq_some_iff.2 he) (hid ▸ Table.find?_eq_some_iff.2 he')
      exact Prod.ext hkey hid
    refine hdiffer.filterMap attachment? fun e e' hne t ht t' ht' heq => ?_
    obtain ⟨key, id⟩ := e
    obtain ⟨key', id'⟩ := e'
    cases key <;> cases ht
    cases key' <;> cases ht'
    exact hne (Task.attach.inj heq).1
  · intro t ht t' ht' heq
    obtain ⟨e, -, rfl⟩ := List.mem_map.1 ht
    obtain ⟨⟨key, id⟩, -, hsome⟩ := List.mem_filterMap.1 ht'
    cases key <;> cases hsome
    cases heq

/-! ## The ledger -/

/-- Whether `ran` lists the tasks taken so far, of which the last `k` are not counted yet. -/
structure Ledger (ran : List Task) (k : Nat) (s : Analysis) : Prop where
  count : s.tally.tasksRun + k = ran.length
  tasks : (ran ++ s.deferred).Perm s.tasks

/-- Who does not take tasks only adds to them. -/
theorem Step.ledger (h : Step .client s γ s' γ') (hl : s.Ledger ran k) : s'.Ledger ran k := by
  cases h with
  | linkClass name =>
    obtain ⟨h, c, p, heq, -⟩ := s.linkClass_frame name
    rw [heq]
    exact ⟨hl.count, hl.tasks⟩
  | @aggregate t hnone =>
    rw [aggregate_of_none hnone]
    refine ⟨hl.count, ?_⟩
    have hentries := Table.entries_insert_of_not_mem (Table.find?_eq_none_iff.1 (not_isRoot_of_none hnone).2)
      s.graph.newNode.1
    unfold Analysis.tasks
    simp only [hentries, List.map_append, List.map_cons, List.map_nil]
    rw [← List.append_assoc, List.append_assoc (s.aggregates.entries.map _)]
    refine (hl.tasks.append_right _).trans ?_
    unfold Analysis.tasks
    rw [List.append_assoc]
    exact List.perm_append_comm.append_left _
  | pool hnone =>
    rw [poolNode_of_none hnone]
    exact ⟨hl.count, hl.tasks⟩
  | @newShared declared hk hp hb =>
    refine ⟨hl.count, ?_⟩
    have hentries := Table.entries_insert_of_not_mem (Table.find?_eq_none_iff.1 hk) s.selectors.size
    have htasks : ((s.withSelector (.shared declared)).defer (.attach s.selectors.size declared.owner)).tasks =
        s.tasks ++ [.attach s.selectors.size declared.owner] := by
      unfold Analysis.tasks
      simp only [defer, withSelector, hentries, List.filterMap_append, List.append_assoc]
      rfl
    rw [htasks]
    show (ran ++ (s.deferred ++ _)).Perm _
    rw [← List.append_assoc]
    exact hl.tasks.append_right _
  | @newPerSite caller receiver declared r hk hp hb hr hpr =>
    refine ⟨hl.count, ?_⟩
    have hentries := Table.entries_insert_of_not_mem (Table.find?_eq_none_iff.1 hk) s.selectors.size
    have htasks : (s.withSelector (.perSite caller receiver declared)).tasks = s.tasks := by
      unfold Analysis.tasks
      simp only [withSelector, hentries, List.filterMap_append]
      exact congrArg _ (List.append_nil _)
    exact htasks ▸ hl.tasks
  | takeTasks hw => exact absurd rfl hw
  | note ht o hr => exact ⟨(congrArg (· + k) (hr rfl)).trans hl.count, hl.tasks⟩
  | _ => exact ⟨hl.count, hl.tasks⟩

theorem Moves.ledger (h : Moves .client s γ s' γ') (hl : s.Ledger ran k) : s'.Ledger ran k :=
  h.invariant (P := fun s _ => s.Ledger ran k) Step.ledger hl

theorem driven_ledger (ran : List Task) : Driven .client (fun _ => True) (Ledger ran 0) where
  moves _ hm hl := hm.ledger hl
  instantiate hv hn _ hl := (moves_instantiate (w := .client) hv hn nofun []).1.ledger hl
  noted _ _ _ hl := ⟨hl.count, hl.tasks⟩

namespace Ledger

/-- Each task of a batch is counted as it is run; what comes up meanwhile waits. -/
theorem runTaken {taken : List Task} (hl : s.Ledger ran taken.length) (hv : s.Valid)
    (ho : ∀ t ∈ taken, s.Owes (.task t)) :
    (taken.foldl (fun s task => { s with tally := { s.tally with tasksRun := s.tally.tasksRun + 1 } }.runTask task)
      s).Ledger ran 0 := by
  induction taken generalizing s with
  | nil => exact hl
  | cons t taken ih =>
    have htally : Moves .driver s [] { s with tally := { s.tally with tasksRun := s.tally.tasksRun + 1 } } [] :=
      (Step.note (w := .driver) (by rfl) _ nofun).moves
    have hcounted :
        { s with tally := { s.tally with tasksRun := s.tally.tasksRun + 1 } }.Ledger ran taken.length := by
      refine ⟨?_, hl.tasks⟩
      have hcount := hl.count
      rw [List.length_cons, Nat.add_comm taken.length, ← Nat.add_assoc] at hcount
      exact hcount
    have hv' := htally.valid hv
    have htask := (moves_runTask (w := .client) hv' (htally.grows.owes_task (ho t List.mem_cons_self)) []).1
    refine ih (htask.ledger hcounted) (htask.valid hv') fun u hu => ?_
    exact htask.grows.owes_task (htally.grows.owes_task (ho u (List.mem_cons_of_mem _ hu)))

theorem runTasks (hl : s.Ledger ran 0) (hv : s.Valid) : s.runTasks.Ledger (ran ++ s.deferred) 0 := by
  have htake : Moves .driver s [] { s with deferred := [] } (s.deferred.map .task ++ []) :=
    (Step.takeTasks (w := .driver) s [] nofun).moves
  have htaken : { s with deferred := [] }.Ledger (ran ++ s.deferred) s.deferred.length := by
    constructor
    · rw [List.length_append, ← hl.count]
      rfl
    · exact (List.append_nil (ran ++ s.deferred)).symm ▸ hl.tasks
  exact htaken.runTaken (htake.valid hv) fun t ht => htake.grows.owes_task (hv.queues.deferred t ht)

theorem runWaves (hl : s.Ledger ran 0) (hv : s.Valid) (hc : s.Covered []) (methods fuel : Nat) :
    (runWaves methods fuel s).Ledger (ran ++ waveTasks methods fuel s) 0 := by
  induction fuel generalizing s ran with
  | zero => exact (List.append_nil ran).symm ▸ hl
  | succ fuel ih =>
    have hmethods := moves_waveMethods (w := .client) hv hc methods
    have hwave := hmethods.ledger hl
    have hv' := hmethods.valid hv
    rw [runWaves_succ, waveTasks]
    split
    · exact (List.append_nil ran).symm ▸ hwave
    · have htasks := moves_runTasks (w := .driver) nofun hv'
      rw [← List.append_assoc]
      exact ih (hwave.runTasks hv') (htasks.valid hv') (htasks.covered (hmethods.covered hc))

theorem settle (hl : s.Ledger ran 0) (hs : s.Sound) : s.settle.Ledger (ran ++ s.settleTasks) 0 := by
  have hreseed := moves_reseedEntries hs.valid []
  have hreseeded := (driven_ledger ran).reseedEntries hs.valid hl fun _ _ _ _ => trivial
  exact hreseeded.runWaves (hreseed.valid hs.valid) (hreseed.covered hs.covered) _ _

theorem command (hl : s.Ledger ran 0) (hs : s.Sound) (c : Command) :
    (s.command c).Ledger (s.ranAfter ran (.command c)) 0 := by
  cases c with
  | entry m => exact (driven_ledger ran).addEntry hs.valid hl m
  | seed m index t =>
    simp only [Analysis.command]
    split
    · next hok => exact (driven_ledger ran).seedParam hs.valid hl trivial hok
    · exact hl
  | world w => exact ⟨hl.count, hl.tasks⟩
  | evict names => exact ⟨rfl, .nil⟩
  | settle => exact hl.settle hs

theorem apply (hl : s.Ledger ran 0) (hs : s.Sound) (op : Op) : (s.apply op).Ledger (s.ranAfter ran op) 0 := by
  by_cases hcommand : ∃ c, op = .command c
  · obtain ⟨c, rfl⟩ := hcommand
    exact hl.command hs c
  · have hran : s.ranAfter ran op = ran := by
      cases op with
      | command c => exact absurd ⟨c, rfl⟩ hcommand
      | _ => rfl
    rw [hran]
    exact ((hs.apply_cases op).resolve_right hcommand).ledger hl

theorem history (hl : s.Ledger ran 0) (hs : s.Sound) (ops : List Op) :
    (s.history ops).Ledger (s.ranIn ran ops) 0 := by
  induction ops generalizing s ran with
  | nil => exact hl
  | cons op ops ih => exact ih (hl.apply hs op) (hs.apply op).1

theorem count_eq_one (hl : s.Ledger ran k) (hv : s.Valid) {t : Task} (ho : s.Owes (.task t)) :
    (ran ++ s.deferred).count t = 1 := by
  rw [hl.tasks.count_eq]
  exact List.count_eq_one_of_mem (nodup_tasks hv) (mem_tasks_iff.2 ho)

/-- What was run does not wait again, so it is done. -/
theorem done (hl : s.Ledger ran k) (hs : s.Sound) {t : Task} (ht : t ∈ ran) : s.Done (.task t) := by
  have ho : s.Owes (.task t) := mem_tasks_iff.1 (hl.tasks.subset (List.mem_append_left _ ht))
  have honce := hl.count_eq_one hs.valid ho
  rw [List.count_append] at honce
  rcases hs.covered (.task t) ho with hwaits | hhand | hdone
  · have hran := List.count_pos_iff.2 ht
    have hqueued := List.count_pos_iff.2 (show t ∈ s.deferred from hwaits)
    omega
  · exact absurd hhand List.not_mem_nil
  · exact hdone

end Ledger

/-! ## Records -/

theorem countP_range_getElem? {α : Type} (p : α → Bool) (l : List α) :
    (List.range l.length).countP (fun i => (l[i]?).any p) = l.countP p := by
  induction l using List.reverseRecOn with
  | nil => rfl
  | append_singleton l x ih =>
    have hbefore : (List.range l.length).countP (fun i => ((l ++ [x])[i]?).any p) = l.countP p := by
      rw [← ih]
      refine List.countP_congr fun i hi => ?_
      rw [List.getElem?_append_left (List.mem_range.1 hi)]
    rw [List.length_append, List.length_singleton, List.range_succ, List.countP_append, hbefore, List.countP_append]
    simp [List.countP_cons]

def isUnprocessed (s : Analysis) (id : MethodId) : Bool := (s.methods[id]?).any fun r => !r.processed

theorem isUnprocessed_iff {id : MethodId} :
    s.isUnprocessed id = true ↔ ∃ r, s.methods[id]? = some r ∧ r.processed = false := by
  simp only [isUnprocessed, Option.any_eq_true, Bool.not_eq_true']

theorem Sound.length_worklist (h : s.Sound) : s.worklist.length = s.methods.countP fun r => !r.processed := by
  have hrange : ((List.range s.methods.toList.length).filter s.isUnprocessed).Nodup := List.nodup_range.filter _
  have hperm : s.worklist.Perm ((List.range s.methods.toList.length).filter s.isUnprocessed) := by
    refine (List.perm_ext_iff_of_nodup h.valid.queues.nodup hrange).2 fun id => ?_
    rw [h.mem_worklist_iff, List.mem_filter, List.mem_range, isUnprocessed_iff]
    refine ⟨fun hid => ⟨?_, hid⟩, And.right⟩
    obtain ⟨r, hr, -⟩ := hid
    exact (Array.getElem?_eq_some_iff.1 hr).1
  have hcount : (List.range s.methods.toList.length).countP s.isUnprocessed =
      s.methods.toList.countP fun r => !r.processed := by
    rw [← countP_range_getElem? (fun r => !r.processed) s.methods.toList]
    refine List.countP_congr fun id _ => ?_
    rw [Array.getElem?_toList]
    exact Iff.rfl
  rw [hperm.length_eq, ← List.countP_eq_length_filter, hcount, Array.countP_toList]

/-! ## Sessions -/

/-- Whether each record was processed or waits to be, and each aggregate was wired and each shared selector attached
or waits for it, once in either case; `ran` are the tasks run so far. -/
structure WorksOnce (ran : List Task) (s : Analysis) : Prop where
  methods : s.tally.methodsProcessed + s.worklist.length = s.methods.size
  waits : s.worklist.Nodup
  waiting : ∀ id, id ∈ s.worklist ↔ ∃ r, s.methods[id]? = some r ∧ r.processed = false
  tasks : s.tally.tasksRun + s.deferred.length =
    s.aggregates.size + (s.selectorKeys.keys.filter SelectorKey.isShared).length
  counted : s.tally.tasksRun = ran.length
  wired : ∀ t n, s.aggregates.find? t = some n → (ran ++ s.deferred).count (.wire t n) = 1
  attached : ∀ m id, s.selectorKeys.find? (.shared m) = some id → (ran ++ s.deferred).count (.attach id m.owner) = 1
  done : ∀ t ∈ ran, s.Done (.task t)

theorem Sound.worksOnce (h : s.Sound) (ht : s.Tallied) (hl : s.Ledger ran 0) : s.WorksOnce ran where
  methods := by
    rw [ht, h.length_worklist, Array.size_eq_countP_add_countP (p := MethodRecord.processed)]
    simp only [Bool.not_eq_true, Bool.decide_eq_false]
  waits := h.valid.queues.nodup
  waiting _ := h.mem_worklist_iff
  tasks := by
    rw [← length_tasks, ← hl.tasks.length_eq, List.length_append, ← hl.count]
    rfl
  counted := hl.count
  wired t n hn := hl.count_eq_one h.valid (t := .wire t n) hn
  attached m id hid := hl.count_eq_one h.valid (t := .attach id m.owner) ⟨m, hid, rfl⟩
  done t ht := hl.done h ht

/-- After whatever was asked, and whatever came up while something else was done, each method was processed once or
waits once, and each task of the generation was run once or waits once. -/
theorem worksOnce_history (w : World) (settings : Settings) (ops : List Op) :
    ((new w settings).history ops).WorksOnce ((new w settings).ranIn [] ops) := by
  have hsound := sound_new w settings
  have hnew : (new w settings).Ledger [] 0 := ⟨rfl, .nil⟩
  exact (hsound.history ops).1.worksOnce (tallied_history w settings ops) (hnew.history hsound ops)

end Analysis

end TypeFlow
