import TypeFlow.Proofs.Analysis.Entries
import TypeFlow.Proofs.Changes
import TypeFlow.Watch

/-!
# A watch never drifts

Whatever its file went through, a watch reports on a change what a run from
nothing reports on the file as it is now. A file that cannot be loaded, or that
has the classes which were loaded last, leaves the watch as it is.
-/

namespace TypeFlow

def QualifiedMethod.seeds (m : QualifiedMethod) : List (Nat × ExactType) :=
  if m.name = "main" && m.signature.params = mainParams then [(1, ⟨.object stringClass, 1⟩)] else []

theorem QualifiedMethod.nodup_seeds (m : QualifiedMethod) : m.seeds.Nodup := by
  unfold seeds
  split
  · exact List.pairwise_singleton _ _
  · exact List.nodup_nil

namespace Analysis

variable {v : World} {s s' : Analysis} {m : QualifiedMethod}

/-! ## One run -/

/-- A main method is given the type of its parameter, any other entry point none. -/
theorem seedEntry_of_ok {id : MethodId} {t : Analysis} (hadd : s.addEntry m = (.ok id, t)) (ht : t.Valid)
    (hlinked : (t.methodId? m).isSome) (hfind : t.entries.find? m = some []) :
    s.seedEntry m = (.ok (), s.replayEntry (m, m.seeds)) ∧
      (s.replayEntry (m, m.seeds)).entries = t.entries.insert m m.seeds := by
  rw [replayEntry_of_ok hadd]
  unfold seedEntry
  rw [hadd]
  by_cases hmain : m.name = "main" && m.signature.params = mainParams
  · have hseeds : m.seeds = [(1, ⟨.object stringClass, 1⟩)] := if_pos hmain
    have hparams : m.signature.params = mainParams := by
      rw [Bool.and_eq_true] at hmain
      exact of_decide_eq_true hmain.2
    have hlength : 1 ≤ m.signature.params.length := by
      rw [hparams]
      decide
    obtain ⟨t', hseed⟩ := seedParam_of_linked ht hlinked hlength ⟨.object stringClass, 1⟩
    rw [hseeds]
    simp only [hmain, if_true, hseed, after, List.map_cons, List.map_nil, List.foldl_cons, List.foldl_nil, command]
    have hnew : ((1, ⟨.object stringClass, 1⟩) : Nat × ExactType) ∉ [] := List.not_mem_nil
    exact ⟨trivial, entries_seedParam ht hfind hnew hseed⟩
  · have hseeds : m.seeds = [] := if_neg hmain
    rw [hseeds]
    simp only [hmain]
    exact ⟨rfl, (Table.insert_of_find? hfind).symm⟩

theorem seedEntry_of_resolves (hv : s.Valid) (hs : s.hierarchy.Shows v) (hres : (v.catalog.resolveMethod m).isSome)
    (hm : m ∉ s.entries.keys) : s.seedEntry m = (.ok (), s.replayEntry (m, m.seeds)) ∧
      (s.replayEntry (m, m.seeds)).entries = s.entries.insert m m.seeds := by
  obtain ⟨id, t, hadd, ht, hentries, hlinked⟩ := addEntry_of_resolves hv hs hres
  rw [Table.insertNew_of_not_mem hm] at hentries
  have hfind : t.entries.find? m = some [] := by
    rw [hentries]
    exact Table.find?_insert_self _ _ _
  obtain ⟨hseed, hsame⟩ := seedEntry_of_ok hadd ht hlinked hfind
  rw [hentries, Table.insert_insert] at hsame
  exact ⟨hseed, hsame⟩

theorem resolves_of_seedEntry (hv : s.Valid) (hs : s.hierarchy.Shows v) (h : s.seedEntry m = (.ok (), s')) :
    (v.catalog.resolveMethod m).isSome := by
  rcases addEntry_cases hv m with ⟨id, t, -, hid, -⟩ | ⟨t, hadd, -⟩
  · rw [← Option.not_isNone, ← isNone_linkMethod hv hs, hid]
    rfl
  · unfold seedEntry at h
    rw [hadd] at h
    cases h

theorem report?_of_settled (h : s.isSettled) : s.report? = .ok s.toReport := by
  unfold report? whenSettled
  rw [if_pos h]

/-- Analyses that are alike, without a missing entry point, report the same but for their generations. -/
theorem Alike.toReport (h : Alike v [] s s') : s.toReport = { s'.toReport with generation := s.generation } := by
  obtain ⟨_, _, hp⟩ := h
  have hproblems : s.problems.toList = s.problems.toList.filter fun q => q.entry?.isNone :=
    (List.filter_eq_self.2 fun q hq => Option.isNone_iff_eq_none.2
      (List.filterMap_eq_nil_iff.1 hp.entries q hq)).symm
  unfold Analysis.toReport
  rw [hp.others, ← hproblems]
  rfl

end Analysis

namespace Request

variable {r : Request} {v : World}

def entries (r : Request) : Table QualifiedMethod (List (Nat × ExactType)) :=
  (∅ : Table QualifiedMethod (List (Nat × ExactType))).insert r.entry r.entry.seeds

theorem entries_entries (r : Request) : r.entries.entries = [(r.entry, r.entry.seeds)] :=
  Table.entries_insert_of_not_mem List.not_mem_nil _

theorem keys_entries (r : Request) : r.entries.keys = [r.entry] := by
  unfold Table.keys
  rw [entries_entries]
  rfl

theorem nodup_of_mem_entries (r : Request) : ∀ e ∈ r.entries.entries, e.2.Nodup := by
  rw [entries_entries]
  intro e he
  obtain rfl := List.mem_singleton.1 he
  exact r.entry.nodup_seeds

theorem analyze_of_resolves (hres : (v.catalog.resolveMethod r.entry).isSome) :
    r.analyze v = .ok ((Analysis.replay v r.settings r.entries).settle,
      (Analysis.replay v r.settings r.entries).settle.toReport) ∧
      (Analysis.replay v r.settings r.entries).entries = r.entries := by
  have hnew := Analysis.sound_new v r.settings
  obtain ⟨hseed, hentries⟩ := Analysis.seedEntry_of_resolves hnew.valid (Hierarchy.shows_new v) hres
    (List.not_mem_nil : r.entry ∉ (Analysis.new v r.settings).entries.keys)
  have hreplay : Analysis.replay v r.settings r.entries =
      (Analysis.new v r.settings).replayEntry (r.entry, r.entry.seeds) := by
    unfold Analysis.replay
    rw [entries_entries]
    rfl
  have hsettled := Analysis.isSettled_settle (Analysis.fresh_replay v r.settings r.entries).sound
  rw [hreplay] at hsettled ⊢
  refine ⟨?_, hentries⟩
  unfold analyze
  simp only [hseed, Analysis.report?_of_settled hsettled]

theorem resolves_of_analyze {a : Analysis × Report} (h : r.analyze v = .ok a) :
    (v.catalog.resolveMethod r.entry).isSome := by
  unfold analyze at h
  split at h
  · cases h
  · next hseed =>
    exact Analysis.resolves_of_seedEntry (Analysis.sound_new v r.settings).valid (Hierarchy.shows_new v) hseed

/-! ## Analyses of a request -/

/-- Whether an analysis over a world is one of the request, wherever its world came from. -/
structure Served (r : Request) (v : World) (s : Analysis) : Prop where
  sound : s.Sound
  settings : s.settings = r.settings
  entries : s.entries = r.entries
  shows : s.hierarchy.Shows v

variable {s : Analysis}

theorem served_replay (hres : (v.catalog.resolveMethod r.entry).isSome) :
    r.Served v (Analysis.replay v r.settings r.entries) where
  sound := (Analysis.fresh_replay v r.settings r.entries).sound
  settings := (Analysis.moves_replay v r.settings r.entries).grows.settings
  entries := (analyze_of_resolves hres).2
  shows := (Hierarchy.shows_new v).learns (Analysis.moves_replay v r.settings r.entries).learns

theorem served_blank (r : Request) {h : Hierarchy} (hs : h.Shows v) (generation : Nat)
    (observations : List (String × ExactType)) :
    r.Served v (.blank r.settings h r.entries true generation observations) where
  sound := Analysis.sound_blank r.settings hs.coherent r.entries true generation observations
  settings := rfl
  entries := rfl
  shows := hs

theorem Served.nodup (h : r.Served v s) : ∀ e ∈ s.entries.entries, e.2.Nodup := by
  rw [h.entries]
  exact r.nodup_of_mem_entries

theorem Served.settle (h : r.Served v s) : r.Served v s.settle where
  sound := h.sound.settle.1
  settings := h.sound.settle.2.trans h.settings
  entries := (h.sound.entries_settle h.nodup).trans h.entries
  shows := h.shows.learns (Analysis.moves_settle h.sound.valid h.sound.covered).learns

/-- After an eviction the one entry point is the one that may be unresolved. -/
theorem Served.unresolvedEntries_settle (h : r.Served v s) (hr : s.reseed = true) :
    s.settle.unresolvedEntries = Analysis.unresolvedIn v [r.entry] := by
  rw [h.sound.unresolvedEntries_settle h.shows hr h.nodup, h.entries, keys_entries]

/-- Once the classes that differ are evicted an analysis has nothing left of the world before. -/
theorem Served.evict (h : r.Served w s) (v : World) : ∃ (hierarchy : Hierarchy) (observations : _),
    ((s.setWorld v).evict (w.changed v)).2 =
      .blank r.settings hierarchy r.entries true (s.generation + 1) observations ∧ hierarchy.Shows v := by
  refine ⟨(s.hierarchy.setWorld v).evict (OrderedSet.ofList (w.changed v)).toList, s.observations, ?_, ?_⟩
  · rw [← h.settings, ← h.entries]
    rfl
  · -- What is remembered is what the world before had, so a name that differs from it has changed.
    refine Hierarchy.shows_evict h.sound.valid.hierarchy fun n found hf hne => ?_
    refine OrderedSet.mem_ofList.2 (World.mem_changed.2 ?_)
    rw [← h.shows.lookup, Hierarchy.lookup_of_find? hf]
    exact hne.symm

/-- The run after an eviction reports what the request reports on a world that has its entry point. -/
theorem toReport_settle_blank (hres : (v.catalog.resolveMethod r.entry).isSome) {h : Hierarchy} (hs : h.Shows v)
    (generation : Nat) (observations : List (String × ExactType)) :
    ∃ a fresh, r.analyze v = .ok (a, fresh) ∧
      (Analysis.blank r.settings h r.entries true generation observations).settle.toReport =
        { fresh with generation := generation } := by
  have halike := Analysis.alike_settle_blank hs r.settings r.entries generation observations
  have hnone : Analysis.unresolvedIn v r.entries.keys = [] := by
    rw [keys_entries, Analysis.unresolvedIn, List.filter_eq_nil_iff]
    intro m hm
    obtain rfl := List.mem_singleton.1 hm
    rw [← Option.not_isSome, hres]
    decide
  rw [hnone] at halike
  refine ⟨_, _, (analyze_of_resolves hres).1, ?_⟩
  rw [halike.toReport, (r.served_blank hs generation observations).sound.generation_settle]
  rfl

end Request

namespace Watch

variable {r : Request} {w v : World} {s : Watch} {file : FileContent}

/-! ## One reload -/

/-- A watch on a request between two reloads, with `w` the world that was loaded last. -/
structure Current (s : Watch) (r : Request) (w : World) : Prop where
  same : s.world.Same w
  served : r.Served s.world s.analysis
  runs : s.state.runs = s.analysis.generation + 1
  status : s.state.status = .error ↔ w.catalog.resolveMethod r.entry = none

def renew (s : Watch) (v : World) : Watch :=
  let (eviction, a) := (s.analysis.setWorld v).evict (s.world.changed v)
  let state := { s.state with
    status := .analyzing
    runs := s.state.runs + 1
    lastChanged := s.world.changed v
    lastEviction? := some eviction }
  { s with world := v, analysis := a.settle, state := settleState state a.settle.unresolvedEntries }

theorem status_settleState (state : WatchState) (unresolved : List QualifiedMethod) :
    (settleState state unresolved).status = .error ↔ unresolved ≠ [] := by
  unfold settleState
  cases unresolved with
  | nil => simp
  | cons m l => simp

theorem runs_settleState (state : WatchState) (unresolved : List QualifiedMethod) :
    (settleState state unresolved).runs = state.runs := by
  unfold settleState
  split <;> rfl

theorem lastChanged_settleState (state : WatchState) (unresolved : List QualifiedMethod) :
    (settleState state unresolved).lastChanged = state.lastChanged := by
  unfold settleState
  split <;> rfl

theorem runs_renew (s : Watch) (v : World) : (s.renew v).state.runs = s.state.runs + 1 := runs_settleState _ _

theorem lastChanged_renew (s : Watch) (v : World) : (s.renew v).state.lastChanged = s.world.changed v :=
  lastChanged_settleState _ _

theorem Current.renew (h : s.Current r w) (v : World) : (s.renew v).Current r v := by
  obtain ⟨hierarchy, observations, hevict, hshows⟩ := h.served.evict v
  have hblank := r.served_blank hshows (s.analysis.generation + 1) observations
  rw [← hevict] at hblank
  refine ⟨fun _ => rfl, hblank.settle, ?_, ?_⟩
  · have hgeneration := hblank.sound.generation_settle
    rw [runs_renew, h.runs]
    exact congrArg (· + 1) hgeneration.symm
  · have hstatus : (s.renew v).state.status = .error ↔
        ((s.analysis.setWorld v).evict (s.world.changed v)).2.settle.unresolvedEntries ≠ [] :=
      status_settleState _ _
    rw [hstatus, hblank.unresolvedEntries_settle rfl, Analysis.unresolvedIn]
    simp

theorem Current.toReport_renew (h : s.Current r w) (hres : (v.catalog.resolveMethod r.entry).isSome) :
    ∃ a fresh, r.analyze v = .ok (a, fresh) ∧
      (s.renew v).analysis.toReport = { fresh with generation := s.analysis.generation + 1 } := by
  obtain ⟨hierarchy, observations, hevict, hshows⟩ := h.served.evict v
  have hanalysis : (s.renew v).analysis = ((s.analysis.setWorld v).evict (s.world.changed v)).2.settle := rfl
  rw [hanalysis, hevict]
  exact Request.toReport_settle_blank hres hshows _ _

theorem reload_of_error (s : Watch) {e : LoadError} (hload : loadWorld file = .error e) :
    s.reload file = (.error (.load e), s) := by
  unfold reload
  rw [hload]

theorem Current.reload_of_same (h : s.Current r w) (hload : loadWorld file = .ok v) (hsame : w.Same v) :
    s.reload file = (.ok none, s) := by
  have hnone : s.world.changed v = [] := World.changed_eq_nil_iff.2 (h.same.trans hsame)
  unfold reload
  simp only [hload, hnone]
  rfl

theorem Current.reload_of_not_same (h : s.Current r w) (hload : loadWorld file = .ok v) (hne : ¬ w.Same v) :
    s.reload file = (.ok (some (s.renew v).analysis.toReport), s.renew v) := by
  have hchanged : s.world.changed v ≠ [] := fun hnil =>
    hne (h.same.symm.trans (World.changed_eq_nil_iff.1 hnil))
  have hsettled := Analysis.isSettled_settle (h.served.sound.setWorld v |>.evict (s.world.changed v))
  unfold reload update
  simp only [hload, List.isEmpty_eq_false_iff.2 hchanged, Analysis.report?_of_settled hsettled]
  rfl

structure Answers (s : Watch) (r : Request) (w : World) : Prop where
  unreadable : ∀ file e, loadWorld file = .error e → s.reload file = (.error (.load e), s)
  unchanged : ∀ file v, loadWorld file = .ok v → w.Same v → s.reload file = (.ok none, s)
  changed : ∀ file v, loadWorld file = .ok v → ¬ w.Same v → ∃ report, (s.reload file).1 = .ok (some report) ∧
    report.generation + 1 = (s.reload file).2.state.runs ∧
    ((v.catalog.resolveMethod r.entry).isSome → ∃ a fresh, r.analyzeFile file = .ok (v, a, fresh) ∧
      report = { fresh with generation := report.generation })

theorem Current.answers (h : s.Current r w) : s.Answers r w where
  unreadable _ _ hload := s.reload_of_error hload
  unchanged _ _ hload hsame := h.reload_of_same hload hsame
  changed file v hload hne := by
    have hreload := h.reload_of_not_same hload hne
    refine ⟨(s.renew v).analysis.toReport, congrArg Prod.fst hreload, ?_, fun hres => ?_⟩
    · rw [hreload]
      exact (h.renew v).runs.symm
    · obtain ⟨a, fresh, hanalyze, hreport⟩ := h.toReport_renew hres
      refine ⟨a, fresh, ?_, ?_⟩
      · simp only [Request.analyzeFile, hload, hanalyze]
        rfl
      · rw [hreport]

/-! ## Many reloads -/

def after (s : Watch) (files : List FileContent) : Watch := files.foldl (fun s file => (s.reload file).2) s

def reports (s : Watch) : List FileContent → List Report
  | [] => []
  | file :: files =>
    let later := (s.reload file).2.reports files
    match (s.reload file).1 with
    | .ok (some report) => report :: later
    | _ => later

/-- The world that is loaded last once a file was read; a file that cannot be loaded leaves the one before. -/
def loaded (w : World) (file : FileContent) : World := (loadWorld file).toOption.getD w

def lastLoaded (w : World) (files : List FileContent) : World := files.foldl loaded w

def change? (w : World) (file : FileContent) : Option (World × World) :=
  match loadWorld file with
  | .ok v => if w.Same v then none else some (w, v)
  | .error _ => none

def lastChange? (w : World) : List FileContent → Option (World × World)
  | [] => none
  | file :: files => (lastChange? (loaded w file) files).or (change? w file)

/-- A list of names is that of a change when it has the names at which the worlds differ, in order and each once. -/
structure Lists (names : List ClassName) (change? : Option (World × World)) : Prop where
  sorted : names.Pairwise (· < ·)
  mem : ∀ n, n ∈ names ↔ ∃ u v, change? = some (u, v) ∧ v.find? n ≠ u.find? n

theorem lists_nil : Lists [] none := ⟨.nil, fun _ => ⟨nofun, nofun⟩⟩

theorem Current.lists (h : s.Current r w) (v : World) : Lists (s.world.changed v) (some (w, v)) := by
  refine ⟨World.pairwise_changed, fun n => ?_⟩
  rw [World.mem_changed, ← h.same n]
  constructor
  · exact fun hne => ⟨w, v, rfl, hne⟩
  · rintro ⟨u, v, ⟨⟩, hne⟩
    exact hne

inductive Reloads (s : Watch) (w : World) (file : FileContent) : Except RunError (Option Report) × Watch → Prop
  | unreadable {e : LoadError} (hload : loadWorld file = .error e) : Reloads s w file (.error (.load e), s)
  | unchanged {v : World} (hload : loadWorld file = .ok v) (hsame : w.Same v) : Reloads s w file (.ok none, s)
  | changed {v : World} (hload : loadWorld file = .ok v) (hne : ¬ w.Same v) :
    Reloads s w file (.ok (some (s.renew v).analysis.toReport), s.renew v)

theorem Current.reloads (h : s.Current r w) (file : FileContent) : s.Reloads w file (s.reload file) := by
  cases hload : loadWorld file with
  | error e =>
    rw [s.reload_of_error hload]
    exact .unreadable hload
  | ok v =>
    by_cases hsame : w.Same v
    · rw [h.reload_of_same hload hsame]
      exact .unchanged hload hsame
    · rw [h.reload_of_not_same hload hsame]
      exact .changed hload hsame

theorem Current.of_same (h : s.Current r w) (hsame : w.Same v) : s.Current r v where
  same := h.same.trans hsame
  served := h.served
  runs := h.runs
  status := by rw [h.status, hsame.resolveMethod]

theorem Current.reload (h : s.Current r w) (file : FileContent) : (s.reload file).2.Current r (loaded w file) := by
  have hreloads := h.reloads file
  generalize s.reload file = reply at hreloads ⊢
  unfold loaded
  cases hreloads with
  | unreadable hload =>
    rw [hload]
    exact h
  | unchanged hload hsame =>
    rw [hload]
    exact h.of_same hsame
  | changed hload _ =>
    rw [hload]
    exact h.renew _

theorem Current.after (h : s.Current r w) (files : List FileContent) :
    (s.after files).Current r (lastLoaded w files) := by
  induction files generalizing s w with
  | nil => exact h
  | cons file files ih => exact ih (h.reload file)

theorem Current.runs_after (h : s.Current r w) (files : List FileContent) :
    (s.after files).state.runs = s.state.runs + (s.reports files).length := by
  induction files generalizing s w with
  | nil => rfl
  | cons file files ih =>
    -- The watch stays current, so its first reload is one of the three and the others go on from there.
    have hafter : s.after (file :: files) = (s.reload file).2.after files := rfl
    have hreloads := h.reloads file
    rw [hafter, ih (h.reload file), reports]
    generalize s.reload file = reply at hreloads ⊢
    cases hreloads with
    | unreadable _ => rfl
    | unchanged _ _ => rfl
    | changed _ _ =>
      simp only [runs_renew, List.length_cons]
      omega

theorem Current.lists_reload (h : s.Current r w) {change : Option (World × World)}
    (hl : Lists s.state.lastChanged change) (file : FileContent) :
    Lists (s.reload file).2.state.lastChanged ((change? w file).or change) := by
  have hreloads := h.reloads file
  generalize s.reload file = reply at hreloads ⊢
  unfold change?
  cases hreloads with
  | unreadable hload =>
    simp only [hload]
    exact hl
  | unchanged hload hsame =>
    simp only [hload, if_pos hsame]
    exact hl
  | changed hload hne =>
    simp only [hload, if_neg hne, lastChanged_renew]
    exact h.lists _

theorem Current.lists_after (h : s.Current r w) {change : Option (World × World)}
    (hl : Lists s.state.lastChanged change) (files : List FileContent) :
    Lists (s.after files).state.lastChanged ((lastChange? w files).or change) := by
  induction files generalizing s w change with
  | nil => exact hl
  | cons file files ih =>
    have hrest := ih (h.reload file) (h.lists_reload hl file)
    rw [← Option.or_assoc] at hrest
    exact hrest

/-! ## From the start -/

theorem current_start {first : Report} (h : Watch.start r file = .ok (s, first)) :
    ∃ w, loadWorld file = .ok w ∧ s.Current r w ∧ s.state.runs = 1 ∧ s.state.lastChanged = [] := by
  unfold Watch.start Request.analyzeFile at h
  cases hload : loadWorld file with
  | error e =>
    rw [hload] at h
    cases h
  | ok w =>
    cases hanalyze : r.analyze w with
    | error e =>
      simp only [hload, hanalyze] at h
      cases h
    | ok result =>
      have hres := Request.resolves_of_analyze hanalyze
      have hrun := (Request.analyze_of_resolves hres).1
      rw [hanalyze] at hrun
      cases hrun
      simp only [hload, hanalyze] at h
      cases h
      have hserved := Request.served_replay hres
      refine ⟨w, rfl, ⟨fun _ => rfl, hserved.settle, ?_, ?_⟩, rfl, rfl⟩
      · have hgeneration := (Analysis.moves_replay w r.settings r.entries).generation_eq
        exact (congrArg (· + 1) (hserved.sound.generation_settle.trans hgeneration)).symm
      · exact ⟨nofun, fun hnone => absurd hres (Option.not_isSome_iff_eq_none.2 hnone)⟩

/-- What a watch that was started over `w` has answered and tells of itself after its file had these contents. -/
structure Faithful (s : Watch) (r : Request) (w : World) (files : List FileContent) : Prop where
  answers : (s.after files).Answers r (lastLoaded w files)
  generation : (s.after files).state.runs = (s.after files).analysis.generation + 1
  reports : (s.after files).state.runs = 1 + (s.reports files).length
  lists : Lists (s.after files).state.lastChanged (lastChange? w files)
  status : (s.after files).state.status = .error ↔ (lastLoaded w files).catalog.resolveMethod r.entry = none

/-- Whatever its file goes through, a watch does what a run from nothing does on the file as it is. -/
theorem faithful_of_start {first : Report} (h : Watch.start r file = .ok (s, first)) :
    ∃ w, loadWorld file = .ok w ∧ ∀ files, s.Faithful r w files := by
  obtain ⟨w, hload, hcurrent, hruns, hchanged⟩ := current_start h
  refine ⟨w, hload, fun files => ?_⟩
  have hafter := hcurrent.after files
  refine ⟨hafter.answers, hafter.runs, ?_, ?_, hafter.status⟩
  · rw [hcurrent.runs_after files, hruns]
  · have hlists := hcurrent.lists_after (hchanged ▸ lists_nil) files
    rwa [Option.or_none] at hlists

/-! A class whose main method goes, after a reload that finds no file. -/

def sampleRequest : Request := ⟨⟨"A", ⟨"main", [], .void⟩⟩, {}⟩

def sampleFile : FileContent := some "[[[\"A\",null,[],[],[],[[\"main()V\",[\"static\"]]]]]]".toUTF8

def sampleEdited : FileContent := some "[[[\"A\",null,[],[],[],[]]]]".toUTF8

set_option maxRecDepth 100000 in
theorem faithful_sampleFile : ∃ s first, Watch.start sampleRequest sampleFile = .ok (s, first) ∧
    (s.after [none, sampleEdited]).state.status = .error := by
  have hstarts : (Watch.start sampleRequest sampleFile).toBool = true := by decide +kernel
  have hedited : (loadWorld sampleEdited).toOption = some ⟨[⟨"A", none, [], [], [], []⟩], by decide⟩ := by
    decide +kernel
  cases hstart : Watch.start sampleRequest sampleFile with
  | error e =>
    rw [hstart] at hstarts
    cases hstarts
  | ok result =>
    obtain ⟨s, first⟩ := result
    obtain ⟨w, -, hfaithful⟩ := faithful_of_start hstart
    refine ⟨s, first, rfl, (hfaithful [none, sampleEdited]).status.2 ?_⟩
    unfold lastLoaded
    rw [List.foldl_cons, List.foldl_cons, List.foldl_nil]
    generalize loaded w none = u
    unfold loaded
    rw [hedited, Option.getD_some]
    decide +kernel

end Watch

end TypeFlow
