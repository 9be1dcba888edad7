import TypeFlow.Proofs.Analysis.Alike
import TypeFlow.Proofs.Analysis.Fixpoint

/-!
# Incremental runs

After an eviction of the classes that differ, a run derives what a new analysis
of the new world derives from the same entry points. The run starts with
answers that survived the eviction, the new analysis with none, and the runs
have other bounds. Entry points that cannot be resolved are reported by the run
and refused by the new analysis.
-/

namespace TypeFlow

namespace Analysis

variable {w : World} {missing : List QualifiedMethod} {s s' : Analysis}

/-! ## A new analysis with the same entry points -/

/-- Adds an entry point and, if it can be resolved, its parameter types. -/
def replayEntry (s : Analysis) (e : QualifiedMethod × List (Nat × ExactType)) : Analysis :=
  match s.addEntry e.1 with
  | (.error _, s) => s
  | (.ok _, s) => s.after (e.2.map fun seed => .seed e.1 seed.1 seed.2)

theorem replayEntry_of_ok {m : QualifiedMethod} {id : MethodId} (h : s.addEntry m = (.ok id, s'))
    (seeds : List (Nat × ExactType)) :
    s.replayEntry (m, seeds) = s'.after (seeds.map fun seed => .seed m seed.1 seed.2) := by
  unfold replayEntry
  rw [h]

def replay (w : World) (settings : Settings)
    (entries : Table QualifiedMethod (List (Nat × ExactType))) : Analysis :=
  entries.entries.foldl replayEntry (Analysis.new w settings)

theorem moves_seed (hv : s.Valid) (m : QualifiedMethod) (index : Nat) (t : ExactType) :
    Moves .driver s [] (s.command (.seed m index t)) [] := by
  simp only [Analysis.command]
  split
  · next hok => exact moves_seedParam hv hok []
  · exact .refl s []

theorem moves_replayEntry (hv : s.Valid) (e : QualifiedMethod × List (Nat × ExactType)) :
    Moves .driver s [] (s.replayEntry e) [] := by
  have hadd := moves_addEntry hv e.1 []
  unfold replayEntry
  generalize s.addEntry e.1 = added at hadd ⊢
  obtain ⟨result, t⟩ := added
  cases result with
  | error _ => exact hadd
  | ok _ =>
    simp only [Analysis.after, List.foldl_map]
    exact hadd.trans <| moves_foldl_valid (fun hv seed => moves_seed hv e.1 seed.1 seed.2) e.2 (hadd.valid hv)

theorem moves_replay (w : World) (settings : Settings) (entries : Table QualifiedMethod (List (Nat × ExactType))) :
    Moves .driver (Analysis.new w settings) [] (replay w settings entries) [] :=
  moves_foldl_valid moves_replayEntry entries.entries (sound_new w settings).valid

/-- Whether an analysis is between two requests and need not link its entry points again. -/
structure Fresh (s : Analysis) : Prop where
  sound : s.Sound
  reseed : s.reseed = false

theorem Fresh.entry (h : s.Fresh) (m : QualifiedMethod) : (s.addEntry m).2.Fresh :=
  ⟨(h.sound.command (.entry m)).1, (moves_addEntry h.sound.valid m []).reseed_eq h.reseed⟩

theorem Fresh.seed (h : s.Fresh) (m : QualifiedMethod) (index : Nat) (t : ExactType) :
    (s.command (.seed m index t)).Fresh :=
  ⟨(h.sound.command (.seed m index t)).1, (moves_seed h.sound.valid m index t).reseed_eq h.reseed⟩

theorem Fresh.replayEntry (h : s.Fresh) (e : QualifiedMethod × List (Nat × ExactType)) :
    (s.replayEntry e).Fresh := by
  have hadd := h.entry e.1
  unfold Analysis.replayEntry
  generalize s.addEntry e.1 = added at hadd ⊢
  obtain ⟨result, s⟩ := added
  cases result with
  | error _ => exact hadd
  | ok _ =>
    simp only [] at hadd ⊢
    induction e.2 generalizing s with
    | nil => exact hadd
    | cons seed seeds ih => exact ih _ (hadd.seed e.1 seed.1 seed.2)

theorem fresh_replay (w : World) (settings : Settings) (entries : Table QualifiedMethod (List (Nat × ExactType))) :
    (replay w settings entries).Fresh := by
  have hnew : (Analysis.new w settings).Fresh := ⟨sound_new w settings, rfl⟩
  unfold replay
  generalize Analysis.new w settings = s at hnew ⊢
  induction entries.entries generalizing s with
  | nil => exact hnew
  | cons e l ih => exact ih (s.replayEntry e) (hnew.replayEntry e)

/-! ## Entry points that cannot be resolved -/

def unresolvedIn (w : World) (methods : List QualifiedMethod) : List QualifiedMethod :=
  methods.filter fun m => (w.catalog.resolveMethod m).isNone

theorem fst_addEntry (s : Analysis) (m : QualifiedMethod) : (s.addEntry m).1 =
    match (s.linkMethod m).1 with
    | none => .error (.unresolved m)
    | some id => .ok id := by
  unfold addEntry
  simp only []
  cases (s.linkMethod m).1 with
  | none => rfl
  | some id => rfl

/-- A method is linked under every name that the world resolves. -/
theorem isNone_linkMethod (hv : s.Valid) (hs : s.hierarchy.Shows w) (m : QualifiedMethod) :
    (s.linkMethod m).1.isNone = (w.catalog.resolveMethod m).isNone := by
  obtain ⟨hlink, hnames⟩ := moves_linkMethod (w := .driver) hv [] m
  have hview : (s.linkMethod m).2.hierarchy.view.resolveMethod m = w.catalog.resolveMethod m :=
    Catalog.resolveMethod_congr (hs.learns hlink.learns).answer m
  cases hid : (s.linkMethod m).1 with
  | none =>
    rw [hid] at hnames
    rw [← hview, hnames.view]
    rfl
  | some id =>
    rw [hid] at hnames
    obtain ⟨r, _, hdecides⟩ := hnames
    rw [← hview, hdecides.view]
    rfl

theorem alike_seeds (h : Alike w missing s s') (m : QualifiedMethod) (seeds : List (Nat × ExactType)) :
    Alike w missing
      (seeds.foldl (fun s seed =>
        match s.seedParam m seed.1 seed.2 with
        | .ok s => s
        | .error _ => s.noteSeed m seed) s)
      (s'.after (seeds.map fun seed => .seed m seed.1 seed.2)) := by
  induction seeds generalizing s s' with
  | nil => exact h
  | cons seed seeds ih =>
    have hstep : s'.after ((seed :: seeds).map fun seed => .seed m seed.1 seed.2) =
        (s'.command (.seed m seed.1 seed.2)).after (seeds.map fun seed => .seed m seed.1 seed.2) := rfl
    rw [List.foldl_cons, hstep]
    rcases alike_seedParam h m seed.1 seed.2 with ⟨u, u', hok, hok', hu⟩ | ⟨e, herror, herror'⟩
    · simp only [Analysis.command, hok, hok']
      exact ih hu
    · simp only [Analysis.command, herror, herror']
      exact ih (alike_withEntries h _ s'.entries)

theorem alike_reportEntry (h : Alike w missing s s') {m : QualifiedMethod} (hm : m ∉ missing)
    (entries : Table QualifiedMethod (List (Nat × ExactType))) :
    Alike w (missing ++ [m]) { s.report (.missingEntry m) with entries := entries } s' := by
  obtain ⟨hs, hs', hp⟩ := h
  exact .intro hs hs' (hp.insertEntry hm)

theorem alike_reseedEntry (h : Alike w missing s s') (hv : s.Valid) {m : QualifiedMethod} (hm : m ∉ missing)
    (seeds : List (Nat × ExactType)) :
    Alike w (missing ++ unresolvedIn w [m]) (s.reseedEntry m seeds) (s'.replayEntry (m, seeds)) := by
  have hnone := isNone_linkMethod hv h.shows.1 m
  have hfst := s.fst_addEntry m
  obtain ⟨hresult, hadd⟩ := alike_addEntry h m
  unfold reseedEntry replayEntry
  simp only []
  generalize s.addEntry m = added at hresult hadd hfst ⊢
  generalize s'.addEntry m = added' at hresult hadd ⊢
  obtain ⟨result, t⟩ := added
  obtain ⟨result', t'⟩ := added'
  simp only [] at hresult hadd hfst
  subst hresult
  cases hid : (s.linkMethod m).1 with
  | none =>
    rw [hid] at hfst hnone
    subst hfst
    have hlist : unresolvedIn w [m] = [m] := by simp [unresolvedIn, ← hnone]
    rw [hlist]
    exact alike_reportEntry hadd hm _
  | some id =>
    rw [hid] at hfst hnone
    subst hfst
    have hlist : unresolvedIn w [m] = [] := by simp [unresolvedIn, ← hnone]
    rw [hlist, List.append_nil]
    exact alike_seeds hadd m seeds

/-- Linking entry points again reports those that cannot be resolved and is otherwise like adding them. -/
theorem alike_reseed {l : List (QualifiedMethod × List (Nat × ExactType))} (h : Alike w missing s s') (hv : s.Valid)
    (hnd : (l.map Prod.fst).Nodup) (hm : ∀ m ∈ l.map Prod.fst, m ∉ missing) :
    Alike w (missing ++ unresolvedIn w (l.map Prod.fst))
      (l.foldl (fun s e => s.reseedEntry e.1 e.2) s) (l.foldl replayEntry s') := by
  induction l generalizing missing s s' with
  | nil =>
    rw [List.map_nil, unresolvedIn, List.filter_nil, List.append_nil]
    exact h
  | cons e l ih =>
    rw [List.map_cons, List.nodup_cons] at hnd
    have hfirst := alike_reseedEntry h hv (hm e.1 List.mem_cons_self) e.2
    have hv₁ := (moves_reseedEntry hv e.1 e.2 []).valid hv
    have hrest := ih hfirst hv₁ hnd.2 fun m hmem hin => by
      rcases List.mem_append.1 hin with hin | hin
      · exact hm m (List.mem_cons_of_mem _ hmem) hin
      · obtain rfl := List.mem_singleton.1 (List.mem_filter.1 hin).1
        exact hnd.1 hmem
    rw [List.append_assoc, unresolvedIn, unresolvedIn, ← List.filter_append] at hrest
    exact hrest

/-! ## Runs with their own bounds -/

/-- A run comes to the same with greater bounds. -/
theorem Sound.runWaves_of_le (h : s.Sound) {methods fuel : Nat} (hm : s.methodBound ≤ methods)
    (hf : s.taskBound + 1 ≤ fuel) : runWaves methods fuel s = runWaves s.methodBound (s.taskBound + 1) s :=
  runWaves_more ⟨h.valid, .refl _, Analysis.methodsLeft_le_bound _, Analysis.tasksLeft_le_bound _⟩ h.covered
    (Nat.lt_succ_self _) hm hf

/-- Alike analyses run alike, though the bounds that they take differ. -/
theorem alike_boundedWaves (h : Alike w missing s s') (hs : s.Sound) (hs' : s'.Sound) :
    Alike w missing (runWaves s.methodBound (s.taskBound + 1) s)
      (runWaves s'.methodBound (s'.taskBound + 1) s') := by
  have hwaves := alike_runWaves h (max s.methodBound s'.methodBound) (max (s.taskBound + 1) (s'.taskBound + 1))
  rw [hs.runWaves_of_le (Nat.le_max_left _ _) (Nat.le_max_left _ _),
    hs'.runWaves_of_le (Nat.le_max_right _ _) (Nat.le_max_right _ _)] at hwaves
  exact hwaves

theorem settle_of_reseed (hr : s.reseed = false) : s.settle = runWaves s.methodBound (s.taskBound + 1) s := by
  have hsame : s.reseedEntries = s := by
    unfold reseedEntries
    rw [hr]
    rfl
  unfold settle
  rw [hsame]

/-- The first run after an eviction and the run of a new analysis with the same entry points. -/
theorem alike_settle_blank {h : Hierarchy} (hs : h.Shows w) (settings : Settings)
    (entries : Table QualifiedMethod (List (Nat × ExactType))) (generation : Nat)
    (observations : List (String × ExactType)) :
    Alike w (unresolvedIn w entries.keys) (blank settings h entries true generation observations).settle
      (replay w settings entries).settle := by
  have hstart : Alike w [] (blank settings h ∅ false generation observations) (Analysis.new w settings) :=
    .intro hs (Hierarchy.shows_new w) ⟨rfl, rfl⟩
  have hblank := sound_blank settings hs.coherent entries true generation observations
  have hvalid := (sound_blank settings hs.coherent ∅ false generation observations).valid
  have hlinked : Alike w (unresolvedIn w entries.keys)
      (blank settings h entries true generation observations).reseedEntries (replay w settings entries) :=
    alike_reseed hstart hvalid entries.nodup fun _ _ => List.not_mem_nil
  have hreseed := moves_reseedEntries hblank.valid []
  have hfresh := fresh_replay w settings entries
  rw [settle_of_reseed hfresh.reseed]
  exact alike_boundedWaves hlinked (hblank.moves hreseed (calm_reseedEntries hblank.calm)).1 hfresh.sound

/-! ## Histories -/

/-- Whatever was asked of an analysis before: once another world is in place and the classes that it remembers
otherwise are forgotten, a run derives what a new analysis of that world derives from the same entry points. -/
theorem alike_settle_evict (w : World) (settings : Settings) (ops : List Op) (v : World) (names : List ClassName)
    (hnames : ∀ n found, ((Analysis.new w settings).history ops).hierarchy.classes.find? n = some found →
      found ≠ v.find? n → n ∈ names) {s : Analysis}
    (hs : s = ((((Analysis.new w settings).history ops).setWorld v).evict names).2 ∨
      s = (((Analysis.new w settings).history ops).evict names).2.setWorld v) :
    s.settle.isSettled ∧ (replay v settings ((Analysis.new w settings).history ops).entries).settle.isSettled ∧
      Alike v (unresolvedIn v ((Analysis.new w settings).history ops).entries.keys) s.settle
        (replay v settings ((Analysis.new w settings).history ops).entries).settle := by
  obtain ⟨hsound, hsettings⟩ := (sound_new w settings).history ops
  generalize (Analysis.new w settings).history ops = t at *
  have hshows : ((t.hierarchy.setWorld v).evict (OrderedSet.ofList names).toList).Shows v :=
    Hierarchy.shows_evict hsound.valid.hierarchy fun n found hf hne =>
      OrderedSet.mem_ofList.2 (hnames n found hf hne)
  have hblank : s = blank t.settings
      ((t.hierarchy.setWorld v).evict (OrderedSet.ofList names).toList) t.entries true
      (t.generation + 1) t.observations := by
    rcases hs with rfl | rfl
    · rfl
    · rfl
  subst hblank
  refine ⟨isSettled_settle (sound_blank _ hshows.coherent _ _ _ _),
    isSettled_settle (fresh_replay v settings t.entries).sound, ?_⟩
  have hsame : t.settings = settings := hsettings
  rw [hsame]
  exact alike_settle_blank hshows settings t.entries (t.generation + 1) t.observations

/-! The sample with two entry points, of which a new world lacks the second. -/

def sampleHistory : List Op := [.command (.entry sampleMain), .command (.entry sampleRun), .command .settle]

def sampleChange : World :=
  ⟨[⟨"A", none, [], [], [], [⟨sampleMain.signature, [.static], some sampleBody⟩]⟩], by decide⟩

set_option maxRecDepth 100000 in
theorem alike_settle_sampleChange :
    Alike sampleChange [sampleRun]
      ((((Analysis.new sampleWorld {}).history sampleHistory).setWorld sampleChange).evict ["A"]).2.settle
      (replay sampleChange {} ((Analysis.new sampleWorld {}).history sampleHistory).entries).settle := by
  have hkeys : ((Analysis.new sampleWorld {}).history sampleHistory).hierarchy.classes.keys = ["A"] := by
    decide +kernel
  have hmissing : unresolvedIn sampleChange ((Analysis.new sampleWorld {}).history sampleHistory).entries.keys =
      [sampleRun] := by
    decide +kernel
  rw [← hmissing]
  refine (alike_settle_evict sampleWorld {} sampleHistory sampleChange ["A"]
    (fun n found hf _ => ?_) (Or.inl rfl)).2.2
  rw [← hkeys]
  exact Table.mem_keys_of_find? hf

end Analysis

end TypeFlow
