import TypeFlow.Proofs.Analysis.Session
import TypeFlow.Proofs.Solution.Transfer

/-!
# What requests bring

A new analysis is grounded in any set of facts. A run keeps it grounded, the
methods and tasks that it takes from the queues bringing their facts, and a
request of the user brings facts of its own.
-/

namespace TypeFlow

namespace Analysis

variable {w : World} {o : Settings} {K : Fact → Prop} {Γ : List Fact} {s s' : Analysis}

/-! ## The beginning -/

theorem not_standsFor_new {n : NodeId} {x : Slot} (h : (Analysis.new w o).StandsFor n x) : x = .root := by
  have hempty : ∀ {m r}, ¬ (Analysis.new w o).Linked m r := by
    rintro m r ⟨-, id, hr⟩
    cases hr
  cases x with
  | root => rfl
  | param m i => exact absurd h.choose_spec.1 hempty
  | result m => exact absurd h.choose_spec.1 hempty
  | thrown m => exact absurd h.choose_spec.1 hempty
  | var m v => exact absurd h.choose_spec.1 hempty
  | field f => cases h
  | aggregate t => cases h
  | pool k => cases h

theorem grounded_new (w : World) (o : Settings) (K : Fact → Prop) : Grounded w o K [] (Analysis.new w o) where
  valid := (sound_new w o).valid
  shows := Hierarchy.shows_new w
  settings := rfl
  fresh := rfl
  sourced :=
    { classes := nofun
      problems := fun h => absurd h (OrderedSet.not_mem_empty _)
      methods := nofun
      aliases := fun h => absurd h List.not_mem_nil
      fields := nofun
      aggregates := fun h => absurd h List.not_mem_nil
      pools := fun h => absurd h List.not_mem_nil
      selectors := nofun
      noted := nofun
      calls := nofun }
  kept φ hφ := by
    refine Or.inr fun ψ hψ => ?_
    cases φ with
    | cls n => exact absurd hφ List.not_mem_nil
    | initialized n =>
      obtain ⟨r, hr, -⟩ := hφ
      cases hr
    | method m =>
      obtain ⟨r, -, id, hr⟩ := hφ
      cases hr
    | named m =>
      rcases hφ with ⟨r, -, id, hr⟩ | hm
      · cases hr
      · exact absurd hm List.not_mem_nil
    | field f =>
      obtain ⟨n, hn⟩ := hφ
      cases hn
    | aggregate t => exact absurd hφ List.not_mem_nil
    | pool k => exact absurd hφ List.not_mem_nil
    | _ => cases hψ
  labelled := by
    refine ⟨fun _ => .root, ⟨fun {n} hn => ?_, fun hx => (not_standsFor_new hx).symm, fun {n t} ht => ?_,
      fun {a b} hb => ?_, nofun⟩⟩
    · exact Nat.lt_one_iff.1 hn
    · obtain ⟨i, hi, -⟩ := FlowGraph.mem_typesAt.1 ht
      have hheld := held_initialGraph n
      exact absurd (hheld ▸ hi) List.not_mem_nil
    · have hout : initialGraph.out a = [] := by
        unfold initialGraph
        rw [FlowGraph.out_listen, FlowGraph.out_newNode]
        rfl
      exact absurd (hout ▸ hb) List.not_mem_nil

/-! ## Queues -/

/-- A method that is taken from its queue is in hand. -/
theorem Grounded.takeMethod (h : Grounded w o K Γ s) {id : Nat} {rest : List MethodId} {r : MethodRecord}
    (hw : s.worklist = id :: rest) (hr : s.methods[id]? = some r) :
    Brings w o K (.method r.reference :: Γ) [] s { s with worklist := rest } := by
  have hstep : Step .client s [] { s with worklist := rest } _ := .takeMethod hw
  refine h.unseen hstep fun φ hφ => ?_
  cases φ with
  | method m =>
    rcases hφ with ⟨i, hi, r', hr', rfl⟩ | hm
    · rw [hw] at hi
      rcases List.mem_cons.1 hi with rfl | hi
      · obtain rfl := Option.some.inj (hr.symm.trans hr')
        exact Or.inr List.mem_cons_self
      · exact Or.inl ⟨i, hi, r', hr', rfl⟩
    · exact Or.inr (List.mem_cons_of_mem _ hm)
  | aggregate t => exact hφ.imp_right fun ht => List.mem_cons_of_mem _ ht
  | initialized n => exact List.mem_cons_of_mem _ hφ
  | pool k => exact List.mem_cons_of_mem _ hφ
  | _ => exact hφ

/-- The tasks are in hand all at once. -/
theorem Grounded.takeTasks (h : Grounded w o K Γ s) :
    Brings w o K (s.deferred.flatMap taskFacts ++ Γ) [] s { s with deferred := [] } := by
  have hstep : Step .driver s [] { s with deferred := [] } _ := .takeTasks s [] nofun
  refine h.unseen hstep fun φ hφ => ?_
  cases φ with
  | method m => exact hφ.imp_right fun hm => List.mem_append_right _ hm
  | aggregate t =>
    rcases hφ with ⟨n, hn⟩ | ht
    · exact Or.inr (List.mem_append_left _ (List.mem_flatMap.2 ⟨_, hn, List.mem_cons_self⟩))
    · exact Or.inr (List.mem_append_right _ ht)
  | initialized n => exact List.mem_append_right _ hφ
  | pool k => exact List.mem_append_right _ hφ
  | _ => exact hφ

theorem Grounded.withEntries (h : Grounded w o K Γ s) (e : Table QualifiedMethod (List (Nat × ExactType))) :
    Brings w o K Γ [] s { s with entries := e } := by
  have hstep : Step .driver s [] { s with entries := e } [] := .entries s [] e rfl
  exact h.unseen hstep fun _ hφ => hφ.same hstep.grows rfl rfl

/-! ## Runs -/

theorem Grounded.processNext (h : Grounded w o K Γ s) (hK : w.catalog.Closed o K) {id : Nat} {rest : List MethodId}
    (hw : s.worklist = id :: rest) : Brings w o K Γ [] s ({ s with worklist := rest }.processMethod id) := by
  obtain ⟨r, hr, hp⟩ := h.valid.queues.worklist id (hw ▸ List.mem_cons_self)
  have hnot : id ∉ rest := (List.nodup_cons.1 (hw ▸ h.valid.queues.nodup)).1
  have htake := h.takeMethod hw hr
  exact .after htake.leads (htake.grounded.processMethod hK hr hp hnot)

theorem Grounded.processMethods (h : Grounded w o K Γ s) (hK : w.catalog.Closed o K) (fuel : Nat) :
    Brings w o K Γ [] s (processMethods fuel s) := by
  induction fuel generalizing s with
  | zero => exact .refl h
  | succ fuel ih =>
    unfold Analysis.processMethods
    split
    · exact .refl h
    · next id rest hw =>
      have hnext := h.processNext hK hw
      exact .after hnext.leads (ih hnext.grounded)

/-- Tasks in hand are run one after another. -/
theorem Grounded.runTaken {tasks : List Task} (h : Grounded w o K (tasks.flatMap taskFacts ++ Γ) s)
    (hK : w.catalog.Closed o K) (ho : ∀ t ∈ tasks, s.Owes (.task t)) :
    Brings w o K Γ [] s (tasks.foldl (fun s task =>
      { s with tally := { s.tally with tasksRun := s.tally.tasksRun + 1 } }.runTask task) s) := by
  induction tasks generalizing s with
  | nil => exact .refl h
  | cons t tasks ih =>
    rw [List.flatMap_cons, List.append_assoc] at h
    have hnote := h.note (t := { s.tally with tasksRun := s.tally.tasksRun + 1 }) rfl s.observations
    have htask := hnote.grounded.runTask hK (hnote.leads.grows.owes_task (ho t List.mem_cons_self))
    have hfirst := Brings.after hnote.leads htask
    have hrest := ih hfirst.grounded fun u hu => hfirst.leads.grows.owes_task (ho u (List.mem_cons_of_mem _ hu))
    exact .after hfirst.leads hrest

theorem Grounded.runTasks (h : Grounded w o K Γ s) (hK : w.catalog.Closed o K) :
    Brings w o K Γ [] s s.runTasks := by
  have htake := h.takeTasks
  exact .after htake.leads (htake.grounded.runTaken hK fun t ht =>
    htake.leads.grows.owes_task (h.valid.queues.deferred t ht))

theorem Grounded.waveMethods (h : Grounded w o K Γ s) (hK : w.catalog.Closed o K) (methods : Nat) :
    Brings w o K Γ [] s (waveMethods methods s) := by
  have hnote := h.note (t := { s.tally with waves := s.tally.waves + 1 }) rfl s.observations
  exact .after hnote.leads (hnote.grounded.processMethods hK methods)

theorem Grounded.runWaves (h : Grounded w o K Γ s) (hK : w.catalog.Closed o K) (methods fuel : Nat) :
    Brings w o K Γ [] s (runWaves methods fuel s) := by
  induction fuel generalizing s with
  | zero => exact .refl h
  | succ fuel ih =>
    have hmethods := h.waveMethods hK methods
    rw [runWaves_succ]
    split
    · exact hmethods
    · have htasks := hmethods.grounded.runTasks hK
      exact .after hmethods.leads (.after htasks.leads (ih htasks.grounded))

theorem Grounded.settle (h : Grounded w o K Γ s) (hK : w.catalog.Closed o K) : Brings w o K Γ [] s s.settle := by
  have hreseed : s.reseedEntries = s := by
    unfold reseedEntries
    rw [h.fresh]
    rfl
  unfold Analysis.settle
  rw [hreseed]
  exact h.runWaves hK _ _

/-! ## Entry points -/

theorem Grounded.entry (h : Grounded w o K Γ s) (hK : w.catalog.Closed o K) {m : QualifiedMethod}
    (hm : ∀ φ ∈ w.catalog.starting m, K φ) :
    Brings w o K Γ (w.catalog.starting m) s (s.command (.entry m)) := by
  have hlink := h.linkMethod hK fun φ hφ => hm φ (List.mem_append_left _ hφ)
  have hnames := (moves_linkMethod (w := .client) h.valid [] m).2
  simp only [command, addEntry]
  cases hid : (s.linkMethod m).1 with
  | none =>
    rw [hid] at hnames
    have hnone := hlink.grounded.resolveMethod_of_names_none hnames
    simpa only [Catalog.starting, hnone, List.append_nil] using hlink
  | some id =>
    rw [hid] at hnames
    obtain ⟨r, hr, hres⟩ := hlink.grounded.resolveMethod_of_names hnames
    have hdef := hlink.grounded.method? hr
    unfold Catalog.starting at hm ⊢
    simp only [hres, hdef, Option.any_some, hr] at hm ⊢
    have hinit : Brings w o K Γ (if r.definition.isStatic then w.catalog.initializing r.reference.owner else [])
        (s.linkMethod m).2 (if r.definition.isStatic then (s.linkMethod m).2.initializeClass r.reference.owner
          else (s.linkMethod m).2) := by
      split at hm
      · next hs =>
        rw [if_pos hs, if_pos hs]
        exact hlink.grounded.initializeClass hK fun φ hφ => hm φ (List.mem_append_right _ hφ)
      · next hs =>
        rw [if_neg hs, if_neg hs]
        exact .refl hlink.grounded
    have hboth := hlink.append hinit
    exact hboth.before (hboth.grounded.withEntries _)

theorem method?_isSome {m : QualifiedMethod} (hv : s.Valid) : (s.method? m).isSome ↔ s.Has (.named m) := by
  constructor
  · intro hm
    obtain ⟨r, hr⟩ := Option.isSome_iff_exists.1 hm
    obtain ⟨id, hid, -⟩ := Option.bind_eq_some_iff.1 hr
    exact has_named_of_methodId? hid
  · intro hm
    obtain ⟨id, hid⟩ := Option.isSome_iff_exists.1 (isSome_methodId?_iff.2 hm)
    obtain ⟨r, hr, -⟩ := hv.methods.names_of_methodId? hid
    exact Option.isSome_iff_exists.2 ⟨r, Option.bind_eq_some_iff.2 ⟨id, hid, hr⟩⟩

/-- A linked method goes by the name that its references resolve to. -/
theorem Grounded.resolveMethod_of_method? (h : Grounded w o K Γ s) {m : QualifiedMethod} {r : MethodRecord}
    (hr : s.method? m = some r) : s.Linked r.reference r ∧ w.catalog.resolveMethod m = some r.reference := by
  obtain ⟨id, hid, hr⟩ := Option.bind_eq_some_iff.1 hr
  obtain ⟨r', hr', hres⟩ := h.resolveMethod_of_names (h.valid.methods.names_of_methodId? hid)
  obtain rfl := Option.some.inj (hr.symm.trans hr')
  exact ⟨⟨rfl, id, hr⟩, hres⟩

/-- A parameter type is refused unless the method is linked. -/
theorem Grounded.seed (h : Grounded w o K Γ s) (hK : w.catalog.Closed o K) {m : QualifiedMethod} {index : Nat}
    {t : ExactType} (hm : ∀ φ ∈ w.catalog.seeding m index t, K φ) :
    Brings w o K Γ [] s (s.command (.seed m index t)) ∧
      (s.Has (.named m) → ∀ φ ∈ w.catalog.seeding m index t, (s.command (.seed m index t)).Has φ) := by
  simp only [command, seedParam]
  cases hr : s.method? m with
  | none =>
    refine ⟨.refl h, fun hnamed => ?_⟩
    rw [← method?_isSome h.valid, hr] at hnamed
    cases hnamed
  | some r =>
    obtain ⟨⟨-, id, hget⟩, hres⟩ := h.resolveMethod_of_method? hr
    have hparam := h.param hget index
    unfold Catalog.seeding at hm ⊢
    simp only [hres] at hm ⊢
    generalize (Slot.params r.reference)[index]? = x? at hparam hm ⊢
    generalize r.params[index]? = n? at hparam ⊢
    cases hparam with
    | none => exact ⟨.refl h, fun _ φ hφ => absurd hφ List.not_mem_nil⟩
    | some hn =>
      have hinst := h.instantiate hK hn hm
      have hnote := hinst.grounded.withEntries
      exact ⟨.after hinst.leads (hnote _), fun _ φ hφ => (hnote _).leads.has (hinst.has φ hφ)⟩

end Analysis

end TypeFlow
