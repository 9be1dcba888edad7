import TypeFlow.Proofs.Analysis.Gathering

/-!
# What gets to the root

Types that are added to an aggregate rise along the supertypes. They get to
the root where a type on the way has no direct supertypes. On classes that only
extend each other in a circle there is no such type, so that what is added to
the aggregate of one of them never gets to the root.
-/

namespace TypeFlow

def Catalog.Surfaces (c : Catalog) (t : DeclType) : Prop :=
  ∃ top, c.Below t top ∧ Analysis.directSupertypes c.find? top = []

namespace Catalog

variable {c c' : Catalog} {t top : DeclType}

theorem Inherits.congr (hc : ∀ n, c'.find? n = c.find? n) {n m : ClassName} (h : c.Inherits n m) :
    c'.Inherits n m := by
  induction h with
  | self n => exact .self n
  | step hn hd hs _ ih => exact .step hn ((hc _).trans hd) hs ih

theorem Below.congr (hc : ∀ n, c'.find? n = c.find? n) (h : c.Below t top) : c'.Below t top :=
  ⟨h.1, h.2.imp_right fun ⟨a, b, ha, hb, hinh⟩ => ⟨a, b, ha, hb, hinh.congr hc⟩⟩

theorem Surfaces.congr (hc : ∀ n, c'.find? n = c.find? n) (h : c.Surfaces t) : c'.Surfaces t := by
  obtain ⟨top, hbelow, hnone⟩ := h
  exact ⟨top, hbelow.congr hc, (Analysis.directSupertypes_congr hc top).trans hnone⟩

theorem directSupertypes_eq_nil_iff {n : ClassName} (ht : t.base = .object n) :
    Analysis.directSupertypes c.find? t = [] ↔
      n = objectClass ∨ ∀ d, c.find? n = some d → d.supertypes = [] := by
  unfold Analysis.directSupertypes
  by_cases hn : n = objectClass
  · simp [ht, hn]
  · cases hd : c.find? n <;> simp [ht, hn, hd]

/-- All types but those of classes surface, and those of classes from which supertypes lead to the top class, to a
class that is missing or to one without supertypes. -/
theorem surfaces_iff : c.Surfaces t ↔ ∀ name, t.base = .object name → ∃ target, c.Inherits name target ∧
    (target = objectClass ∨ ∀ d, c.find? target = some d → d.supertypes = []) := by
  constructor
  · rintro ⟨top, ⟨-, hbase | ⟨a, b, ha, hb, hinh⟩⟩, hnone⟩ name hname
    · exact ⟨name, .self name, (directSupertypes_eq_nil_iff (hbase.symm.trans hname)).1 hnone⟩
    · obtain rfl : a = name := DeclType.object.inj (ha.symm.trans hname)
      exact ⟨b, hinh, (directSupertypes_eq_nil_iff hb).1 hnone⟩
  · intro h
    by_cases hobject : ∃ name, t.base = .object name
    · obtain ⟨name, hname⟩ := hobject
      obtain ⟨target, hinh, hlast⟩ := h name hname
      have hbase : ((DeclType.object target).wrap t.dims).base = .object target := DeclType.base_wrap _ _
      refine ⟨(DeclType.object target).wrap t.dims, ⟨?_, Or.inr ⟨name, target, hname, hbase, hinh⟩⟩,
        (directSupertypes_eq_nil_iff hbase).2 hlast⟩
      rw [DeclType.dims_wrap]
      exact (Nat.zero_add _).symm
    · refine ⟨t, .refl c t, ?_⟩
      unfold Analysis.directSupertypes
      split
      · next name hname => exact absurd ⟨name, hname⟩ hobject
      · rfl

end Catalog

namespace Analysis

variable {w : Actor} {s s' : Analysis} {declared : DeclType} {t : ExactType}

def place (s : Analysis) (declared : DeclType) (t : ExactType) : Analysis :=
  (s.aggregate declared).2.addType (s.aggregate declared).1 t

def collect (s : Analysis) (declared : DeclType) (t : ExactType) : Analysis := (s.place declared t).settle

structure Collected (s : Analysis) (declared : DeclType) (t : ExactType) : Prop where
  settled : s.isSettled
  above : ∀ top, s.hierarchy.view.Below declared top → ∃ n, s.aggregate top = (n, s) ∧ t ∈ s.graph.typesAt n
  top : s.hierarchy.view.Surfaces declared → t ∈ s.graph.typesAt root

/-! ## Any session -/

theorem moves_addType (hv : s.Valid) {n : Nat} (hn : n < s.graph.nodes.size) (t : ExactType) :
    Moves .client s [] (s.addType n t) [] ∧ t ∈ (s.addType n t).graph.typesAt n := by
  have hnodes : ∀ m ∈ [n], m < s.graph.nodes.size := fun m hm => List.mem_singleton.1 hm ▸ hn
  obtain ⟨hv₁, hmem⟩ := valid_withType hv t hnodes
  have hstep : Moves .client s [] (s.withType t [n]) [] := (Step.addType rfl hn).moves
  have hdrain := moves_drain (w := .client) hv₁ []
  exact ⟨hstep.trans hdrain, hdrain.grows.graph.mem_typesAt (hmem n List.mem_cons_self)⟩

theorem Sound.mem_root_of_surfaces (h : s.Sound) (hs : s.isSettled) {n : NodeId} {i : TypeId}
    (hsurfaces : s.hierarchy.view.Surfaces declared) (hn : s.aggregate? declared = some n)
    (hi : i ∈ s.graph.held n) :
    i ∈ s.graph.held root := by
  obtain ⟨top, hbelow, hnone⟩ := hsurfaces
  obtain ⟨m, hm, him⟩ := h.mem_held_of_below hs hbelow hn hi
  by_cases hroot : top.isRoot = true
  · obtain rfl : root = m := by
      unfold aggregate? at hm
      rw [if_pos hroot] at hm
      exact Option.some.inj hm
    exact him
  · have howes : s.Owes (.task (.wire top m)) := by
      unfold aggregate? at hm
      rwa [if_neg hroot] at hm
    obtain ⟨supers, hdec, hflow, -⟩ := h.covered.done hs howes
    have hsupers : supers = [] := hdec.view.symm.trans hnone
    exact h.valid.graph.mem_held_of_flows (hflow hsupers) him

theorem moves_place (hv : s.Valid) (declared : DeclType) (t : ExactType) :
    Moves .client s [] (s.place declared t) [] ∧
      ∃ n, (s.place declared t).aggregate? declared = some n ∧ t ∈ (s.place declared t).graph.typesAt n := by
  obtain ⟨haggregate, hget⟩ := moves_aggregate (w := .client) (t := declared) (s := s) (Or.inl rfl) []
  have hv₁ := haggregate.valid hv
  obtain ⟨hadd, hadded⟩ := moves_addType hv₁ (hv₁.aggregate?_lt hget) t
  exact ⟨haggregate.trans hadd, _, hadd.grows.aggregate? hget, hadded⟩

theorem Sound.place (h : s.Sound) (declared : DeclType) (t : ExactType) : (s.place declared t).Sound :=
  (h.moves (moves_place h.valid declared t).1 (pending_drain _)).1

theorem Sound.learns_collect (h : s.Sound) (declared : DeclType) (t : ExactType) :
    s.hierarchy.Learns (s.collect declared t).hierarchy := by
  have hplaced := h.place declared t
  exact (moves_place h.valid declared t).1.learns.trans (moves_settle hplaced.valid hplaced.covered).learns

theorem Sound.collected (h : s.Sound) (declared : DeclType) (t : ExactType) :
    (s.collect declared t).Collected declared t := by
  obtain ⟨-, n, hn, ht⟩ := moves_place h.valid declared t
  have hplaced := h.place declared t
  have hgrows : (s.place declared t).Grows (s.collect declared t) :=
    (moves_settle hplaced.valid hplaced.covered).grows
  have hsettled : (s.collect declared t).isSettled := isSettled_settle hplaced
  have hsound : (s.collect declared t).Sound := hplaced.settle.1
  have hn := hgrows.aggregate? hn
  obtain ⟨i, hi, hit⟩ := FlowGraph.mem_typesAt.1 (hgrows.graph.mem_typesAt ht)
  refine ⟨hsettled, fun top htop => ?_, fun htop => ?_⟩
  · obtain ⟨m, hm, him⟩ := hsound.mem_held_of_below hsettled htop hn hi
    exact ⟨m, aggregate_of_some hm, FlowGraph.mem_typesAt.2 ⟨i, him, hit⟩⟩
  · exact FlowGraph.mem_typesAt.2 ⟨i, hsound.mem_root_of_surfaces hsettled htop hn hi, hit⟩

/-! ## A session that has seen nothing else -/

/-- Whether the aggregates of types above `declared` are all that there is, and nothing leads to the root. -/
structure Adrift (c : Catalog) (declared : DeclType) (s : Analysis) : Prop where
  valid : s.Valid
  view : ∀ n, s.hierarchy.lookup n = c.find? n
  idle : s.worklist = []
  started : s.reseed = false
  listeners : ∀ n l, l ∈ s.graph.listeners n → n = root
  empty : s.graph.held root = []
  edges : ∀ n, root ∉ s.graph.out n
  above : ∀ t n, s.aggregates.find? t = some n → c.Below declared t
  tasks : ∀ task ∈ s.deferred, ∃ t n, task = .wire t n

section
variable {c : Catalog} {super : DeclType}

/-- With a graph in which nothing gets to the root, no notice waits to be served. -/
theorem Adrift.regraph (h : Adrift c declared s) {g : FlowGraph} (hv : Valid { s with graph := g })
    (hlisteners : ∀ n, g.listeners n = s.graph.listeners n) (hempty : g.held root = [])
    (hedges : ∀ n, root ∉ g.out n) : Adrift c declared (drain { s with graph := g }) := by
  have hnone : g.takeNotice = none := by
    cases hpending : g.pending with
    | nil => rw [FlowGraph.takeNotice, hpending]
    | cons d rest =>
      obtain ⟨n, hl, ht⟩ := hv.graph.told d (hpending ▸ List.mem_cons_self)
      rw [h.listeners n d.listener (hlisteners n ▸ hl)] at ht
      exact absurd (hempty ▸ ht) List.not_mem_nil
  rw [drain_of_calm hnone]
  exact { h with
    valid := hv
    listeners := fun n l hl => h.listeners n l (hlisteners n ▸ hl)
    empty := hempty
    edges := hedges }

theorem reaches_root {g : FlowGraph} (hedges : ∀ n, root ∉ g.out n) {n : NodeId} (hreach : g.Reaches n root) :
    n = root := by
  rcases hreach.cases_tail with heq | ⟨m, -, hedge⟩
  · exact heq.symm
  · exact absurd hedge (hedges m)

theorem Adrift.connect (h : Adrift c declared s) {a b : Nat} (ha : a < s.graph.nodes.size)
    (hb : b < s.graph.nodes.size) (hroot : b ≠ root) : Adrift c declared (s.connect a b) := by
  have hstep : Step .client s [] { s with graph := s.graph.connect a b } [] := .connect ha hb (Or.inl rfl)
  have hedges : ∀ n, root ∉ (s.graph.connect a b).out n := by
    intro n hn
    rcases (FlowGraph.mem_out_connect ha).1 hn with hn | ⟨-, -, rfl⟩
    · exact h.edges n hn
    · exact hroot rfl
  refine h.regraph (hstep.valid h.valid) (FlowGraph.listeners_connect s.graph a b) ?_ hedges
  refine List.eq_nil_iff_forall_not_mem.2 fun i hi => ?_
  rcases FlowGraph.arrived_connect_along hi with hi | ⟨hi, hreach⟩
  · exact absurd (h.empty ▸ hi) List.not_mem_nil
  · rw [reaches_root hedges hreach, h.empty] at hi
    cases hi

theorem Adrift.addType (h : Adrift c declared s) {n : Nat} (hn : n < s.graph.nodes.size) (hroot : n ≠ root)
    (t : ExactType) : Adrift c declared (s.addType n t) := by
  have hstep : Step .client s [] (s.withType t [n]) [] := .addType rfl hn
  have hout : ∀ m, (s.withType t [n]).graph.out m = s.graph.out m := fun m =>
    (FlowGraph.out_addAll _ _ _ m).trans (s.graph.out_intern t m)
  have heq : s.addType n t = drain { s with graph := (s.graph.intern t).2.addAll [n] (s.graph.intern t).1 } := rfl
  rw [heq]
  refine h.regraph (hstep.valid h.valid) (fun m => ?_) ?_ fun m => hout m ▸ h.edges m
  · exact (FlowGraph.listeners_addAll _ _ _ m).trans (s.graph.listeners_intern t m)
  · refine List.eq_nil_iff_forall_not_mem.2 fun i hi => ?_
    rcases FlowGraph.arrived_addAll_along hi with hi | ⟨-, k, hk, hreach⟩
    · rw [FlowGraph.held_intern, h.empty] at hi
      cases hi
    · have hedges : ∀ m, root ∉ (s.graph.intern t).2.out m := fun m => s.graph.out_intern t m ▸ h.edges m
      exact hroot (List.mem_singleton.1 hk ▸ reaches_root hedges hreach)

theorem Adrift.aggregate (h : Adrift c declared s) (hbelow : c.Below declared super) :
    Adrift c declared (s.aggregate super).2 := by
  cases ht : s.aggregate? super with
  | some n =>
    rw [aggregate_of_some ht]
    exact h
  | none =>
    have hv := (Step.aggregate (w := .client) (γ := []) ht (Or.inl rfl)).valid h.valid
    rw [aggregate_of_none ht] at hv ⊢
    refine ⟨hv, h.view, h.idle, h.started, fun n l hl => ?_, ?_, fun n => ?_, fun t n hn => ?_,
      fun task htask => ?_⟩
    · exact h.listeners n l (s.graph.listeners_newNode n ▸ hl)
    · exact (s.graph.held_newNode root).trans h.empty
    · exact s.graph.out_newNode n ▸ h.edges n
    · rcases Table.find?_insert_cases hn with hn | ⟨rfl, -⟩
      · exact h.above t n hn
      · exact hbelow
    · rcases List.mem_append.1 htask with htask | htask
      · exact h.tasks task htask
      · exact ⟨_, _, List.mem_singleton.1 htask⟩

theorem directSupertypes_object {find? : ClassName → Option ClassDef} :
    directSupertypes find? (.object objectClass) = [] := by
  simp [directSupertypes, DeclType.base]

/-- The aggregates of the types above `declared` are not the root, when none of them goes there. -/
theorem Adrift.aggregate_ne_root (h : Adrift c declared s) (hc : ¬ c.Surfaces declared)
    (hbelow : c.Below declared super) : (s.aggregate super).1 ≠ root := by
  have hroot : super.isRoot ≠ true := fun heq =>
    hc ⟨super, hbelow, of_decide_eq_true heq ▸ directSupertypes_object⟩
  have hv := (h.aggregate hbelow).valid
  obtain ⟨-, hget⟩ := moves_aggregate (w := .client) (t := super) (s := s) (Or.inl rfl) []
  unfold aggregate? at hget
  rw [if_neg hroot] at hget
  exact hv.ne_root hget

theorem exists_class_of_directSupertypes {find? : ClassName → Option ClassDef} {t : DeclType}
    (h : directSupertypes find? t ≠ []) :
    ∃ name d, t.base = .object name ∧ name ≠ objectClass ∧ find? name = some d := by
  unfold directSupertypes at h
  split at h
  · next name hname =>
    split at h
    · exact absurd rfl h
    · next hne =>
      split at h
      · next d hd => exact ⟨name, d, hname, hne, hd⟩
      · exact absurd rfl h
  · exact absurd rfl h

theorem Adrift.consult (h : Adrift c declared s) (hsupers : directSupertypes c.find? super ≠ []) :
    Adrift c declared (s.consult super) := by
  obtain ⟨name, d, hname, hne, hd⟩ := exists_class_of_directSupertypes hsupers
  have hconsult : s.consult super = { s with hierarchy := s.hierarchy.remember name } := by
    unfold Analysis.consult
    simp only [hname, if_neg hne, Hierarchy.get, h.view name, hd, Option.isNone_some, Bool.false_eq_true, if_false]
  have hv := (moves_consult (w := .client) s super []).1.valid h.valid
  rw [hconsult] at hv ⊢
  exact { h with valid := hv, view := fun n => (s.hierarchy.lookup_remember name n).trans (h.view n) }

theorem Adrift.wireAll (h : Adrift c declared s) (hc : ¬ c.Surfaces declared) {supers : List DeclType}
    (hsupers : ∀ super ∈ supers, c.Below declared super) {node : Nat} (hnode : node < s.graph.nodes.size) :
    Adrift c declared (supers.foldl
      (fun s super => (s.aggregate super).2.connect node (s.aggregate super).1) s) := by
  induction supers generalizing s with
  | nil => exact h
  | cons super supers ih =>
    have hbelow := hsupers super List.mem_cons_self
    have h₁ := h.aggregate hbelow
    obtain ⟨hmoves, hget⟩ := moves_aggregate (w := .client) (t := super) (s := s) (Or.inl rfl) []
    have hnode₁ := hmoves.grows.lt_size hnode
    have hsuper := h₁.valid.aggregate?_lt hget
    have hconnect := (moves_connect (w := .client) h₁.valid hnode₁ hsuper (Or.inl rfl) []).1
    have hrest : ∀ k ∈ supers, c.Below declared k := fun k hk => hsupers k (List.mem_cons_of_mem _ hk)
    exact ih (h₁.connect hnode₁ hsuper (h.aggregate_ne_root hc hbelow)) hrest (hconnect.grows.lt_size hnode₁)

theorem Adrift.wireSupertypes (h : Adrift c declared s) (hc : ¬ c.Surfaces declared) {t : DeclType} {node : NodeId}
    (hnode : s.aggregates.find? t = some node) : Adrift c declared (s.wireSupertypes t node) := by
  have hbelow := h.above t node hnode
  have hview : directSupertypes s.hierarchy.lookup t = directSupertypes c.find? t := directSupertypes_congr h.view t
  have hsupers : directSupertypes c.find? t ≠ [] := fun hnone => hc ⟨t, hbelow, hnone⟩
  have hsize := (moves_consult (w := .client) s t []).1.grows.lt_size (h.valid.nodes.aggregate hnode).1
  unfold Analysis.wireSupertypes
  simp only [hview, List.isEmpty_iff, if_neg hsupers]
  exact (h.consult hsupers).wireAll hc (fun super hsuper => hbelow.rise hsuper) hsize

theorem Adrift.note (h : Adrift c declared s) {k : AnalysisTally}
    (hk : k.methodsProcessed = s.tally.methodsProcessed) : Adrift c declared { s with tally := k } :=
  { h with valid := (Step.note (w := .driver) (γ := []) hk s.observations nofun).valid h.valid }

/-- The tasks at hand are to wire aggregates, and leave those that they are for in place. -/
theorem Adrift.foldl_runTask (h : Adrift c declared s) (hc : ¬ c.Surfaces declared) {tasks : List Task}
    (htasks : ∀ task ∈ tasks, ∃ t n, task = .wire t n ∧ s.aggregates.find? t = some n) :
    Adrift c declared (tasks.foldl (fun s task =>
      { s with tally := { s.tally with tasksRun := s.tally.tasksRun + 1 } }.runTask task) s) := by
  induction tasks generalizing s with
  | nil => exact h
  | cons task tasks ih =>
    obtain ⟨t, n, rfl, hn⟩ := htasks task List.mem_cons_self
    have hcounted := h.note (k := { s.tally with tasksRun := s.tally.tasksRun + 1 }) rfl
    have hwire := (moves_runTask (w := .client) hcounted.valid (t := .wire t n) hn []).1
    refine ih (hcounted.wireSupertypes hc hn) fun task htask => ?_
    obtain ⟨u, m, rfl, hm⟩ := htasks task (List.mem_cons_of_mem _ htask)
    exact ⟨u, m, rfl, hwire.grows.aggregates _ _ hm⟩

theorem Adrift.runTasks (h : Adrift c declared s) (hc : ¬ c.Surfaces declared) : Adrift c declared s.runTasks := by
  have htake : Moves .driver s [] { s with deferred := [] } (s.deferred.map .task ++ []) :=
    (Step.takeTasks (w := .driver) s [] nofun).moves
  have htaken : Adrift c declared { s with deferred := [] } :=
    { h with valid := htake.valid h.valid, tasks := nofun }
  refine htaken.foldl_runTask hc fun task htask => ?_
  obtain ⟨t, n, rfl⟩ := h.tasks task htask
  exact ⟨t, n, rfl, h.valid.queues.deferred _ htask⟩

theorem processMethods_of_idle (h : s.worklist = []) (fuel : Nat) : processMethods fuel s = s := by
  cases fuel with
  | zero => rfl
  | succ fuel => simp only [processMethods, h]

theorem Adrift.runWaves (h : Adrift c declared s) (hc : ¬ c.Surfaces declared) (methods fuel : Nat) :
    Adrift c declared (runWaves methods fuel s) := by
  induction fuel generalizing s with
  | zero => exact h
  | succ fuel ih =>
    have hwave : Adrift c declared (waveMethods methods s) := by
      have hidle : waveMethods methods s = { s with tally := { s.tally with waves := s.tally.waves + 1 } } :=
        processMethods_of_idle (s := { s with tally := { s.tally with waves := s.tally.waves + 1 } }) h.idle methods
      rw [hidle]
      exact h.note rfl
    rw [runWaves_succ]
    split
    · exact hwave
    · exact ih (hwave.runTasks hc)

theorem Adrift.settle (h : Adrift c declared s) (hc : ¬ c.Surfaces declared) : Adrift c declared s.settle := by
  unfold Analysis.settle reseedEntries
  simp only [h.started, Bool.false_eq_true, if_false]
  exact h.runWaves hc _ _

theorem adrift_new (w : World) (settings : Settings) (declared : DeclType) :
    Adrift w.catalog declared (Analysis.new w settings) where
  valid := (sound_new w settings).valid
  view _ := rfl
  idle := rfl
  started := rfl
  listeners _ _ hl := (mem_listeners_initialGraph.1 hl).1
  empty := held_initialGraph root
  edges n hn := by
    have hn' : root ∈ initialGraph.out n := hn
    unfold initialGraph at hn'
    rw [FlowGraph.out_listen, FlowGraph.out_newNode] at hn'
    cases hn'
  above _ _ := nofun
  tasks _ := nofun

theorem Adrift.collect (h : Adrift c declared s) (hc : ¬ c.Surfaces declared) (t : ExactType) :
    Adrift c declared (s.collect declared t) := by
  have hbelow := Catalog.Below.refl c declared
  have h₁ := h.aggregate hbelow
  obtain ⟨-, hget⟩ := moves_aggregate (w := .client) (t := declared) (s := s) (Or.inl rfl) []
  exact (h₁.addType (h₁.valid.aggregate?_lt hget) (h.aggregate_ne_root hc hbelow) t).settle hc

/-- In a new session, what is added to an aggregate gets to the root just if some type above has no supertypes. -/
theorem mem_root_collect_new_iff (w : World) (settings : Settings) (declared : DeclType) (t : ExactType) :
    t ∈ ((Analysis.new w settings).collect declared t).graph.typesAt root ↔ w.catalog.Surfaces declared := by
  constructor
  · intro ht
    refine Classical.byContradiction fun hc => ?_
    have hadrift := (adrift_new w settings declared).collect hc t
    obtain ⟨i, hi, -⟩ := FlowGraph.mem_typesAt.1 ht
    rw [hadrift.empty] at hi
    cases hi
  · intro hc
    have hsound := sound_new w settings
    have hview : ∀ n, ((Analysis.new w settings).collect declared t).hierarchy.view.find? n = w.catalog.find? n :=
      (hsound.learns_collect declared t).lookup
    exact (hsound.collected declared t).top (hc.congr hview)

end

/-- After any session, what is added to the aggregate of a type rises to the aggregates of all types above, and to
the root if one of them has no supertypes; in a new session only then. -/
theorem collected_history (w : World) (settings : Settings) (declared : DeclType) (t : ExactType) :
    (∀ ops, (((Analysis.new w settings).history ops).collect declared t).Collected declared t) ∧
      (t ∈ ((Analysis.new w settings).collect declared t).graph.typesAt root ↔ w.catalog.Surfaces declared) :=
  ⟨fun ops => ((sound_new w settings).history ops).1.collected declared t,
    mem_root_collect_new_iff w settings declared t⟩

/-! Two classes that extend each other, and nothing else. -/

def sampleRing : World :=
  World.ofList [⟨objectClass, none, [], [], [], []⟩, ⟨"X", some "Y", [], [], [], []⟩,
    ⟨"Y", some "X", [], [], [], []⟩]

set_option maxRecDepth 100000 in
/-- Not everything that is added to an aggregate gets to the root. -/
theorem not_forall_mem_root_collect : ¬ ∀ (w : World) (settings : Settings) (ops : List Op) (declared : DeclType)
    (t : ExactType), t ∈ (((Analysis.new w settings).history ops).collect declared t).graph.typesAt root := by
  intro h
  have hroot := h sampleRing {} [] (.object "X") (.ofClass "X")
  exact absurd hroot (by decide +kernel)

end Analysis

end TypeFlow
