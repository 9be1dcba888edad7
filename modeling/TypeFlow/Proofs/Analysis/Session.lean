import TypeFlow.Analysis.Evict
import TypeFlow.Proofs.Analysis.Ending

/-!
# Sessions

A session is a new analysis and whatever is asked of it, in any order. Between
two requests everything is valid, every duty that there is a reason for waits
or is done, and no notice waits. A run leaves nothing waiting at all.
-/

namespace TypeFlow

namespace Analysis

/-- What is asked of an analysis that is driven from its entry points. -/
inductive Command where
  | entry (m : QualifiedMethod)
  | seed (m : QualifiedMethod) (index : Nat) (t : ExactType)
  | world (w : World)
  | evict (names : List ClassName)
  | settle

/-- What may be asked of an analysis; nodes that are not there are refused. -/
inductive Op where
  | command (c : Command)
  | linkClass (name : ClassName)
  | linkMethod (m : QualifiedMethod)
  | linkField (f : QualifiedField)
  | newNode
  | aggregate (t : DeclType)
  | addType (n : NodeId) (t : ExactType)
  | connect (source target : NodeId)
  | observe (n : NodeId) (label : String)
  | takeObservations

/-- An entry point or a parameter that is refused leaves what was linked for it. -/
def command (s : Analysis) : Command → Analysis
  | .entry m => (s.addEntry m).2
  | .seed m index t =>
    match s.seedParam m index t with
    | .ok s => s
    | .error _ => s
  | .world w => s.setWorld w
  | .evict names => (s.evict names).2
  | .settle => s.settle

def apply (s : Analysis) : Op → Analysis
  | .command c => s.command c
  | .linkClass name => (s.linkClass name).2
  | .linkMethod m => (s.linkMethod m).2
  | .linkField f => (s.linkField f).2
  | .newNode => s.newNode.2
  | .aggregate t => (s.aggregate t).2
  | .addType n t => if s.graph.hasNode n then s.addType n t else s
  | .connect source target =>
    if s.graph.hasNode source && s.graph.hasNode target then s.connect source target else s
  | .observe n label => if s.graph.hasNode n then s.observe n label else s
  | .takeObservations => s.takeObservations.2

def after (s : Analysis) (commands : List Command) : Analysis := commands.foldl command s

def history (s : Analysis) (ops : List Op) : Analysis := ops.foldl apply s

structure Sound (s : Analysis) : Prop where
  valid : s.Valid
  covered : s.Covered []
  calm : s.Calm

variable {w : Actor} {s s' : Analysis}

theorem Sound.moves (h : s.Sound) (hm : Moves w s [] s' []) (hc : s'.Calm) : s'.Sound ∧ s'.settings = s.settings :=
  ⟨⟨hm.valid h.valid, hm.covered h.covered, hc⟩, hm.grows.settings⟩

/-! ## The beginning -/

def blank (settings : Settings) (h : Hierarchy) (entries : Table QualifiedMethod (List (Nat × ExactType)))
    (reseed : Bool) (generation : Nat) (observations : List (String × ExactType)) : Analysis :=
  { settings, hierarchy := h, graph := initialGraph, listeners := #[.aggregation], entries, reseed, generation,
    observations }

theorem held_initialGraph (n : NodeId) : initialGraph.held n = [] := by
  unfold initialGraph
  rw [FlowGraph.held_listen, FlowGraph.held_newNode]
  rfl

theorem mem_listeners_initialGraph {n : NodeId} {l : ListenerId} :
    l ∈ initialGraph.listeners n ↔ n = root ∧ l = aggregationListener := by
  unfold initialGraph
  rw [FlowGraph.mem_listeners_listen (Nat.lt_succ_self 0), FlowGraph.listeners_newNode]
  refine ⟨fun h => h.resolve_left fun h => ?_, Or.inr⟩
  cases h

theorem valid_initialGraph : initialGraph.Valid := by
  have hempty : ({} : FlowGraph).Valid :=
    ⟨fun h => (nomatch h), fun h => (nomatch h), fun h => (nomatch h), fun _ h => (nomatch h)⟩
  exact hempty.newNode.listen

theorem sound_blank (settings : Settings) {h : Hierarchy} (hc : h.Coherent)
    (entries : Table QualifiedMethod (List (Nat × ExactType))) (reseed : Bool) (generation : Nat)
    (observations : List (String × ExactType)) :
    (blank settings h entries reseed generation observations).Sound where
  valid :=
    { hierarchy := hc
      graph := valid_initialGraph
      methods := ⟨nofun, nofun, nofun⟩
      nodes := ⟨⟨Nat.lt_succ_self 0, nofun⟩, nofun, nofun, nofun⟩
      selectors := ⟨nofun, nofun, nofun⟩
      listeners := by
        refine ⟨fun hl => ?_, mem_listeners_initialGraph.2 ⟨rfl, rfl⟩, rfl⟩
        obtain ⟨rfl, rfl⟩ := mem_listeners_initialGraph.1 hl
        exact ⟨.aggregation, rfl, rfl⟩
      queues := ⟨nofun, nofun, List.nodup_nil⟩ }
  covered d ho := by
    cases d with
    | notice d =>
      obtain ⟨n, _, ht⟩ := ho
      have ht' : d.type ∈ initialGraph.held n := ht
      rw [held_initialGraph] at ht'
      cases ht'
    | task t =>
      cases t with
      | wire t n => cases ho
      | attach id owner =>
        obtain ⟨declared, hd, _⟩ := ho
        cases hd
    | body id => cases ho
    | link m =>
      obtain ⟨id, sel, hs, _⟩ := ho
      cases hs
    | join site m =>
      obtain ⟨id, sel, hs, _⟩ := ho
      cases hs
    | pool key => cases ho
    | prepare name =>
      obtain ⟨r, hr, _⟩ := ho
      cases hr
  calm := rfl

theorem sound_new (w : World) (settings : Settings) : (Analysis.new w settings).Sound :=
  sound_blank settings (Hierarchy.coherent_new w) ∅ false 0 []

/-! ## Between two requests -/

theorem Sound.setWorld (h : s.Sound) (w : World) : (s.setWorld w).Sound := by
  have hgrows : s.Grows (s.setWorld w) := .withHierarchy s (s.hierarchy.retains_setWorld w)
  refine ⟨h.valid.aside hgrows (Hierarchy.coherent_setWorld h.valid.hierarchy w) rfl rfl rfl rfl rfl rfl rfl rfl
    (List.Subset.refl _) (List.Sublist.refl _), ?_, h.calm⟩
  exact h.covered.aside hgrows rfl rfl rfl rfl rfl rfl rfl rfl rfl

theorem Sound.evict (h : s.Sound) (names : List ClassName) : (s.evict names).2.Sound :=
  sound_blank s.settings (Hierarchy.coherent_evict h.valid.hierarchy _) s.entries true
    (s.generation + 1) s.observations

theorem Sound.settle (h : s.Sound) : s.settle.Sound ∧ s.settle.settings = s.settings :=
  h.moves (moves_settle h.valid h.covered) (calm_settle h.calm)

/-- A command moves the analysis, gives it a new world or makes it begin anew. -/
theorem Sound.command_cases (h : s.Sound) (c : Command) : Moves .driver s [] (s.command c) [] ∨
    (∃ w, c = .world w) ∨ ∃ names, c = .evict names := by
  cases c with
  | entry m => exact Or.inl (moves_addEntry h.valid m [])
  | seed m index t =>
    simp only [Analysis.command]
    split
    · next hok => exact Or.inl (moves_seedParam h.valid hok [])
    · exact Or.inl (.refl s [])
  | world w => exact Or.inr (Or.inl ⟨w, rfl⟩)
  | evict names => exact Or.inr (Or.inr ⟨names, rfl⟩)
  | settle => exact Or.inl (moves_settle h.valid h.covered)

theorem calm_command (h : s.Calm) (c : Command) : (s.command c).Calm := by
  cases c with
  | entry m => exact calm_addEntry h m
  | seed m index t =>
    simp only [Analysis.command]
    split
    · next hok => exact calm_seedParam hok
    · exact h
  | world w => exact h
  | evict names => rfl
  | settle => exact calm_settle h

theorem Sound.command (h : s.Sound) (c : Command) : (s.command c).Sound ∧ (s.command c).settings = s.settings := by
  rcases h.command_cases c with hm | ⟨w, rfl⟩ | ⟨names, rfl⟩
  · exact h.moves hm (calm_command h.calm c)
  · exact ⟨h.setWorld w, rfl⟩
  · exact ⟨h.evict names, rfl⟩

/-- Whatever is asked is a command, or moves the analysis as users of the graph do. -/
theorem Sound.apply_cases (h : s.Sound) (op : Op) :
    Moves .client s [] (s.apply op) [] ∨ ∃ c, op = .command c := by
  have hv := h.valid
  cases op with
  | command c => exact Or.inr ⟨c, rfl⟩
  | linkClass name => exact Or.inl (moves_linkClass s [] name)
  | linkMethod m => exact Or.inl (moves_linkMethod hv [] m).1
  | linkField f => exact Or.inl (moves_linkField hv [] f).1
  | newNode => exact Or.inl (Step.newNode s [] rfl).moves
  | aggregate t => exact Or.inl (moves_aggregate (Or.inl rfl) []).1
  | addType n t =>
    simp only [Analysis.apply]
    split
    · next hn =>
      have hstep : Moves .client s [] (s.withType t [n]) [] := (Step.addType rfl (FlowGraph.hasNode_iff.1 hn)).moves
      exact Or.inl (hstep.trans (moves_drain (hstep.valid hv) []))
    · exact Or.inl (.refl s [])
  | connect source target =>
    simp only [Analysis.apply]
    split
    · next hn =>
      rw [Bool.and_eq_true] at hn
      exact Or.inl (moves_connect hv (FlowGraph.hasNode_iff.1 hn.1)
        (FlowGraph.hasNode_iff.1 hn.2) (Or.inl rfl) []).1
    · exact Or.inl (.refl s [])
  | observe n label =>
    simp only [Analysis.apply]
    split
    · next hn =>
      have hstep : Moves .client s [] { s with
          graph := s.graph.listen n s.listeners.size
          listeners := s.listeners.push (.observer label) } [] :=
        (Step.observe rfl (FlowGraph.hasNode_iff.1 hn)).moves
      exact Or.inl (hstep.trans (moves_drain (hstep.valid hv) []))
    · exact Or.inl (.refl s [])
  | takeObservations => exact Or.inl (Step.note rfl [] fun _ => rfl).moves

theorem calm_apply (h : s.Calm) (op : Op) : (s.apply op).Calm := by
  cases op with
  | command c => exact calm_command h c
  | linkClass name => exact h.quiet (quiet_linkClass s name)
  | linkMethod m => exact h.quiet (quiet_linkMethod s m)
  | linkField f => exact h.quiet (quiet_linkField s f)
  | newNode => exact h
  | aggregate t => exact h.quiet (quiet_aggregate s t)
  | addType n t =>
    simp only [Analysis.apply]
    split
    · exact pending_drain _
    · exact h
  | connect source target =>
    simp only [Analysis.apply]
    split
    · exact calm_connect s source target
    · exact h
  | observe n label =>
    simp only [Analysis.apply]
    split
    · exact pending_drain _
    · exact h
  | takeObservations => exact h

theorem Sound.apply (h : s.Sound) (op : Op) : (s.apply op).Sound ∧ (s.apply op).settings = s.settings := by
  rcases h.apply_cases op with hm | ⟨c, rfl⟩
  · exact h.moves hm (calm_apply h.calm op)
  · exact h.command c

theorem Sound.after (h : s.Sound) (commands : List Command) : (s.after commands).Sound := by
  induction commands generalizing s with
  | nil => exact h
  | cons c commands ih => exact ih (h.command c).1

theorem Sound.history (h : s.Sound) (ops : List Op) :
    (s.history ops).Sound ∧ (s.history ops).settings = s.settings := by
  induction ops generalizing s with
  | nil => exact ⟨h, rfl⟩
  | cons op ops ih =>
    obtain ⟨hop, hsettings⟩ := h.apply op
    obtain ⟨hops, hlater⟩ := ih hop
    exact ⟨hops, hlater.trans hsettings⟩

/-- What moves, new worlds and new beginnings keep holds after whatever was asked. -/
theorem Sound.history_invariant {P : Analysis → Prop}
    (hmoves : ∀ {w s s'}, s.Sound → Moves w s [] s' [] → P s → P s')
    (hworld : ∀ {s : Analysis} (w : World), P s → P (s.setWorld w))
    (hevict : ∀ {s : Analysis} (names : List ClassName), P s → P (s.evict names).2) (h : s.Sound) (hp : P s)
    (ops : List Op) : P (s.history ops) := by
  induction ops generalizing s with
  | nil => exact hp
  | cons op ops ih =>
    refine ih (h.apply op).1 ?_
    rcases h.apply_cases op with hm | ⟨c, rfl⟩
    · exact hmoves h hm hp
    · rcases h.command_cases c with hm | ⟨w, rfl⟩ | ⟨names, rfl⟩
      · exact hmoves h hm hp
      · exact hworld w hp
      · exact hevict names hp

/-- What relates an analysis to whatever it moves to, and to itself in a new world, relates it to whatever becomes
of it before the next eviction. -/
theorem Sound.history_related {R : Analysis → Analysis → Prop} (hrefl : ∀ s, R s s)
    (htrans : ∀ {s s' s''}, R s s' → R s' s'' → R s s'') (hmoves : ∀ {w s s'}, Moves w s [] s' [] → R s s')
    (hworld : ∀ (s : Analysis) (w : World), R s (s.setWorld w)) (h : s.Sound) {ops : List Op}
    (hops : ∀ names, .command (.evict names) ∉ ops) : R s (s.history ops) := by
  induction ops generalizing s with
  | nil => exact hrefl s
  | cons op ops ih =>
    have hlater := ih (h.apply op).1 fun names hmem => hops names (List.mem_cons_of_mem _ hmem)
    refine htrans ?_ hlater
    rcases h.apply_cases op with hm | ⟨c, rfl⟩
    · exact hmoves hm
    · rcases h.command_cases c with hm | ⟨w, rfl⟩ | ⟨names, rfl⟩
      · exact hmoves hm
      · exact hworld s w
      · exact absurd List.mem_cons_self (hops names)

theorem Sound.history_grows (h : s.Sound) {ops : List Op} (hops : ∀ names, .command (.evict names) ∉ ops) :
    s.Grows (s.history ops) :=
  h.history_related .refl (fun h h' => h.trans h') Moves.grows
    (fun s w => .withHierarchy s (s.hierarchy.retains_setWorld w)) hops

/-! ## Runs settle -/

theorem Step.reseed_eq {γ γ' : List Duty} (h : Step w s γ s' γ') (hs : s.reseed = false) : s'.reseed = false := by
  cases h with
  | linkClass name =>
    obtain ⟨h, c, p, heq, _⟩ := s.linkClass_frame name
    rw [heq]
    exact hs
  | aggregate ht =>
    rw [aggregate_of_none ht]
    exact hs
  | pool hk =>
    rw [poolNode_of_none hk]
    exact hs
  | reseed => rfl
  | _ => exact hs

theorem Moves.reseed_eq {γ γ' : List Duty} (h : Moves w s γ s' γ') (hs : s.reseed = false) : s'.reseed = false :=
  h.invariant (P := fun s _ => s.reseed = false) Step.reseed_eq hs

theorem reseed_reseedEntries (hv : s.Valid) : s.reseedEntries.reseed = false := by
  unfold reseedEntries
  split
  · have htaken := (moves_takeEntries s []).valid hv
    exact (moves_foldl_reseedEntry htaken s.entries.entries []).reseed_eq rfl
  · next h => exact Bool.eq_false_iff.2 h

theorem isSettled_settle (h : s.Sound) : s.settle.isSettled := by
  have hreseed := moves_reseedEntries h.valid []
  have hv := hreseed.valid h.valid
  have hc := hreseed.covered h.covered
  obtain ⟨hworklist, hdeferred⟩ := settled_waves hv hc
  have hflag : s.settle.reseed = false :=
    (moves_runWaves (w := .driver) nofun hv hc _ _).reseed_eq (reseed_reseedEntries h.valid)
  have hpending : s.settle.graph.pending = [] := calm_settle h.calm
  simp only [isSettled, Bool.and_eq_true, Bool.not_eq_true', List.isEmpty_iff]
  exact ⟨⟨⟨hflag, hworklist⟩, hdeferred⟩, hpending⟩

end Analysis

end TypeFlow
