import TypeFlow.Analysis.Result
import TypeFlow.Proofs.Analysis.Fixpoint
import TypeFlow.Proofs.Strict.Run

/-!
# Strict sessions

A strict session finds all that it looks up, and ends where the analysis
ends, as long as its requests name only nodes that are there. An eviction
takes the nodes away: what was a node before need not be one afterwards.
-/

namespace TypeFlow

open Analysis

namespace Analysis

def Op.handles : Op → List NodeId
  | .addType n _ => [n]
  | .connect source target => [source, target]
  | .observe n _ => [n]
  | _ => []

/-- Whether a request leaves in place what was told and noted before it. -/
def Op.keeps : Op → Bool
  | .command (.evict _) => false
  | .takeObservations => false
  | _ => true

/-- Whether requests name only nodes that are there when they are asked. -/
def Proper (s : Analysis) : List Op → Prop
  | [] => True
  | op :: ops => (∀ n ∈ op.handles, n < s.graph.nodes.size) ∧ (s.apply op).Proper ops

instance decidableProper : (s : Analysis) → (ops : List Op) → Decidable (s.Proper ops)
  | _, [] => inferInstanceAs (Decidable True)
  | s, op :: ops =>
    have := decidableProper (s.apply op) ops
    inferInstanceAs (Decidable ((∀ n ∈ op.handles, n < s.graph.nodes.size) ∧ (s.apply op).Proper ops))

theorem Proper.append {s : Analysis} {ops later : List Op} (h : s.Proper (ops ++ later)) :
    s.Proper ops ∧ (s.history ops).Proper later := by
  induction ops generalizing s with
  | nil => exact ⟨trivial, h⟩
  | cons op ops ih =>
    obtain ⟨hops, hlater⟩ := ih h.2
    exact ⟨⟨h.1, hops⟩, hlater⟩

end Analysis

namespace Strict

variable {s : Analysis} {told : List Notice}

/-! ## Requests -/

theorem gives_command (h : s.Sound) {c : Command} (hc : ∀ names, c ≠ .evict names) :
    Gives false (command c) s () (s.command c) := by
  cases c with
  | entry m => exact (gives_addEntry h.valid m).bind (.pure ())
  | seed m index t => exact (gives_seedParam h.valid m index t).bind (.pure ())
  | world w => exact gives_note (f := fun s => s.setWorld w) rfl rfl rfl
  | evict names => exact absurd rfl (hc names)
  | settle => exact gives_settle h

theorem gives_apply (h : s.Sound) {op : Op} (hn : ∀ n ∈ op.handles, n < s.graph.nodes.size) (hk : op.keeps = true) :
    Gives false (apply op) s () (s.apply op) := by
  have hv := h.valid
  cases op with
  | command c =>
    refine gives_command h fun names he => ?_
    rw [he] at hk
    cases hk
  | linkClass name => exact gives_change (f := fun s => (s.linkClass name).2) (quiet_linkClass s name)
  | linkMethod m => exact gives_change (f := fun s => (s.linkMethod m).2) (quiet_linkMethod s m)
  | linkField f => exact gives_change (f := fun s => (s.linkField f).2) (quiet_linkField s f)
  | newNode => exact gives_change (f := fun s => s.newNode.2) (.aside s.graph.quiet_newNode rfl rfl)
  | aggregate t => exact gives_change (f := fun s => (s.aggregate t).2) (quiet_aggregate s t)
  | addType n t =>
    have hn := hn n List.mem_cons_self
    simp only [Analysis.apply, FlowGraph.hasNode_iff.2 hn, if_true]
    exact gives_addType hv hn t
  | connect source target =>
    have hsource := hn source List.mem_cons_self
    have htarget := hn target (List.mem_cons_of_mem _ List.mem_cons_self)
    simp only [Analysis.apply, FlowGraph.hasNode_iff.2 hsource,
      FlowGraph.hasNode_iff.2 htarget, Bool.and_self, if_true]
    exact gives_connect hv hsource htarget
  | observe n label =>
    have hn := hn n List.mem_cons_self
    simp only [Analysis.apply, FlowGraph.hasNode_iff.2 hn, if_true]
    exact gives_observe hv hn label
  | takeObservations => cases hk

theorem gives_history (h : s.Sound) {ops : List Op} (hops : s.Proper ops) (hk : ∀ op ∈ ops, op.keeps = true) :
    Gives false (ops.forM apply) s () (s.history ops) := by
  induction ops generalizing s with
  | nil => exact .pure ()
  | cons op ops ih =>
    have hlater := ih (h.apply op).1 hops.2 fun op hop => hk op (List.mem_cons_of_mem _ hop)
    exact (gives_apply h hops.1 (hk op List.mem_cons_self)).bind hlater

/-! ## Generations

A generation starts with one listener, and nobody was told anything. -/

theorem accounts_initialGraph : FlowGraph.Accounts ([] ++ initialGraph.pending) initialGraph := by
  have hnode : FlowGraph.Accounts ([] ++ ({} : FlowGraph).newNode.2.pending) ({} : FlowGraph).newNode.2 :=
    FlowGraph.Accounts.empty.aside (FlowGraph.held_newNode {}) (FlowGraph.listeners_newNode {})
  exact hnode.listen

theorem start_eq (h : s.graph = initialGraph) : start s = some { state := s } := by
  have hlisten : ({} : FlowGraph).newNode.2.strictListen root aggregationListener = some initialGraph :=
    FlowGraph.strictListen_eq (Nat.lt_succ_self 0) _
  unfold start
  rw [hlisten, ← h]
  rfl

theorem evict_eq (names : List ClassName) (x : Session) :
    evict names x = some ((), { state := (x.state.evict names).2 }) := by
  unfold evict
  rw [start_eq rfl]
  rfl

/-! ## Sessions -/

theorem apply_gives (h : s.Sound) {op : Op} (hn : ∀ n ∈ op.handles, n < s.graph.nodes.size)
    (ha : FlowGraph.Accounts (told ++ s.graph.pending) s.graph) :
    ∃ told', apply op ⟨s, false, told⟩ = some ((), ⟨s.apply op, false, told'⟩) ∧
      FlowGraph.Accounts (told' ++ (s.apply op).graph.pending) (s.apply op).graph := by
  by_cases hk : op.keeps = true
  · obtain ⟨news, hrun, hkept⟩ := gives_apply h hn hk told s.observations [] (.start ha)
    rw [List.append_nil] at hrun
    exact ⟨told ++ news, hrun, hkept.accounts⟩
  · cases op with
    | command c =>
      cases c with
      | evict names => exact ⟨[], evict_eq names _, accounts_initialGraph⟩
      | _ => exact absurd rfl hk
    | takeObservations => exact ⟨told, rfl, ha⟩
    | _ => exact absurd rfl hk

theorem history_gives (h : s.Sound) {ops : List Op} (hops : s.Proper ops)
    (ha : FlowGraph.Accounts (told ++ s.graph.pending) s.graph) :
    ∃ told', ops.forM apply ⟨s, false, told⟩ = some ((), ⟨s.history ops, false, told'⟩) ∧
      FlowGraph.Accounts (told' ++ (s.history ops).graph.pending) (s.history ops).graph := by
  induction ops generalizing s told with
  | nil => exact ⟨told, rfl, ha⟩
  | cons op ops ih =>
    obtain ⟨told₁, hrun, h₁⟩ := apply_gives h hops.1 ha
    obtain ⟨told₂, hrest, h₂⟩ := ih (h.apply op).1 hops.2 h₁
    refine ⟨told₂, ?_, h₂⟩
    show (apply op >>= fun _ => ops.forM apply) ⟨s, false, told⟩ = _
    rw [bind_eq, hrun]
    exact hrest

theorem session_eq (w : World) (settings : Settings) (ops : List Op) :
    session w settings ops = (ops.forM apply { state := Analysis.new w settings }).map Prod.snd := by
  unfold session
  rw [start_eq rfl]
  show (ops.forM apply { state := Analysis.new w settings }).bind (fun p => some p.2) = _
  cases ops.forM apply { state := Analysis.new w settings } <;> rfl

theorem session_append (w : World) (settings : Settings) (ops later : List Op) :
    session w settings (ops ++ later) = (session w settings ops).bind fun x =>
      (later.forM apply x).map Prod.snd := by
  have happend : (ops ++ later).forM apply = ops.forM apply >>= fun _ => later.forM apply := List.forM_append
  rw [session_eq, session_eq, happend, bind_eq]
  cases ops.forM apply { state := Analysis.new w settings } <;> rfl

/-- The session is there, ends where the analysis ends, and has told every meeting of a listener and a type that is
not still to be told. -/
theorem exists_session (w : World) (settings : Settings) {ops : List Op}
    (hops : (Analysis.new w settings).Proper ops) :
    ∃ told, session w settings ops = some ⟨(Analysis.new w settings).history ops, false, told⟩ ∧
      FlowGraph.Accounts (told ++ ((Analysis.new w settings).history ops).graph.pending)
        ((Analysis.new w settings).history ops).graph := by
  obtain ⟨told, hrun, ha⟩ := history_gives (sound_new w settings) hops accounts_initialGraph
  refine ⟨told, ?_, ha⟩
  rw [session_eq, hrun]
  rfl

/-! ## Results -/

theorem mapM_of_isSome {α β : Type} {f : α → Option β} {l : List α} (h : ∀ a ∈ l, ∃ b, f a = some b) :
    l.mapM f = some (l.filterMap f) := by
  induction l with
  | nil => rfl
  | cons a l ih =>
    obtain ⟨b, hb⟩ := h a List.mem_cons_self
    rw [List.mapM_cons, ih fun a ha => h a (List.mem_cons_of_mem _ ha), List.filterMap_cons_some hb]
    simp [hb]

theorem Gives.reads {α : Type} {x : Strict α} {a : α} {s' : Analysis} (h : Gives false x s a s')
    (ha : FlowGraph.Accounts (told ++ s.graph.pending) s.graph) : x.run' ⟨s, false, told⟩ = some a := by
  obtain ⟨news, hrun, -⟩ := h told s.observations [] (.start ha)
  rw [List.append_nil] at hrun
  show (x ⟨s, false, told⟩).map Prod.fst = some a
  rw [hrun]
  rfl

theorem gives_typesAt (hv : s.graph.Valid) (n : NodeId) : Gives false (typesAt n) s (s.graph.typesAt n) s :=
  gives_find (mapM_of_isSome fun _ hi => FlowGraph.exists_type? (hv.held hi))

theorem gives_typesOfLocal (hv : s.Valid) (m : QualifiedMethod) (v : Local) :
    Gives false (typesOfLocal m v) s (s.typesOfLocal m v) s := by
  unfold typesOfLocal Analysis.typesOfLocal method?
  refine (gives_look _).bind ?_
  cases hid : s.methodId? m with
  | none => exact .pure []
  | some id =>
    obtain ⟨r, hr, -⟩ := hv.methods.names_of_methodId? hid
    refine (gives_find hr).bind ?_
    simp only [Option.bind_some, hr]
    cases r.locals[v]? with
    | none => exact .pure []
    | some n => exact gives_typesAt hv.graph n

theorem gives_callTargets (hv : s.Valid) (hc : s.CallsInBounds) (m : QualifiedMethod) (receiver : Local)
    (sig : Signature) : Gives false (callTargets m receiver sig) s (s.callTargets m receiver sig) s := by
  unfold callTargets Analysis.callTargets method?
  refine (gives_look _).bind ?_
  cases hid : s.methodId? m with
  | none => exact .pure []
  | some id =>
    obtain ⟨r, hr, -⟩ := hv.methods.names_of_methodId? hid
    have hsels : (r.selectorsAt ⟨receiver, sig⟩).mapM (fun id => s.selectors[id]?) =
        some ((r.selectorsAt ⟨receiver, sig⟩).filterMap fun id => s.selectors[id]?) :=
      mapM_of_isSome fun id hid => ⟨_, Array.getElem?_eq_getElem (hc.calls hr hid)⟩
    have htargets :
        (OrderedSet.ofList (((r.selectorsAt ⟨receiver, sig⟩).filterMap fun id => s.selectors[id]?).flatMap
          fun sel => sel.targets.toList)).toList = s.targetsAt r ⟨receiver, sig⟩ := by
      unfold targetsAt
      rw [List.filterMap_eq_flatMap_toList, List.flatMap_assoc]
      congr 3
      funext id
      cases s.selectors[id]? <;> simp
    refine (gives_find hr).bind ((gives_find hsels).bind ?_)
    simp only [Option.bind_some, hr, htargets]
    exact .pure _

end Strict

namespace Analysis

/-- Whatever is asked of a new analysis, of nodes that are there when it is asked, each number that is kept is that
of something. So nothing that is looked up on the way is missing, nor anything that is read afterwards. -/
theorem in_bounds_history (w : World) (settings : Settings) (ops : List Op) (hops : (new w settings).Proper ops) :
    ((new w settings).history ops).InBounds ∧
    ∃ x, Strict.session w settings ops = some x ∧ x.state = (new w settings).history ops ∧
      (∀ n, (Strict.typesAt n).run' x = some (x.state.graph.typesAt n)) ∧
      (∀ m v, (Strict.typesOfLocal m v).run' x = some (x.state.typesOfLocal m v)) ∧
      ∀ m receiver sig, (Strict.callTargets m receiver sig).run' x = some (x.state.callTargets m receiver sig) := by
  have hsound := ((sound_new w settings).history ops).1
  have hcalls := (sound_new w settings).callsInBounds_history (callsInBounds_blank settings _ ∅ false 0 []) ops
  obtain ⟨told, hrun, ha⟩ := Strict.exists_session w settings hops
  refine ⟨hsound.valid.inBounds hcalls, _, hrun, rfl, fun n => ?_, fun m v => ?_, fun m receiver sig => ?_⟩
  · exact (Strict.gives_typesAt hsound.valid.graph n).reads ha
  · exact (Strict.gives_typesOfLocal hsound.valid m v).reads ha
  · exact (Strict.gives_callTargets hsound.valid hcalls m receiver sig).reads ha

/-! A client watches a node of its own and, once the first generation is gone, the root of the next one. -/

def sampleClient : List Op :=
  [.newNode, .observe 1 "own", .command (.entry sampleMain), .command .settle, .connect root 1,
    .command (.evict ["A"]), .observe root "root", .command .settle]

theorem in_bounds_history_sampleClient : (new sampleWorld {}).Proper sampleClient ∧
    ((new sampleWorld {}).history sampleClient).InBounds := by
  have hops : (new sampleWorld {}).Proper sampleClient := by decide +kernel
  exact ⟨hops, (in_bounds_history sampleWorld {} sampleClient hops).1⟩

end Analysis

end TypeFlow
