import TypeFlow.Proofs.Analysis.Aggregation
import TypeFlow.Proofs.Strict.Session

/-!
# The drained queue

Between two requests no notice waits and nobody serves. So what the listeners
were told by then is all that their nodes hold. An observer listens at one
node only: it was told the types of that node, each once and in the order of
their arrival.
-/

namespace TypeFlow

open Analysis

namespace Analysis

variable {w : Actor} {s s' : Analysis} {γ γ' : List Duty}

/-! ## Observers -/

def Single (s : Analysis) : Prop :=
  ∀ {l : Nat} {label n m}, s.listeners[l]? = some (.observer label) → l ∈ s.graph.listeners n →
    l ∈ s.graph.listeners m → n = m

/-- Who listens after a step did so before, or is a selector, or has just been registered for this node alone. -/
theorem Step.listening (h : Step w s γ s' γ') (hv : s.Valid) {l n : Nat} (hl : l ∈ s'.graph.listeners n) :
    l ∈ s.graph.listeners n ∨ (∃ id, s'.listeners[l]? = some (.selector id)) ∨
      ∀ m, l ∈ s'.graph.listeners m → m = n := by
  cases h with
  | linkClass name =>
    rw [graph_linkClass] at hl
    exact Or.inl hl
  | recordMethod hm hd hf hc =>
    rw [recordMethod_eq] at hl
    simp only [FlowGraph.listeners_newNode, FlowGraph.listeners_newNodes] at hl
    exact Or.inl hl
  | newField hf hr hd hs hc => exact Or.inl (FlowGraph.listeners_newNode _ _ ▸ hl)
  | aggregate ht ha =>
    rw [aggregate_of_none ht] at hl
    exact Or.inl (FlowGraph.listeners_newNode _ _ ▸ hl)
  | pool hk =>
    rw [poolNode_of_none hk] at hl
    exact Or.inl (FlowGraph.listeners_newNode _ _ ▸ hl)
  | connect ha hb hk => exact Or.inl (FlowGraph.listeners_connect _ _ _ _ ▸ hl)
  | @instantiate k t hn hk hb =>
    have hsame := (FlowGraph.listeners_addAll _ [k, root] (s.graph.intern t).1 n).trans
      (s.graph.listeners_intern t n)
    exact Or.inl (hsame ▸ hl)
  | gather hi ht hn => exact Or.inl (FlowGraph.listeners_add _ _ _ _ ▸ hl)
  | @newPerSite caller receiver declared r hk hp hb hr hpr =>
    cases hlocal : r.locals[receiver]? with
    | none =>
      simp only [hlocal] at hl
      exact Or.inl hl
    | some k =>
      simp only [hlocal] at hl
      rcases (FlowGraph.mem_listeners_listen ((hv.methods.record hr).locals hlocal).1).1 hl with hl | ⟨rfl, rfl⟩
      · exact Or.inl hl
      · exact Or.inr (Or.inl ⟨_, Array.getElem?_push_size⟩)
  | @attach declared id sel k hk hs hn =>
    obtain ⟨sel', hsel', hvs⟩ := hv.selectors.selector hk
    obtain rfl : sel' = sel := Option.some.inj (hsel'.symm.trans hs)
    rcases (FlowGraph.mem_listeners_listen (hv.aggregate?_lt hn)).1 hl with hl | ⟨rfl, rfl⟩
    · exact Or.inl hl
    · exact Or.inr (Or.inl ⟨id, hvs.listener⟩)
  | takeNotice hg =>
    obtain ⟨rest, -, rfl⟩ := FlowGraph.takeNotice_some hg
    exact Or.inl hl
  | openBody hr hp hlocals hw => exact Or.inl (FlowGraph.listeners_newNodes _ _ _ ▸ hl)
  | newNode hw => exact Or.inl (FlowGraph.listeners_newNode _ _ ▸ hl)
  | @addType k t hw hn =>
    have hsame := (FlowGraph.listeners_addAll _ [k] (s.graph.intern t).1 n).trans (s.graph.listeners_intern t n)
    exact Or.inl (hsame ▸ hl)
  | @observe k label hw hn =>
    rcases (FlowGraph.mem_listeners_listen hn).1 hl with hold | ⟨rfl, rfl⟩
    · exact Or.inl hold
    · refine Or.inr (Or.inr fun m hm => ?_)
      rcases (FlowGraph.mem_listeners_listen hn).1 hm with hold | ⟨rfl, -⟩
      · obtain ⟨x, hx, -⟩ := hv.listeners.hears hold
        exact absurd (Array.getElem?_eq_some_iff.1 hx).1 (Nat.lt_irrefl _)
      · rfl
  | _ => exact Or.inl hl

theorem Step.single (h : Step w s γ s' γ') (hv : s.Valid) (hs : s.Single) : s'.Single := by
  intro l label n m hx hn hm
  have hselector : ¬ ∃ id, s'.listeners[l]? = some (.selector id) := by
    rintro ⟨id, hid⟩
    cases hx.symm.trans hid
  rcases h.listening hv hn with hn' | hn' | hn'
  · rcases h.listening hv hm with hm' | hm' | hm'
    · obtain ⟨y, hy, -⟩ := hv.listeners.hears hn'
      obtain rfl : .observer label = y := Option.some.inj (hx.symm.trans (h.grows.listener hy))
      exact hs hy hn' hm'
    · exact absurd hm' hselector
    · exact hm' n hn
  · exact absurd hn' hselector
  · exact (hn' m hm).symm

theorem Moves.single (h : Moves w s γ s' γ') (hv : s.Valid) (hs : s.Single) : s'.Single :=
  (h.invariant (P := fun s _ => s.Valid ∧ s.Single) (fun hstep hp => ⟨hstep.valid hp.1, hstep.single hp.1 hp.2⟩)
    ⟨hv, hs⟩).2

theorem single_blank (settings : Settings) (h : Hierarchy)
    (entries : Table QualifiedMethod (List (Nat × ExactType)))
    (reseed : Bool) (generation : Nat) (observations : List (String × ExactType)) :
    (blank settings h entries reseed generation observations).Single := by
  intro l label n m _ hn hm
  exact (mem_listeners_initialGraph.1 hn).1.trans (mem_listeners_initialGraph.1 hm).1.symm

theorem single_history (w : World) (settings : Settings) (ops : List Op) :
    ((new w settings).history ops).Single :=
  (sound_new w settings).history_invariant (P := Single) (fun h hm hs => hm.single h.valid hs) (fun _ hs => hs)
    (fun _ _ => single_blank _ _ _ _ _ _) (single_blank _ _ _ _ _ _) ops

/-- An observer stays registered until the next eviction. -/
theorem Sound.observing (h : s.Sound) {n : Nat} (hn : n < s.graph.nodes.size) (label : String) {later : List Op}
    (hlater : ∀ names, .command (.evict names) ∉ later) :
    ((s.apply (.observe n label)).history later).listeners[s.listeners.size]? = some (.observer label) ∧
      s.listeners.size ∈ ((s.apply (.observe n label)).history later).graph.listeners n := by
  have hstep : Moves .client s [] { s with
      listeners := s.listeners.push (.observer label)
      graph := s.graph.listen n s.listeners.size } [] := (Step.observe rfl hn).moves
  have hdrain := (moves_drain (w := .client) (hstep.valid h.valid) []).grows
  have happly : s.apply (.observe n label) = s.observe n label := by
    simp only [Analysis.apply, FlowGraph.hasNode_iff.2 hn, if_true]
  have hgrows := (h.apply (.observe n label)).1.history_grows hlater
  rw [happly] at hgrows ⊢
  have hall := hdrain.trans hgrows
  refine ⟨hall.listener Array.getElem?_push_size, hall.graph.mem_listeners ?_⟩
  exact (FlowGraph.mem_listeners_listen hn).2 (Or.inr ⟨rfl, rfl⟩)

end Analysis

/-! ## Between two requests -/

namespace Strict

variable {w : World} {settings : Settings}

structure Drained (w : World) (settings : Settings) (ops : List Op) (x : Session) : Prop where
  pending : x.state.graph.pending = []
  serving : x.serving = false
  /-- An observer of this generation was told each type of its node once, in the order of arrival. -/
  heard : ∀ {before n label later l}, ops = before ++ .observe n label :: later →
    (∀ names, .command (.evict names) ∉ later) → l = ((Analysis.new w settings).history before).listeners.size →
    x.state.listeners[l]? = some (.observer label) ∧ FlowGraph.heard x.told l = x.state.graph.held n ∧
      (x.state.graph.held n).Nodup
  /-- Observers noted what they were told, in the order in which they were told it. -/
  noted : ∀ {before later}, ops = before ++ later → (∀ op ∈ later, op.keeps = true) →
    ∃ y news, session w settings before = some y ∧ x.told = y.told ++ news ∧
      x.state.observations = y.state.observations ++ x.state.noted news
  gathered : ∀ t ∈ x.state.graph.typesAt root, ∃ n, x.state.aggregate? t.toDecl = some n ∧
    t ∈ x.state.graph.typesAt n
  settled : x.state.isSettled = false ↔ x.state.reseed = true ∨ x.state.worklist ≠ [] ∨ x.state.deferred ≠ []

theorem heard_of_observed {before later : List Op} {n : NodeId} {label : String} {told : List Notice}
    (hops : (Analysis.new w settings).Proper (before ++ .observe n label :: later))
    (hlater : ∀ names, .command (.evict names) ∉ later)
    (ha : FlowGraph.Accounts told ((Analysis.new w settings).history (before ++ .observe n label :: later)).graph) :
    ((Analysis.new w settings).history (before ++ .observe n label :: later)).listeners[
        ((Analysis.new w settings).history before).listeners.size]? = some (.observer label) ∧
      FlowGraph.heard told ((Analysis.new w settings).history before).listeners.size =
        ((Analysis.new w settings).history (before ++ .observe n label :: later)).graph.held n := by
  have hsound := ((sound_new w settings).history before).1
  have hn : n < ((Analysis.new w settings).history before).graph.nodes.size :=
    hops.append.2.1 n List.mem_cons_self
  have hsplit : (Analysis.new w settings).history (before ++ .observe n label :: later) =
      (((Analysis.new w settings).history before).apply (.observe n label)).history later := List.foldl_append
  obtain ⟨hlistener, hlistens⟩ := hsound.observing hn label hlater
  rw [← hsplit] at hlistener hlistens
  refine ⟨hlistener, ?_⟩
  have hheard := ha.order _ n fun m hm => single_history w settings _ hlistener hm hlistens
  rw [if_pos hlistens] at hheard
  exact hheard

theorem noted_of_kept {before later : List Op} {x : Session}
    (hops : (Analysis.new w settings).Proper (before ++ later))
    (hkeeps : ∀ op ∈ later, op.keeps = true) (hx : session w settings (before ++ later) = some x) :
    ∃ y news, session w settings before = some y ∧ x.told = y.told ++ news ∧
      x.state.observations = y.state.observations ++ x.state.noted news := by
  obtain ⟨hbefore, hlater⟩ := hops.append
  obtain ⟨told, hrun, ha⟩ := exists_session w settings hbefore
  have hsound := ((sound_new w settings).history before).1
  obtain ⟨news, hrest, hkept⟩ := gives_history hsound hlater hkeeps told _ [] (.start ha)
  rw [session_append, hrun, Option.bind_some] at hx
  rw [List.append_nil] at hrest
  rw [hrest] at hx
  cases hx
  exact ⟨_, news, hrun, rfl, hkept.noted⟩

end Strict

namespace Analysis

/-- After any requests that name nodes which are there, the session goes on from a drained queue. -/
theorem drained_history (w : World) (settings : Settings) (ops : List Op) (hops : (new w settings).Proper ops) :
    ∃ x, Strict.session w settings ops = some x ∧ x.state = (new w settings).history ops ∧
      Strict.Drained w settings ops x := by
  have hsound := ((sound_new w settings).history ops).1
  have hcalm : ((new w settings).history ops).graph.pending = [] := hsound.calm
  obtain ⟨told, hrun, ha⟩ := Strict.exists_session w settings hops
  rw [hcalm, List.append_nil] at ha
  refine ⟨_, hrun, rfl, hcalm, rfl, ?_, ?_, fun t ht => hsound.mem_typesAt_own_aggregate ht, ?_⟩
  · rintro before n label later l rfl hlater rfl
    obtain ⟨hlistener, hheard⟩ := Strict.heard_of_observed hops hlater ha
    exact ⟨hlistener, hheard, FlowGraph.nodup_held _ n⟩
  · rintro before later rfl hkeeps
    exact Strict.noted_of_kept hops hkeeps hrun
  · simp [isSettled, hcalm, imp_iff_not_or, or_assoc]

/-! Both observers of the client note the only type that there is, one in each generation. -/

theorem drained_history_sampleClient : (new sampleWorld {}).Proper sampleClient ∧
    ∃ x, Strict.session sampleWorld {} sampleClient = some x ∧ Strict.Drained sampleWorld {} sampleClient x ∧
      x.state.observations = [("own", .ofClass "A"), ("root", .ofClass "A")] := by
  have hops : (new sampleWorld {}).Proper sampleClient := by decide +kernel
  obtain ⟨x, hrun, hstate, hdrained⟩ := drained_history sampleWorld {} sampleClient hops
  refine ⟨hops, x, hrun, hdrained, ?_⟩
  rw [hstate]
  decide +kernel

end Analysis

end TypeFlow
