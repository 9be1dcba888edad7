import TypeFlow.Proofs.Analysis.Flow
import TypeFlow.Proofs.Solution.Link

/-!
# Grounded flow

Types that flow in a grounded analysis come from facts: from that of the edge
along which they came, at the last. The notices that they bring up link no
more than the rules allow.
-/

namespace TypeFlow

namespace Analysis

variable {w : World} {o : Settings} {K : Fact → Prop} {Γ Γ' : List Fact} {s s' : Analysis} {L : NodeId → Slot}
  {γ γ' : List Duty}

/-! ## The graph -/

/-- Along edges that come from facts, what a node holds goes on as a fact. -/
theorem carried (hK : w.catalog.Closed o K) {g : FlowGraph}
    (hflows : ∀ {a b : Nat}, b ∈ g.out a → K (.flow (L a) (L b))) {a b : NodeId} (h : g.Reaches a b) {t : ExactType}
    (ht : K (.holds (L a) t)) : K (.holds (L b) t) := by
  induction h with
  | refl => exact ht
  | tail _ hedge ih => exact hK.carry ih (hflows hedge)

theorem Grounded.connectEdge (h : Grounded w o K Γ s) (hK : w.catalog.Closed o K) {a b : Nat} {x y : Slot}
    (ha : s.StandsFor a x) (hb : s.StandsFor b y) (hf : K (.flow x y)) :
    Brings w o K Γ [.flow x y] s { s with graph := s.graph.connect a b } := by
  have hlt := h.valid.standsFor_lt ha
  have hstep : Step .client s [] { s with graph := s.graph.connect a b } [] :=
    .connect hlt (h.valid.standsFor_lt hb) (Or.inl rfl)
  have hleads := Leads.of_grows hstep.grows
  refine ⟨h.withGraph hstep fun {L} hL => ?_, hleads, fun φ hφ => ?_⟩
  · have hflows : ∀ {n m : Nat}, m ∈ (s.graph.connect a b).out n → K (.flow (L n) (L m)) := by
      intro n m hm
      rcases (FlowGraph.mem_out_connect hlt).1 hm with hm | ⟨-, rfl, rfl⟩
      · exact hL.flows hm
      · rwa [hL.only ha, hL.only hb]
    refine ⟨fun ht => ?_, hflows, FlowGraph.size_connect _ _ _⟩
    rcases FlowGraph.arrived_typesAt_connect ht with ht | ⟨ht, hreach⟩
    · exact hL.holds ht
    · exact carried hK hflows hreach (hL.holds ht)
  · rw [List.mem_singleton.1 hφ]
    exact ⟨a, b, hleads.grows.standsFor ha, hleads.grows.standsFor hb, FlowGraph.flows_connect hlt⟩

theorem Grounded.withType (h : Grounded w o K Γ s) (hK : w.catalog.Closed o K) {n : Nat} {x : Slot} {t : ExactType}
    (hn : s.StandsFor n x) (hx : K (.holds x t)) (hr : K (.holds .root t))
    (hc : ∀ name, t.element.className? = some name → name ∈ s.classes.keys) :
    Brings w o K Γ [.holds x t, .holds .root t] s (s.withType t [n, root]) := by
  have hlt := h.valid.standsFor_lt hn
  have hstep : Step .client s [] (s.withType t [n, root]) [] := .instantiate hlt (Or.inl rfl) nofun hc
  have hleads : s.Leads (s.withType t [n, root]) := .of_grows hstep.grows
  have hheld := (valid_withType h.valid t (lt_size_of_mem_pair h.valid hlt)).2
  refine ⟨h.withGraph hstep fun {L} hL => ⟨fun {m u} hu => ?_, fun {a b} hb => ?_, ?_⟩, hleads, fun φ hφ => ?_⟩
  · rcases FlowGraph.arrived_typesAt_addType h.valid.graph hu with hu | ⟨rfl, k, hk, hreach⟩
    · exact hL.holds hu
    · refine carried hK hL.flows hreach ?_
      simp only [List.mem_cons, List.not_mem_nil, or_false] at hk
      rcases hk with rfl | rfl
      · rwa [hL.only hn]
      · rwa [hL.only (x := .root) rfl]
  · rw [FlowGraph.out_addAll, FlowGraph.out_intern] at hb
    exact hL.flows hb
  · rw [FlowGraph.size_addAll, FlowGraph.nodes_intern]
  · simp only [List.mem_cons, List.not_mem_nil, or_false] at hφ
    rcases hφ with rfl | rfl
    · exact ⟨n, hleads.grows.standsFor hn, hheld n List.mem_cons_self⟩
    · exact ⟨root, rfl, hheld root (List.mem_cons_of_mem _ List.mem_cons_self)⟩

theorem Grounded.gather (h : Grounded w o K Γ s) (hK : w.catalog.Closed o K) {n i : Nat} {t : ExactType}
    (hi : i ∈ s.graph.held root) (ht : s.graph.type? i = some t) (hn : s.StandsFor n (.ofAggregate t.toDecl)) :
    Brings w o K Γ [] s { s with graph := (s.graph.add n i).2 } := by
  have hstep : Step .client s [] { s with graph := (s.graph.add n i).2 } [] :=
    .gather hi ht (standsFor_ofAggregate.1 hn)
  refine .of_leads (h.withGraph hstep fun {L} hL =>
    ⟨fun {m u} hu => ?_, fun {a b} hb => ?_, FlowGraph.size_add _ _ _⟩) (.of_grows hstep.grows)
  · rcases FlowGraph.arrived_typesAt_add ht hu with hu | ⟨rfl, hreach⟩
    · exact hL.holds hu
    · have hroot := hL.holds (FlowGraph.mem_typesAt.2 ⟨i, hi, ht⟩)
      rw [hL.only (x := .root) rfl] at hroot
      refine carried hK hL.flows hreach ?_
      rw [hL.only hn]
      exact hK.gather hroot
  · rw [FlowGraph.out_add] at hb
    exact hL.flows hb

/-- A change of the graph that is about listeners and notices alone. -/
theorem Grounded.quiet (h : Grounded w o K Γ s) {g : FlowGraph} (hstep : Step .client s γ { s with graph := g } γ')
    (hheld : ∀ n, g.held n = s.graph.held n) (hout : ∀ n, g.out n = s.graph.out n)
    (htypes : g.types = s.graph.types) (hsize : g.nodes.size = s.graph.nodes.size) :
    Brings w o K Γ [] s { s with graph := g } := by
  refine .of_leads (h.withGraph hstep fun {L} hL => ⟨fun {n t} ht => ?_, fun {a b} hb => ?_, hsize⟩)
    (.of_grows hstep.grows)
  · rw [FlowGraph.typesAt_congr (hheld n) htypes] at ht
    exact hL.holds ht
  · rw [hout] at hb
    exact hL.flows hb

theorem Grounded.takeNotice (h : Grounded w o K Γ s) {d : Notice} {g : FlowGraph}
    (hg : s.graph.takeNotice = some (d, g)) : Brings w o K Γ [] s { s with graph := g } := by
  have hstep : Step .client s [] { s with graph := g } [.notice d] := .takeNotice hg
  obtain ⟨rest, -, rfl⟩ := FlowGraph.takeNotice_some hg
  exact h.quiet hstep (fun _ => rfl) (fun _ => rfl) rfl rfl

theorem Grounded.note (h : Grounded w o K Γ s) {t : AnalysisTally}
    (ht : t.methodsProcessed = s.tally.methodsProcessed) (obs : List (String × ExactType)) :
    Brings w o K Γ [] s { s with tally := t, observations := obs } := by
  have hstep : Step .driver s [] { s with tally := t, observations := obs } [] := .note ht obs nofun
  exact h.unseen hstep fun φ hφ => hφ.same hstep.grows rfl rfl

end Analysis

end TypeFlow
