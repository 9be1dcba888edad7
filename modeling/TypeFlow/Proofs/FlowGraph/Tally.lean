import TypeFlow.Proofs.FlowGraph.Exact

/-!
# What the counters of a flow graph count

Each counter goes up where something new is added, and nowhere else: a type at
a node, an edge, a notice that is taken. So it says at any time what adding up
over the nodes would say, whatever was refused, replayed or flooded in between.
-/

namespace TypeFlow

namespace FlowGraph

structure Balanced (g : FlowGraph) : Prop where
  nodes : g.tally.nodes = g.nodeCount
  edges : g.tally.edges = sumOver (fun node => node.out.size) g.nodes.toList
  plain : ∀ n, n ∉ g.out n
  arrivals : g.tally.arrivals = sumOver (fun node => node.held.size) g.nodes.toList
  deliveries : g.tally.deliveries + g.pending.length =
    sumOver (fun node => node.held.size * node.listeners.size) g.nodes.toList

variable {g g' : FlowGraph} {n m t : Nat} {work : List (Nat × Nat)}

/-- A total over the nodes when one of them gains `k`. -/
theorem sumOver_modify_node {w : FlowNode → Nat} {f : FlowNode → FlowNode} {node : FlowNode} {k : Nat}
    (hn : g.nodes[n]? = some node) (hk : w (f node) = w node + k) :
    sumOver w g.nodes.toList + k = sumOver w (g.nodes.modify n f).toList := by
  have hsum := sumOver_modify w f (show g.nodes.toList[n]? = some node by rw [Array.getElem?_toList]; exact hn)
  rw [Array.toList_modify]
  omega

/-- A total over the nodes when the node that changes keeps its weight. -/
theorem sumOver_modify_same {w : FlowNode → Nat} {f : FlowNode → FlowNode} (hw : ∀ node, w (f node) = w node) :
    sumOver w g.nodes.toList = sumOver w (g.nodes.modify n f).toList := by
  rw [Array.toList_modify, sumOver_modify_eq hw]

/-- A node that is new adds nothing to a total to which empty sets add nothing. -/
theorem sumOver_push {w : FlowNode → Nat} (hw : w {} = 0) :
    sumOver w g.nodes.toList = sumOver w (g.nodes.push {}).toList := by
  rw [Array.toList_push, sumOver_append, sumOver_cons, hw]
  rfl

namespace Balanced

theorem empty : Balanced {} where
  nodes := rfl
  edges := rfl
  plain _ := List.not_mem_nil
  arrivals := rfl
  deliveries := rfl

theorem newNode (h : g.Balanced) : g.newNode.2.Balanced where
  nodes := by
    show g.tally.nodes + 1 = g.newNode.2.nodes.size
    rw [size_newNode, h.nodes]
    rfl
  edges := h.edges.trans (sumOver_push rfl)
  plain k := (out_newNode g k).symm ▸ h.plain k
  arrivals := h.arrivals.trans (sumOver_push rfl)
  deliveries := h.deliveries.trans (sumOver_push rfl)

theorem intern (h : g.Balanced) (u : ExactType) : (g.intern u).2.Balanced := by
  unfold FlowGraph.intern
  split
  · exact h
  · exact ⟨h.nodes, h.edges, h.plain, h.arrivals, h.deliveries⟩

/-- The listeners of the node are all told, so that its product grows by the notices that are queued. -/
theorem put (h : g.Balanced) (hlack : g.lacks n t) : (g.put n t).Balanced := by
  obtain ⟨node, hnode, hheld, -, hlisteners⟩ := exists_node (lacks_iff.1 hlack).1
  have hnew : t ∉ node.held := fun ht => (lacks_iff.1 hlack).2.2 (hheld ▸ ht)
  have hsize := OrderedSet.size_insert_of_not_mem hnew
  refine ⟨?_, ?_, fun k => ?_, ?_, ?_⟩
  · show g.tally.nodes = (g.put n t).nodes.size
    rw [size_put]
    exact h.nodes
  · exact h.edges.trans (sumOver_modify_same fun _ => rfl)
  · rw [out_put]
    exact h.plain k
  · show g.tally.arrivals + 1 = _
    rw [h.arrivals]
    exact sumOver_modify_node hnode hsize
  · have hpending : (g.put n t).pending.length = g.pending.length + node.listeners.size := by
      show (g.pending ++ (g.listeners n).map fun l => (⟨l, t⟩ : Notice)).length = _
      rw [List.length_append, List.length_map, ← hlisteners]
      rfl
    show g.tally.deliveries + (g.put n t).pending.length = _
    rw [hpending, ← Nat.add_assoc, h.deliveries]
    refine sumOver_modify_node hnode ?_
    rw [hsize, Nat.succ_mul]

theorem flood (h : g.Balanced) : (g.flood work).Balanced := by
  fun_induction FlowGraph.flood g work with
  | case1 => exact h
  | case2 g n t work hlack ih => exact ih (h.put hlack)
  | case3 g n t work hlack ih => exact ih h

theorem add (h : g.Balanced) : (g.add n t).2.Balanced := by
  unfold FlowGraph.add
  split
  · exact h.flood
  · exact h

theorem withEdge (h : g.Balanced) (hj : g.Joinable n m) : (g.withEdge n m).Balanced := by
  obtain ⟨node, hnode, -, hout, -⟩ := exists_node hj.1
  have hnew : m ∉ node.out := fun hm => hj.2.2 (hout ▸ hm)
  refine ⟨?_, ?_, fun k => ?_, ?_, ?_⟩
  · show g.tally.nodes = (g.withEdge n m).nodes.size
    rw [size_withEdge]
    exact h.nodes
  · show g.tally.edges + 1 = _
    rw [h.edges]
    exact sumOver_modify_node hnode (OrderedSet.size_insert_of_not_mem hnew)
  · rw [out_withEdge hj]
    split
    · next hk =>
      subst hk
      rw [List.mem_append, List.mem_singleton]
      exact fun hmem => hmem.elim (h.plain k) hj.2.1
    · exact h.plain k
  · exact h.arrivals.trans (sumOver_modify_same fun _ => rfl)
  · exact h.deliveries.trans (sumOver_modify_same fun _ => rfl)

theorem connect (h : g.Balanced) : (g.connect n m).Balanced := by
  by_cases hj : g.Joinable n m
  · rw [connect_of_joinable hj]
    exact (h.withEdge hj).flood
  · rw [connect_of_not_joinable hj]
    exact h

theorem listen {l : ListenerId} (h : g.Balanced) : (g.listen n l).Balanced := by
  by_cases ho : g.Open n l
  · obtain ⟨node, hnode, hheld, -, hlisteners⟩ := exists_node ho.1
    have hnew : l ∉ node.listeners := fun hl => ho.2 (hlisteners ▸ hl)
    have hpending : (g.listen n l).pending.length = g.pending.length + node.held.size := by
      rw [listen_of_open ho, List.length_append, List.length_map, ← hheld]
      rfl
    refine ⟨?_, ?_, fun k => ?_, ?_, ?_⟩
    · show (g.listen n l).tally.nodes = (g.listen n l).nodes.size
      rw [size_listen, listen_of_open ho]
      exact h.nodes
    · rw [listen_of_open ho]
      exact h.edges.trans (sumOver_modify_same fun _ => rfl)
    · rw [out_listen]
      exact h.plain k
    · rw [listen_of_open ho]
      exact h.arrivals.trans (sumOver_modify_same fun _ => rfl)
    · rw [hpending, listen_of_open ho]
      show g.tally.deliveries + (g.pending.length + node.held.size) = _
      rw [← Nat.add_assoc, h.deliveries]
      refine sumOver_modify_node hnode ?_
      rw [OrderedSet.size_insert_of_not_mem hnew, Nat.mul_succ]
  · rw [listen_of_not_open ho]
    exact h

theorem takeNotice {d : Notice} (h : g.Balanced) (hd : g.takeNotice = some (d, g')) : g'.Balanced := by
  obtain ⟨rest, hp, rfl⟩ := takeNotice_some hd
  refine ⟨h.nodes, h.edges, h.plain, h.arrivals, ?_⟩
  have hdeliveries := h.deliveries
  rw [hp, List.length_cons, Nat.add_comm rest.length, ← Nat.add_assoc] at hdeliveries
  exact hdeliveries

theorem perform (h : g.Balanced) (op : Op) : (g.perform op).Balanced := by
  cases op with
  | newNode => exact h.newNode
  | intern u => exact h.intern u
  | add n t => exact h.add
  | connect a b => exact h.connect
  | listen n l => exact h.listen
  | takeNotice =>
    simp only [FlowGraph.perform]
    cases hd : g.takeNotice with
    | none => exact h
    | some taken => exact h.takeNotice hd

end Balanced

/-- After any operations on a new graph, whatever they name and whatever was refused, the counters are the totals of
the graph: its nodes, their distinct edges, of which none leads from a node to itself, the types that they hold, and
a notice, taken or waiting, for each listener of a node and each type there. -/
theorem balanced_after (ops : List Op) : (({} : FlowGraph).after ops).Balanced := by
  have hafter : ∀ {g : FlowGraph}, g.Balanced → (g.after ops).Balanced := by
    induction ops with
    | nil => exact id
    | cons op ops ih => exact fun h => ih (h.perform op)
  exact hafter .empty

end FlowGraph

end TypeFlow
