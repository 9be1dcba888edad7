import TypeFlow.Proofs.FlowGraph.Closure

/-!
# Flow that stops at a missing node

The operations of the graph pass over nodes and types that are not there. Here
they are once more as operations that come to nothing in such a case, and that
follow the edges for as long as anything is new. Where every edge leads to a
node the two are the same.
-/

namespace TypeFlow

namespace FlowGraph

def strictFlood (g : FlowGraph) (work : List (Nat × Nat)) : Option FlowGraph :=
  match work with
  | [] => some g
  | (n, t) :: work =>
    match _hn : g.nodes[n]? with
    | none => none
    | some node =>
      if _hm : t ∈ node.held then g.strictFlood work
      else match _ht : g.type? t with
        | none => none
        | some _ => (g.put n t).strictFlood (((g.out n).map fun m => (m, t)).reverse ++ work)
termination_by work.length + g.room
decreasing_by
  · simp only [List.length_cons]
    omega
  · have hheld : t ∉ g.held n := by simpa only [held, _hn, OrderedSet.mem_toList] using _hm
    have hlack : g.lacks n t := lacks_iff.2 ⟨(Array.getElem?_eq_some_iff.1 _hn).1, lt_types_of_type? _ht, hheld⟩
    have hroom := room_put hlack
    simp only [List.length_append, List.length_reverse, List.length_map, List.length_cons]
    omega

def strictAdd (g : FlowGraph) (n t : Nat) : Option FlowGraph := do
  let node ← g.nodes[n]?
  if t ∈ node.held then some g else g.strictFlood [(n, t)]

def strictConnect (g : FlowGraph) (source target : NodeId) : Option FlowGraph :=
  if source = target then some g
  else do
    let node ← g.nodes[source]?
    if target ∈ node.out then some g
    else (g.withEdge source target).strictFlood (node.held.toList.map fun t => (target, t)).reverse

def strictListen (g : FlowGraph) (n : NodeId) (l : ListenerId) : Option FlowGraph := do
  let node ← g.nodes[n]?
  if l ∈ node.listeners then some g
  else some { g with
    nodes := g.nodes.modify n fun node => { node with listeners := node.listeners.insert l }
    pending := g.pending ++ node.held.toList.map fun t => ⟨l, t⟩ }

variable {g : FlowGraph} {n m t : Nat}

/-- Where all edges lead to nodes, following them never leaves the graph. -/
theorem strictFlood_eq {work : List (Nat × Nat)} (hout : ∀ {n m : Nat}, m ∈ g.out n → m < g.nodes.size)
    (hwork : ∀ e ∈ work, e.1 < g.nodes.size ∧ e.2 < g.types.size) : g.strictFlood work = some (g.flood work) := by
  fun_induction strictFlood g work with
  | case1 g => rw [flood]
  | case2 g n t work hn =>
    obtain ⟨node, hnode, -⟩ := exists_node (hwork (n, t) List.mem_cons_self).1
    cases hn.symm.trans hnode
  | case3 g n t work node hn hm ih =>
    have hlack : ¬ g.lacks n t :=
      fun h => (lacks_iff.1 h).2.2 (by simpa only [held, hn, OrderedSet.mem_toList] using hm)
    rw [flood, dif_neg hlack]
    exact ih hout fun e he => hwork e (List.mem_cons_of_mem _ he)
  | case4 g n t work node hn hm ht =>
    obtain ⟨x, hx⟩ := exists_type? (hwork (n, t) List.mem_cons_self).2
    cases ht.symm.trans hx
  | case5 g n t work node hn hm x ht ih =>
    obtain ⟨hsize, htype⟩ := hwork (n, t) List.mem_cons_self
    have hheld : t ∉ g.held n := by simpa only [held, hn, OrderedSet.mem_toList] using hm
    rw [flood, dif_pos (lacks_iff.2 ⟨hsize, htype, hheld⟩)]
    apply ih
    · intro a b hb
      rw [out_put] at hb
      rw [size_put]
      exact hout hb
    · intro e he
      rw [size_put]
      rcases List.mem_append.1 he with he | he
      · obtain ⟨b, hb, rfl⟩ := List.mem_map.1 (List.mem_reverse.1 he)
        exact ⟨hout hb, htype⟩
      · exact hwork e (List.mem_cons_of_mem _ he)

theorem strictAdd_eq (hv : g.Valid) (hn : n < g.nodes.size) (ht : t < g.types.size) :
    g.strictAdd n t = some (g.add n t).2 := by
  obtain ⟨node, hnode, hheld, -, -⟩ := exists_node hn
  unfold strictAdd add
  simp only [hnode, Option.bind_eq_bind, Option.bind_some]
  by_cases hmem : t ∈ g.held n
  · have hmem' : t ∈ node.held := OrderedSet.mem_toList.1 (hheld ▸ hmem)
    have hlack : ¬ g.lacks n t := fun h => (lacks_iff.1 h).2.2 hmem
    rw [if_pos hmem', if_neg hlack]
  · have hmem' : t ∉ node.held := fun h => hmem (hheld ▸ h)
    have hlack : g.lacks n t := lacks_iff.2 ⟨hn, ht, hmem⟩
    rw [if_neg hmem', if_pos hlack]
    refine strictFlood_eq hv.out fun e he => ?_
    rw [List.mem_singleton] at he
    exact he ▸ ⟨hn, ht⟩

theorem strictConnect_eq (hv : g.Valid) (hn : n < g.nodes.size) (hm : m < g.nodes.size) :
    g.strictConnect n m = some (g.connect n m) := by
  obtain ⟨node, hnode, hheld, hout, -⟩ := exists_node hn
  unfold strictConnect
  simp only [hnode, Option.bind_eq_bind, Option.bind_some]
  by_cases hj : g.Joinable n m
  · have ⟨_, hne, hnew⟩ := hj
    have hnew' : m ∉ node.out := fun h => hnew (hout ▸ h)
    rw [if_neg hne, if_neg hnew', connect_of_joinable hj, hheld]
    apply strictFlood_eq
    · intro a b hb
      rw [out_withEdge hj] at hb
      rw [size_withEdge]
      split at hb
      · rcases List.mem_append.1 hb with hb | hb
        · exact hv.out hb
        · rw [List.mem_singleton] at hb
          exact hb ▸ hm
      · exact hv.out hb
    · intro e he
      rw [size_withEdge]
      obtain ⟨i, hi, rfl⟩ := List.mem_map.1 (List.mem_reverse.1 he)
      exact ⟨hm, hv.held hi⟩
  · rw [connect_of_not_joinable hj]
    by_cases hne : n = m
    · rw [if_pos hne]
    · have hold : m ∈ node.out := by
        refine Classical.byContradiction fun hnew => hj ⟨hn, hne, fun h => hnew ?_⟩
        exact OrderedSet.mem_toList.1 (hout ▸ h)
      rw [if_neg hne, if_pos hold]

theorem strictListen_eq (hn : n < g.nodes.size) (l : ListenerId) : g.strictListen n l = some (g.listen n l) := by
  obtain ⟨node, hnode, hheld, -, hlisteners⟩ := exists_node hn
  unfold strictListen listen
  have hmem : l ∈ node.listeners ↔ l ∈ g.listeners n := by rw [← hlisteners, OrderedSet.mem_toList]
  simp only [hnode, Option.bind_eq_bind, Option.bind_some, hmem, hheld, hasNode_iff.2 hn, Bool.not_true,
    Bool.false_or, decide_eq_true_eq]
  by_cases hl : l ∈ g.listeners n
  · rw [if_pos hl, if_pos hl]
  · rw [if_neg hl, if_neg hl]

end FlowGraph

end TypeFlow
