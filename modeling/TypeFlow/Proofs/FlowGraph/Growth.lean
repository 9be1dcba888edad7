import TypeFlow.FlowGraph.Flow

/-!
# Growth of flow graphs

A graph only ever gains: nodes are added, and each node keeps the types it
holds, its edges and its listeners in their order and gets new ones at the
end. `Grows` says this of two graphs, and every operation is shown to obey it.
-/

namespace TypeFlow

namespace FlowGraph

structure Grows (g g' : FlowGraph) : Prop where
  size : g.nodes.size ≤ g'.nodes.size
  held : ∀ n, g.held n <+: g'.held n
  out : ∀ n, g.out n <+: g'.out n
  listeners : ∀ n, g.listeners n <+: g'.listeners n
  types : g.types.toList <+: g'.types.toList

namespace Grows

variable {g g' g'' : FlowGraph}

theorem refl (g : FlowGraph) : g.Grows g :=
  ⟨Nat.le_refl _, fun _ => List.prefix_rfl, fun _ => List.prefix_rfl, fun _ => List.prefix_rfl, List.prefix_rfl⟩

theorem trans (h : g.Grows g') (h' : g'.Grows g'') : g.Grows g'' :=
  ⟨Nat.le_trans h.size h'.size, fun n => (h.held n).trans (h'.held n), fun n => (h.out n).trans (h'.out n),
    fun n => (h.listeners n).trans (h'.listeners n), h.types.trans h'.types⟩

theorem mem_held (h : g.Grows g') {n t : Nat} (ht : t ∈ g.held n) : t ∈ g'.held n := (h.held n).subset ht

theorem mem_out (h : g.Grows g') {n m : Nat} (hm : m ∈ g.out n) : m ∈ g'.out n := (h.out n).subset hm

theorem mem_listeners (h : g.Grows g') {n l : Nat} (hl : l ∈ g.listeners n) : l ∈ g'.listeners n :=
  (h.listeners n).subset hl

theorem type? (h : g.Grows g') {i : TypeId} {t : ExactType} (ht : g.type? i = some t) : g'.type? i = some t := by
  obtain ⟨rest, hr⟩ := h.types
  have hlt : i < g.types.toList.length := (List.getElem?_eq_some_iff.1 ht).1
  rw [FlowGraph.type?, OrderedSet.get?, ← hr, List.getElem?_append_left hlt]
  exact ht

theorem mem_typesAt (h : g.Grows g') {n : NodeId} {t : ExactType} (ht : t ∈ g.typesAt n) : t ∈ g'.typesAt n := by
  obtain ⟨i, hi, hit⟩ := List.mem_filterMap.1 ht
  exact List.mem_filterMap.2 ⟨i, h.mem_held hi, h.type? hit⟩

theorem types_size (h : g.Grows g') : g.types.size ≤ g'.types.size := h.types.length_le

end Grows

/-! ## Getters -/

theorem lt_size_of_mem_listeners {g : FlowGraph} {n l : Nat} (h : l ∈ g.listeners n) : n < g.nodes.size := by
  unfold listeners at h
  split at h
  · next hn => exact (Array.getElem?_eq_some_iff.1 hn).1
  · cases h

theorem exists_node {g : FlowGraph} {n : NodeId} (h : n < g.nodes.size) : ∃ node, g.nodes[n]? = some node ∧
    node.held.toList = g.held n ∧ node.out.toList = g.out n ∧ node.listeners.toList = g.listeners n := by
  have hn := Array.getElem?_eq_getElem h
  refine ⟨_, hn, ?_⟩
  simp only [held, out, listeners, hn, and_self]

theorem lt_types_of_type? {g : FlowGraph} {i : TypeId} {t : ExactType} (h : g.type? i = some t) :
    i < g.types.size :=
  (List.getElem?_eq_some_iff.1 h).1

theorem exists_type? {g : FlowGraph} {i : TypeId} (h : i < g.types.size) : ∃ t, g.type? i = some t :=
  ⟨_, List.getElem?_eq_getElem h⟩

theorem mem_typesAt {g : FlowGraph} {n : NodeId} {t : ExactType} :
    t ∈ g.typesAt n ↔ ∃ i ∈ g.held n, g.type? i = some t := List.mem_filterMap

theorem lt_size_of_mem_held {g : FlowGraph} {n t : Nat} (h : t ∈ g.held n) : n < g.nodes.size := by
  unfold held at h
  split at h
  · next hn => exact (Array.getElem?_eq_some_iff.1 hn).1
  · cases h

theorem lt_size_of_mem_out {g : FlowGraph} {n m : Nat} (h : m ∈ g.out n) : n < g.nodes.size := by
  unfold out at h
  split at h
  · next hn => exact (Array.getElem?_eq_some_iff.1 hn).1
  · cases h

theorem lt_size_of_mem_typesAt {g : FlowGraph} {n : Nat} {t : ExactType} (h : t ∈ g.typesAt n) :
    n < g.nodes.size := by
  obtain ⟨i, hi, -⟩ := mem_typesAt.1 h
  exact lt_size_of_mem_held hi

theorem typesAt_congr {g g' : FlowGraph} {n : NodeId} (hh : g'.held n = g.held n) (ht : g'.types = g.types) :
    g'.typesAt n = g.typesAt n := by
  unfold typesAt type?
  rw [hh, ht]

theorem lacks_iff {g : FlowGraph} {n t : Nat} :
    g.lacks n t ↔ n < g.nodes.size ∧ t < g.types.size ∧ t ∉ g.held n := by
  simp [lacks, hasNode, and_assoc]

/-! ## The sets of a node -/

def partAt {β : Type} (part : FlowNode → OrderedSet β) (nodes : Array FlowNode) (n : NodeId) : List β :=
  match nodes[n]? with
  | some node => (part node).toList
  | none => []

section
variable {β : Type} (part : FlowNode → OrderedSet β) (nodes : Array FlowNode)

theorem partAt_modify {f : FlowNode → FlowNode} (hf : ∀ node, part (f node) = part node) (n m : NodeId) :
    partAt part (nodes.modify n f) m = partAt part nodes m := by
  simp only [partAt, Array.getElem?_modify]
  by_cases h : n = m
  · subst h
    cases nodes[n]? with
    | none => simp
    | some node => simp [hf]
  · simp [h]

theorem partAt_insert [DecidableEq β] {f : FlowNode → FlowNode} {x : β}
    (hf : ∀ node, part (f node) = (part node).insert x) {n : NodeId} (hn : n < nodes.size)
    (hx : x ∉ partAt part nodes n) (m : NodeId) :
    partAt part (nodes.modify n f) m = if m = n then partAt part nodes n ++ [x] else partAt part nodes m := by
  have hnode : nodes[n]? = some nodes[n] := Array.getElem?_eq_getElem hn
  simp only [partAt, hnode, OrderedSet.mem_toList] at hx
  by_cases h : m = n
  · subst h
    have hnew : (nodes.modify m f)[m]? = some (f nodes[m]) := by
      rw [Array.getElem?_modify, if_pos rfl, hnode]
      rfl
    simp only [partAt, hnew, hnode, hf, if_true]
    exact OrderedSet.toList_insert_of_not_mem hx
  · simp [partAt, Array.getElem?_modify, Ne.symm h, h]

theorem partAt_push {node : FlowNode} (hnode : part node = ∅) (n : NodeId) :
    partAt part (nodes.push node) n = partAt part nodes n := by
  simp only [partAt, Array.getElem?_push]
  by_cases h : n = nodes.size
  · subst h
    simp [hnode, EmptyCollection.emptyCollection, OrderedSet.empty]
  · simp [h]

end

/-! ## Putting a type into a set -/

section
variable (g : FlowGraph) (n t : Nat)

theorem size_put : (g.put n t).nodes.size = g.nodes.size := by simp [put]

theorem out_put (m : NodeId) : (g.put n t).out m = g.out m := by
  refine partAt_modify FlowNode.out g.nodes (fun node => ?_) n m
  rfl

theorem listeners_put (m : NodeId) : (g.put n t).listeners m = g.listeners m := by
  refine partAt_modify FlowNode.listeners g.nodes (fun node => ?_) n m
  rfl

end

theorem held_put {g : FlowGraph} {n t : Nat} (h : g.lacks n t) (m : NodeId) :
    (g.put n t).held m = if m = n then g.held n ++ [t] else g.held m := by
  obtain ⟨hn, _, hlack⟩ := lacks_iff.1 h
  exact partAt_insert FlowNode.held g.nodes (fun _ => rfl) hn hlack m

theorem mem_held_put {g : FlowGraph} {n t m i : Nat} (h : g.lacks n t) :
    i ∈ (g.put n t).held m ↔ i ∈ g.held m ∨ m = n ∧ i = t := by
  rw [held_put h]
  by_cases hm : m = n
  · subst hm
    simp
  · simp [hm]

theorem grows_put {g : FlowGraph} {n t : Nat} (h : g.lacks n t) : g.Grows (g.put n t) where
  size := Nat.le_of_eq (size_put g n t).symm
  held m := by
    rw [held_put h]
    split
    · next hm => exact hm ▸ List.prefix_append _ _
    · exact List.prefix_rfl
  out m := (out_put g n t m).symm ▸ List.prefix_rfl
  listeners m := (listeners_put g n t m).symm ▸ List.prefix_rfl
  types := List.prefix_rfl

/-! ## Flooding -/

theorem grows_flood (g : FlowGraph) (work : List (Nat × Nat)) : g.Grows (g.flood work) := by
  fun_induction flood g work with
  | case1 => exact .refl _
  | case2 g n t work h ih => exact (grows_put h).trans ih
  | case3 g n t work h ih => exact ih

section
variable (g : FlowGraph) (work : List (Nat × Nat))

theorem flood_keeps {α : Type} (F : FlowGraph → α) (hF : ∀ g n t, F (put g n t) = F g) :
    F (g.flood work) = F g := by
  fun_induction flood g work with
  | case1 => rfl
  | case2 g n t work h ih => exact ih.trans (hF g n t)
  | case3 g n t work h ih => exact ih

theorem out_flood (m : NodeId) : (g.flood work).out m = g.out m :=
  flood_keeps g work (fun g => g.out m) fun g n t => out_put g n t m

theorem listeners_flood (m : NodeId) : (g.flood work).listeners m = g.listeners m :=
  flood_keeps g work (fun g => g.listeners m) fun g n t => listeners_put g n t m

theorem types_flood : (g.flood work).types = g.types := flood_keeps g work types fun _ _ _ => rfl

theorem pending_flood : g.pending <+: (g.flood work).pending := by
  fun_induction flood g work with
  | case1 => exact List.prefix_rfl
  | case2 g n t work h ih => exact (List.prefix_append _ _).trans ih
  | case3 g n t work h ih => exact ih

end

/-! ## New nodes -/

section
variable (g : FlowGraph)

theorem size_newNode : g.newNode.2.nodes.size = g.nodes.size + 1 := by simp [newNode]

theorem lt_size_newNode : g.newNode.1 < g.newNode.2.nodes.size := by
  rw [size_newNode]
  exact Nat.lt_succ_self _

theorem held_newNode (m : NodeId) : g.newNode.2.held m = g.held m := partAt_push FlowNode.held g.nodes rfl m

theorem out_newNode (m : NodeId) : g.newNode.2.out m = g.out m := partAt_push FlowNode.out g.nodes rfl m

theorem listeners_newNode (m : NodeId) : g.newNode.2.listeners m = g.listeners m :=
  partAt_push FlowNode.listeners g.nodes rfl m

theorem grows_newNode : g.Grows g.newNode.2 where
  size := by rw [size_newNode]; omega
  held m := (held_newNode g m).symm ▸ List.prefix_rfl
  out m := (out_newNode g m).symm ▸ List.prefix_rfl
  listeners m := (listeners_newNode g m).symm ▸ List.prefix_rfl
  types := List.prefix_rfl

theorem newNodes_succ (k : Nat) :
    g.newNodes (k + 1) = (g.nodes.size :: (g.newNode.2.newNodes k).1, (g.newNode.2.newNodes k).2) := rfl

theorem size_newNodes (k : Nat) : (g.newNodes k).2.nodes.size = g.nodes.size + k := by
  induction k generalizing g with
  | zero => rfl
  | succ k ih => rw [newNodes_succ, ih, size_newNode]; omega

theorem newNodes_keeps {α : Type} (F : FlowGraph → α) (hF : ∀ g, F (newNode g).2 = F g) (k : Nat) :
    F (g.newNodes k).2 = F g := by
  induction k generalizing g with
  | zero => rfl
  | succ k ih => exact (ih g.newNode.2).trans (hF g)

theorem held_newNodes (k : Nat) (m : NodeId) : (g.newNodes k).2.held m = g.held m :=
  newNodes_keeps g (fun g => g.held m) (fun g => held_newNode g m) k

theorem out_newNodes (k : Nat) (m : NodeId) : (g.newNodes k).2.out m = g.out m :=
  newNodes_keeps g (fun g => g.out m) (fun g => out_newNode g m) k

theorem listeners_newNodes (k : Nat) (m : NodeId) : (g.newNodes k).2.listeners m = g.listeners m :=
  newNodes_keeps g (fun g => g.listeners m) (fun g => listeners_newNode g m) k

theorem types_newNodes (k : Nat) : (g.newNodes k).2.types = g.types := newNodes_keeps g types (fun _ => rfl) k

theorem pending_newNodes (k : Nat) : (g.newNodes k).2.pending = g.pending :=
  newNodes_keeps g pending (fun _ => rfl) k

/-- Whether `g'` comes from `g` without anything that a listener has to be told of. -/
structure Quiet (g g' : FlowGraph) : Prop where
  grows : g.Grows g'
  held : ∀ n, g'.held n = g.held n
  out : ∀ n, g'.out n = g.out n
  listeners : ∀ n, g'.listeners n = g.listeners n
  pending : g'.pending = g.pending

theorem Quiet.refl (g : FlowGraph) : g.Quiet g := ⟨.refl g, fun _ => rfl, fun _ => rfl, fun _ => rfl, rfl⟩

theorem Quiet.trans {g g' g'' : FlowGraph} (h : g.Quiet g') (h' : g'.Quiet g'') : g.Quiet g'' :=
  ⟨h.grows.trans h'.grows, fun n => (h'.held n).trans (h.held n), fun n => (h'.out n).trans (h.out n),
    fun n => (h'.listeners n).trans (h.listeners n), h'.pending.trans h.pending⟩

theorem grows_newNodes (k : Nat) : g.Grows (g.newNodes k).2 := by
  induction k generalizing g with
  | zero => exact .refl g
  | succ k ih => exact (grows_newNode g).trans (ih _)

theorem quiet_newNodes (k : Nat) : g.Quiet (g.newNodes k).2 :=
  ⟨g.grows_newNodes k, g.held_newNodes k, g.out_newNodes k, g.listeners_newNodes k, g.pending_newNodes k⟩

theorem quiet_newNode : g.Quiet g.newNode.2 :=
  ⟨g.grows_newNode, g.held_newNode, g.out_newNode, g.listeners_newNode, rfl⟩

theorem length_newNodes (k : Nat) : (g.newNodes k).1.length = k := by
  induction k generalizing g with
  | zero => rfl
  | succ k ih => rw [newNodes_succ, List.length_cons, ih]

theorem mem_newNodes {k n : Nat} (h : n ∈ (g.newNodes k).1) :
    g.nodes.size ≤ n ∧ n < (g.newNodes k).2.nodes.size := by
  rw [size_newNodes]
  induction k generalizing g with
  | zero => cases h
  | succ k ih =>
    rw [newNodes_succ] at h
    rcases List.mem_cons.1 h with rfl | h
    · exact ⟨Nat.le_refl _, by omega⟩
    · have := ih _ h
      rw [size_newNode] at this
      omega

end

/-! ## Edges -/

/-- The graph with one more edge, along which nothing has flowed yet. -/
def withEdge (g : FlowGraph) (a b : NodeId) : FlowGraph :=
  { g with
    nodes := g.nodes.modify a fun node => { node with out := node.out.insert b }
    tally := { g.tally with edges := g.tally.edges + 1 } }

/-- Whether an edge is worth adding: its source is there, and it leads elsewhere and is new. -/
def Joinable (g : FlowGraph) (a b : NodeId) : Prop := a < g.nodes.size ∧ a ≠ b ∧ b ∉ g.out a

theorem connect_of_joinable {g : FlowGraph} {a b : NodeId} (h : g.Joinable a b) :
    g.connect a b = (g.withEdge a b).flood ((g.held a).map fun t => (b, t)).reverse := by
  obtain ⟨ha, hne, hout⟩ := h
  unfold connect
  rw [if_neg (by simp [hasNode, ha, hne, hout])]
  rfl

theorem connect_of_not_joinable {g : FlowGraph} {a b : NodeId} (h : ¬ g.Joinable a b) : g.connect a b = g := by
  unfold connect
  apply if_pos
  simp only [hasNode, Bool.or_eq_true, Bool.not_eq_true', decide_eq_false_iff_not, decide_eq_true_eq]
  unfold Joinable at h
  by_cases ha : a < g.nodes.size
  · by_cases hb : a = b
    · exact Or.inl (Or.inr hb)
    · exact Or.inr (Classical.byContradiction fun hout => h ⟨ha, hb, hout⟩)
  · exact Or.inl (Or.inl ha)

section
variable (g : FlowGraph) (a b : NodeId)

theorem size_withEdge : (g.withEdge a b).nodes.size = g.nodes.size := by simp [withEdge]

theorem held_withEdge (m : NodeId) : (g.withEdge a b).held m = g.held m := by
  refine partAt_modify FlowNode.held g.nodes (fun node => ?_) a m
  rfl

theorem listeners_withEdge (m : NodeId) : (g.withEdge a b).listeners m = g.listeners m := by
  refine partAt_modify FlowNode.listeners g.nodes (fun node => ?_) a m
  rfl

end

theorem out_withEdge {g : FlowGraph} {a b : NodeId} (h : g.Joinable a b) (m : NodeId) :
    (g.withEdge a b).out m = if m = a then g.out a ++ [b] else g.out m := by
  obtain ⟨ha, _, hout⟩ := h
  exact partAt_insert FlowNode.out g.nodes (fun _ => rfl) ha hout m

theorem grows_withEdge {g : FlowGraph} {a b : NodeId} (h : g.Joinable a b) : g.Grows (g.withEdge a b) where
  size := Nat.le_of_eq (size_withEdge g a b).symm
  held m := (held_withEdge g a b m).symm ▸ List.prefix_rfl
  out m := by
    rw [out_withEdge h]
    split
    · next hm => exact hm ▸ List.prefix_append _ _
    · exact List.prefix_rfl
  listeners m := (listeners_withEdge g a b m).symm ▸ List.prefix_rfl
  types := List.prefix_rfl

section
variable (g : FlowGraph) (a b : NodeId)

theorem grows_connect : g.Grows (g.connect a b) := by
  by_cases h : g.Joinable a b
  · rw [connect_of_joinable h]
    exact (grows_withEdge h).trans (grows_flood _ _)
  · rw [connect_of_not_joinable h]
    exact .refl g

theorem types_connect : (g.connect a b).types = g.types := by
  by_cases h : g.Joinable a b
  · rw [connect_of_joinable h, types_flood]
    rfl
  · rw [connect_of_not_joinable h]

theorem listeners_connect (m : NodeId) : (g.connect a b).listeners m = g.listeners m := by
  by_cases h : g.Joinable a b
  · rw [connect_of_joinable h, listeners_flood, listeners_withEdge]
  · rw [connect_of_not_joinable h]

end

/-! ## Types and listeners -/

section
variable (g : FlowGraph)

theorem grows_add (n t : Nat) : g.Grows (g.add n t).2 := by
  unfold add
  split
  · exact grows_flood g _
  · exact .refl g

theorem types_add (n t : Nat) : (g.add n t).2.types = g.types := by
  unfold add
  split
  · exact types_flood g _
  · rfl

theorem listeners_add (n t : Nat) (m : NodeId) : (g.add n t).2.listeners m = g.listeners m := by
  unfold add
  split
  · exact listeners_flood g _ m
  · rfl

theorem nodes_intern (t : ExactType) : (g.intern t).2.nodes = g.nodes := by
  unfold intern
  split <;> rfl

theorem held_intern (t : ExactType) (n : NodeId) : (g.intern t).2.held n = g.held n := by
  simp only [held, nodes_intern]

theorem out_intern (t : ExactType) (n : NodeId) : (g.intern t).2.out n = g.out n := by
  simp only [out, nodes_intern]

theorem listeners_intern (t : ExactType) (n : NodeId) : (g.intern t).2.listeners n = g.listeners n := by
  simp only [listeners, nodes_intern]

theorem pending_intern (t : ExactType) : (g.intern t).2.pending = g.pending := by
  unfold intern
  split <;> rfl

theorem grows_intern (t : ExactType) : g.Grows (g.intern t).2 := by
  unfold intern
  split
  · exact .refl g
  · next h =>
    refine ⟨Nat.le_refl _, fun _ => List.prefix_rfl, fun _ => List.prefix_rfl, fun _ => List.prefix_rfl, ?_⟩
    have hnew : t ∉ g.types := by simpa [OrderedSet.indexOf?, List.idxOf?_eq_none_iff] using h
    rw [OrderedSet.toList_insert_of_not_mem hnew]
    exact List.prefix_append _ _

theorem quiet_intern (t : ExactType) : g.Quiet (g.intern t).2 :=
  ⟨g.grows_intern t, g.held_intern t, g.out_intern t, g.listeners_intern t, g.pending_intern t⟩

theorem type?_intern (t : ExactType) : (g.intern t).2.type? (g.intern t).1 = some t := by
  unfold intern
  split
  · next i h =>
    have := List.idxOf?_eq_some_iff.1 h
    exact List.getElem?_eq_some_iff.2 ⟨this.1, this.2.1⟩
  · next h =>
    have hnew : t ∉ g.types := by simpa [OrderedSet.indexOf?, List.idxOf?_eq_none_iff] using h
    rw [type?, OrderedSet.get?, OrderedSet.toList_insert_of_not_mem hnew]
    simp [OrderedSet.size]

theorem mem_types_intern {t u : ExactType} : u ∈ (g.intern t).2.types ↔ u ∈ g.types ∨ u = t := by
  unfold intern
  split
  · next i h =>
    have ht : t ∈ g.types := List.mem_of_getElem? (List.getElem?_eq_some_iff.2
      ⟨(List.idxOf?_eq_some_iff.1 h).1, (List.idxOf?_eq_some_iff.1 h).2.1⟩)
    exact ⟨Or.inl, fun h => h.elim id fun h => h ▸ ht⟩
  · exact OrderedSet.mem_insert

end

/-- Whether a listener is worth registering: its node is there, and it is new. -/
def Open (g : FlowGraph) (n : NodeId) (l : ListenerId) : Prop := n < g.nodes.size ∧ l ∉ g.listeners n

theorem listen_of_not_open {g : FlowGraph} {n : NodeId} {l : ListenerId} (h : ¬ g.Open n l) : g.listen n l = g := by
  unfold listen
  apply if_pos
  simp only [hasNode, Bool.or_eq_true, Bool.not_eq_true', decide_eq_false_iff_not, decide_eq_true_eq]
  by_cases hn : n < g.nodes.size
  · exact Or.inr (Classical.byContradiction fun hl => h ⟨hn, hl⟩)
  · exact Or.inl hn

section
variable {g : FlowGraph} {n : NodeId} {l : ListenerId}

theorem listen_of_open (h : g.Open n l) : g.listen n l =
    { g with
      nodes := g.nodes.modify n fun node => { node with listeners := node.listeners.insert l }
      pending := g.pending ++ (g.held n).map fun t => ⟨l, t⟩ } := by
  unfold listen
  rw [if_neg (by simp [hasNode, h.1, h.2])]

theorem size_listen : (g.listen n l).nodes.size = g.nodes.size := by
  by_cases h : g.Open n l
  · simp [listen_of_open h]
  · rw [listen_of_not_open h]

theorem held_listen (m : NodeId) : (g.listen n l).held m = g.held m := by
  by_cases h : g.Open n l
  · rw [listen_of_open h]
    refine partAt_modify FlowNode.held g.nodes (fun node => ?_) n m
    rfl
  · rw [listen_of_not_open h]

theorem out_listen (m : NodeId) : (g.listen n l).out m = g.out m := by
  by_cases h : g.Open n l
  · rw [listen_of_open h]
    refine partAt_modify FlowNode.out g.nodes (fun node => ?_) n m
    rfl
  · rw [listen_of_not_open h]

theorem types_listen : (g.listen n l).types = g.types := by
  by_cases h : g.Open n l
  · rw [listen_of_open h]
  · rw [listen_of_not_open h]

theorem listeners_listen (h : g.Open n l) (m : NodeId) :
    (g.listen n l).listeners m = if m = n then g.listeners n ++ [l] else g.listeners m := by
  rw [listen_of_open h]
  exact partAt_insert FlowNode.listeners g.nodes (fun _ => rfl) h.1 h.2 m

theorem pending_listen : g.pending <+: (g.listen n l).pending := by
  by_cases h : g.Open n l
  · rw [listen_of_open h]
    exact List.prefix_append _ _
  · exact (listen_of_not_open h).symm ▸ List.prefix_rfl

theorem grows_listen : g.Grows (g.listen n l) where
  size := Nat.le_of_eq size_listen.symm
  held m := (held_listen m).symm ▸ List.prefix_rfl
  out m := (out_listen m).symm ▸ List.prefix_rfl
  listeners m := by
    by_cases h : g.Open n l
    · rw [listeners_listen h]
      split
      · next hm => exact hm ▸ List.prefix_append _ _
      · exact List.prefix_rfl
    · exact (listen_of_not_open h).symm ▸ List.prefix_rfl
  types := types_listen.symm ▸ List.prefix_rfl

theorem mem_listeners_listen (hn : n < g.nodes.size) {m : NodeId} {k : ListenerId} :
    k ∈ (g.listen n l).listeners m ↔ k ∈ g.listeners m ∨ m = n ∧ k = l := by
  by_cases h : g.Open n l
  · rw [listeners_listen h]
    by_cases hm : m = n
    · subst hm
      simp
    · simp [hm]
  · have hl : l ∈ g.listeners n := Classical.byContradiction fun hl => h ⟨hn, hl⟩
    rw [listen_of_not_open h]
    exact ⟨Or.inl, fun hk => hk.elim id fun ⟨hm, hk⟩ => hm ▸ hk ▸ hl⟩

end

end FlowGraph

end TypeFlow
