import TypeFlow.FlowGraph.Basic

/-!
# Flow along edges

Adding a type, an edge or a listener, each with what follows from it: a type
goes on along every edge, an edge brings what its source already holds, a
listener is told what its node already holds. The order is that of a stack:
what was found last is followed first.
-/

namespace TypeFlow

namespace FlowGraph

/-- Adds pairs of a node and a type, the first pair first, and follows the
edges from every node at which a type is new. -/
def flood (g : FlowGraph) (work : List (Nat × Nat)) : FlowGraph :=
  match work with
  | [] => g
  | (n, t) :: work =>
    if _h : g.lacks n t then (g.put n t).flood (((g.out n).map fun m => (m, t)).reverse ++ work)
    else g.flood work
termination_by work.length + g.room
decreasing_by
  · have := room_put _h
    simp only [List.length_append, List.length_reverse, List.length_map, List.length_cons]
    omega
  · simp only [List.length_cons]
    omega

/-- Adds a type to a node; says whether the type is new there. -/
def add (g : FlowGraph) (n t : Nat) : Bool × FlowGraph :=
  if g.lacks n t then (true, g.flood [(n, t)]) else (false, g)

/-- Adds an edge, unless it is there or leads from a node to itself. -/
def connect (g : FlowGraph) (source target : NodeId) : FlowGraph :=
  if !g.hasNode source || source = target || target ∈ g.out source then g
  else
    let g' := { g with
      nodes := g.nodes.modify source fun node => { node with out := node.out.insert target }
      tally := { g.tally with edges := g.tally.edges + 1 } }
    g'.flood ((g.held source).map fun t => (target, t)).reverse

/-- Registers a listener at a node, unless it is registered there. -/
def listen (g : FlowGraph) (n : NodeId) (l : ListenerId) : FlowGraph :=
  if !g.hasNode n || l ∈ g.listeners n then g
  else
    { g with
      nodes := g.nodes.modify n fun node => { node with listeners := node.listeners.insert l }
      pending := g.pending ++ (g.held n).map fun t => ⟨l, t⟩ }

def takeNotice (g : FlowGraph) : Option (Notice × FlowGraph) :=
  match g.pending with
  | [] => none
  | d :: rest =>
    some (d, { g with
      pending := rest, tally := { g.tally with deliveries := g.tally.deliveries + 1 } })

/-! ## The backlog

Only a listener that registers or a type met for the first time adds to the
backlog; taking a notice lowers it by one. -/

theorem backlog_flood (g : FlowGraph) (work : List (Nat × Nat)) : (g.flood work).backlog = g.backlog := by
  fun_induction flood g work with
  | case1 => rfl
  | case2 g n t work h ih => rw [ih, backlog_put h]
  | case3 g n t work h ih => exact ih

theorem backlog_add (g : FlowGraph) (n t : Nat) : (g.add n t).2.backlog = g.backlog := by
  unfold add
  split
  · exact backlog_flood g _
  · rfl

theorem backlog_connect (g : FlowGraph) (a b : NodeId) : (g.connect a b).backlog = g.backlog := by
  unfold connect
  split
  · rfl
  · rw [backlog_flood]
    simp only [backlog, lackSum, Array.toList_modify]
    rw [sumOver_modify_eq]
    exact fun _ => rfl

theorem backlog_newNode (g : FlowGraph) : g.newNode.2.backlog = g.backlog := by
  simp [newNode, backlog, lackSum, OrderedSet.size, EmptyCollection.emptyCollection, OrderedSet.empty]

theorem backlog_newNodes (g : FlowGraph) (k : Nat) : (g.newNodes k).2.backlog = g.backlog := by
  induction k generalizing g with
  | zero => rfl
  | succ k ih => exact (ih _).trans (backlog_newNode g)

theorem takeNotice_some {g g' : FlowGraph} {d : Notice} (h : g.takeNotice = some (d, g')) :
    ∃ rest, g.pending = d :: rest ∧
      g' = { g with pending := rest, tally := { g.tally with deliveries := g.tally.deliveries + 1 } } := by
  unfold takeNotice at h
  split at h
  · cases h
  · next hp =>
    cases h
    exact ⟨_, hp, rfl⟩

theorem backlog_takeNotice {g g' : FlowGraph} {d : Notice} (h : g.takeNotice = some (d, g')) :
    g'.backlog + 1 = g.backlog := by
  obtain ⟨rest, hp, rfl⟩ := takeNotice_some h
  simp only [backlog, hp, List.length_cons, lackSum]
  omega

end FlowGraph

end TypeFlow
