import TypeFlow.ExactType
import TypeFlow.OrderedSet
import TypeFlow.Sum

/-!
# Flow graphs

A flow graph carries sets of exact types along edges. A node keeps the types
it holds in the order of their arrival, the nodes its types flow on to, and
the listeners that are told of each type it holds. Listeners are not called
by the graph: what they are to be told waits in a queue of notices.

Types are numbered in the order in which the graph first met them, nodes in
the order in which they were made. These numbers and the counts of the tally
are unbounded: no graph is taken to have `2 ^ 32` nodes, types or listeners,
so none of them ever wraps.
-/

namespace TypeFlow

/-- A node of a flow graph, by the order in which nodes were made; unbounded. -/
abbrev NodeId := Nat

/-- A type of a flow graph, by the order in which types were met; unbounded. -/
abbrev TypeId := Nat

/-- A listener, by a number that its owner chooses; unbounded. -/
abbrev ListenerId := Nat

/-- One type that one listener is to be told of. -/
structure Notice where
  listener : ListenerId
  type : TypeId
  deriving DecidableEq, Repr

structure FlowNode where
  held : OrderedSet TypeId := ∅
  out : OrderedSet NodeId := ∅
  listeners : OrderedSet ListenerId := ∅

instance : Inhabited FlowNode := ⟨{}⟩

structure FlowTally where
  nodes : Nat := 0
  edges : Nat := 0
  arrivals : Nat := 0
  deliveries : Nat := 0
  deriving DecidableEq, Repr

instance : Inhabited FlowTally := ⟨{}⟩

structure FlowGraph where
  nodes : Array FlowNode := #[]
  types : OrderedSet ExactType := ∅
  pending : List Notice := []
  tally : FlowTally := {}

instance : Inhabited FlowGraph := ⟨{}⟩

namespace FlowGraph

def nodeCount (g : FlowGraph) : Nat := g.nodes.size

def hasNode (g : FlowGraph) (n : Nat) : Bool := n < g.nodes.size

theorem hasNode_iff {g : FlowGraph} {n : Nat} : g.hasNode n ↔ n < g.nodes.size := by
  simp [hasNode]

/-- The types that a node holds, in order of arrival; none where there is no node. -/
def held (g : FlowGraph) (n : NodeId) : List TypeId :=
  match g.nodes[n]? with
  | some node => node.held.toList
  | none => []

/-- The nodes that a node's types flow on to, in the order of the edges. -/
def out (g : FlowGraph) (n : NodeId) : List NodeId :=
  match g.nodes[n]? with
  | some node => node.out.toList
  | none => []

/-- The listeners of a node, in the order in which they were registered. -/
def listeners (g : FlowGraph) (n : NodeId) : List ListenerId :=
  match g.nodes[n]? with
  | some node => node.listeners.toList
  | none => []

def type? (g : FlowGraph) (t : TypeId) : Option ExactType := g.types.get? t

def typeId? (g : FlowGraph) (t : ExactType) : Option TypeId := g.types.indexOf? t

def typesAt (g : FlowGraph) (n : NodeId) : List ExactType := (g.held n).filterMap g.type?

def holds (g : FlowGraph) (n : NodeId) (t : ExactType) : Bool :=
  match g.typeId? t with
  | some i => i ∈ g.held n
  | none => false

/-- Makes a node, whose position is the number of nodes before. -/
def newNode (g : FlowGraph) : NodeId × FlowGraph :=
  (g.nodes.size,
    { g with nodes := g.nodes.push {}, tally := { g.tally with nodes := g.tally.nodes + 1 } })

def newNodes (g : FlowGraph) : Nat → List NodeId × FlowGraph
  | 0 => ([], g)
  | k + 1 =>
    let (n, g) := g.newNode
    let (ns, g) := g.newNodes k
    (n :: ns, g)

/-- The number of a type, which is given out when the type is new. -/
def intern (g : FlowGraph) (t : ExactType) : TypeId × FlowGraph :=
  match g.types.indexOf? t with
  | some i => (i, g)
  | none => (g.types.size, { g with types := g.types.insert t })

/-- Whether `t` would be new at `n`. -/
def lacks (g : FlowGraph) (n t : Nat) : Bool :=
  g.hasNode n && t < g.types.size && t ∉ g.held n

/-- Puts `t` into the set of `n` and queues a notice for each listener. -/
def put (g : FlowGraph) (n : NodeId) (t : TypeId) : FlowGraph :=
  { g with
    nodes := g.nodes.modify n fun node => { node with held := node.held.insert t }
    pending := g.pending ++ (g.listeners n).map fun l => ⟨l, t⟩
    tally := { g.tally with arrivals := g.tally.arrivals + 1 } }

/-! ## What is still to come

The types that the nodes lack, each node weighted by `w`: with the number of
edges this bounds the work of a flood, with the number of listeners the
notices that can still be queued. -/

/-- How many of the types known so far a node lacks. -/
def lackCount (count : Nat) (node : FlowNode) : Nat :=
  ((List.range count).filter fun t => t ∉ node.held).length

def lackSum (w : FlowNode → Nat) (g : FlowGraph) : Nat :=
  sumOver (fun node => lackCount g.types.size node * w node) g.nodes.toList

theorem lackCount_insert {count : Nat} {node : FlowNode} {t : Nat} (ht : t < count)
    (hn : t ∉ node.held) :
    lackCount count { node with held := node.held.insert t } + 1 = lackCount count node := by
  unfold lackCount
  simp only [OrderedSet.mem_insert, ← List.countP_eq_length_filter]
  induction count with
  | zero => omega
  | succ k ih =>
    simp only [List.range_succ, List.countP_append, List.countP_singleton]
    by_cases hk : t = k
    · subst hk
      have : (List.range t).countP (fun x => decide ¬(x ∈ node.held ∨ x = t))
          = (List.range t).countP (fun x => decide (x ∉ node.held)) := by
        apply List.countP_congr
        intro x hx
        have : x ≠ t := Nat.ne_of_lt (List.mem_range.1 hx)
        simp [this]
      rw [this]
      simp [hn]
    · have := ih (by omega)
      have hk' : k ≠ t := fun h => hk h.symm
      simp only [hk', or_false]
      omega

/-- A type that arrives at a node is one less that the node lacks. -/
theorem lackSum_put {g : FlowGraph} {n t : Nat} {w : FlowNode → Nat} {node : FlowNode}
    (hw : ∀ x s, w { x with held := s } = w x) (hl : g.lacks n t) (hn : g.nodes[n]? = some node) :
    lackSum w (g.put n t) + w node = lackSum w g := by
  simp only [lacks, Bool.and_eq_true, decide_eq_true_eq, held, hn, OrderedSet.mem_toList] at hl
  have hc := lackCount_insert hl.1.2 hl.2
  have hs := sumOver_modify (fun x => lackCount g.types.size x * w x)
    (fun x => { x with held := x.held.insert t })
    (show g.nodes.toList[n]? = some node by rw [Array.getElem?_toList]; exact hn)
  have hm : lackCount g.types.size node * w node
      = lackCount g.types.size { node with held := node.held.insert t } * w node + w node := by
    rw [← hc, Nat.succ_mul]
  simp only [lackSum, put, Array.toList_modify]
  have hw' := hw node (node.held.insert t)
  rw [hm, hw'] at hs
  omega

theorem exists_node_of_lacks {g : FlowGraph} {n t : Nat} (h : g.lacks n t) :
    ∃ node, g.nodes[n]? = some node := by
  rw [lacks, Bool.and_eq_true, Bool.and_eq_true, hasNode_iff] at h
  exact ⟨_, Array.getElem?_eq_getElem h.1.1⟩

/-- The steps that a flood with this work still has to make, at most. -/
def room (g : FlowGraph) : Nat := lackSum (fun node => node.out.size) g

/-- The notices that are queued or can still be queued while no type is met
for the first time and no listener registered. -/
def backlog (g : FlowGraph) : Nat := g.pending.length + lackSum (fun node => node.listeners.size) g

theorem room_put {g : FlowGraph} {n t : Nat} (h : g.lacks n t) :
    (g.put n t).room + (g.out n).length = g.room := by
  obtain ⟨node, hn⟩ := exists_node_of_lacks h
  have := lackSum_put (w := fun node => node.out.size) (fun _ _ => rfl) h hn
  simpa [room, out, hn, OrderedSet.size] using this

theorem backlog_put {g : FlowGraph} {n t : Nat} (h : g.lacks n t) :
    (g.put n t).backlog = g.backlog := by
  obtain ⟨node, hn⟩ := exists_node_of_lacks h
  have := lackSum_put (w := fun node => node.listeners.size) (fun _ _ => rfl) h hn
  simp only [backlog]
  rw [← this]
  simp only [put, listeners, hn, List.length_append, List.length_map, OrderedSet.size]
  omega

end FlowGraph

end TypeFlow
