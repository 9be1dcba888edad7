import TypeFlow.Analysis.State

/-!
# Eviction

Types cannot be taken back from a flow graph, so forgetting a class starts a
new generation: all that was derived is dropped, the entry points and the
answers of the hierarchy that did not look at a stale class are kept.
-/

namespace TypeFlow

/-- Counts of what an eviction dropped because of stale classes. -/
structure Eviction where
  classes : Nat
  methods : Nat
  fields : Nat
  aggregates : Nat
  selectors : Nat
  remembered : Nat
  deriving DecidableEq, Repr

namespace Analysis

def selectorTouches (stale : List ClassName) (sel : Selector) : Bool :=
  sel.declared.owner ∈ stale || sel.targets.toList.any fun target => target.owner ∈ stale

/-- Starts a new generation, with the entry points still to be linked. -/
def restart (s : Analysis) : Analysis :=
  { settings := s.settings
    hierarchy := s.hierarchy
    graph := initialGraph
    listeners := #[.aggregation]
    entries := s.entries
    reseed := true
    generation := s.generation + 1
    observations := s.observations }

def evict (s : Analysis) (names : List ClassName) : Eviction × Analysis :=
  let stale := (OrderedSet.ofList names).toList
  let hierarchy := s.hierarchy.evict stale
  let eviction : Eviction :=
    { classes := stale.length
      methods := (s.methods.toList.filter fun r => r.reference.owner ∈ stale).length
      fields := (s.fields.keys.filter fun f => f.owner ∈ stale).length
      aggregates := (s.aggregates.keys.filter fun t => t.className?.any fun n => n ∈ stale).length
      selectors := (s.selectors.toList.filter (selectorTouches stale)).length
      remembered := s.hierarchy.size - hierarchy.size }
  (eviction, { s with hierarchy }.restart)

end Analysis

end TypeFlow
