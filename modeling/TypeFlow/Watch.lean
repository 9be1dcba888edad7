import TypeFlow.Analysis.Evict
import TypeFlow.Run

/-!
# Watching a file

A watch keeps one analysis alive while the file with its world is edited. Each
reload compares the new world with the one before and evicts only the classes
that changed. A file that cannot be loaded leaves everything as it is.
-/

namespace TypeFlow

inductive WatchStatus where
  | starting
  | watching
  | analyzing
  | error
  deriving DecidableEq, Repr

def WatchStatus.name : WatchStatus → String
  | starting => "Starting"
  | watching => "Watching"
  | analyzing => "Analyzing"
  | error => "Error"

structure WatchState where
  status : WatchStatus := .starting
  /-- How many runs there were; unbounded, like the count of reloads that failed. -/
  runs : Nat := 0
  failedReloads : Nat := 0
  lastChanged : List ClassName := []
  lastEviction? : Option Eviction := none
  lastError? : Option String := none
  deriving DecidableEq, Repr

structure Watch where
  request : Request
  world : World
  analysis : Analysis
  state : WatchState

namespace Watch

def start (r : Request) (file : FileContent) : Except RunError (Watch × Report) :=
  (r.analyzeFile file).map fun (world, analysis, report) =>
    ({ request := r, world, analysis, state := { status := .watching, runs := 1 } }, report)

/-- Where a watch stands after a run: an entry point that cannot be resolved
is an error, which the next change may mend. -/
def settleState (state : WatchState) (unresolved : List QualifiedMethod) : WatchState :=
  if unresolved.isEmpty then { state with status := .watching, lastError? := none }
  else
    let names := ", ".intercalate (unresolved.map QualifiedMethod.text)
    { state with status := .error, lastError? := some ("unresolved entry point " ++ names) }

/-- Analyses a new world in place of the one before. -/
def update (w : Watch) (newer : World) (changed : List ClassName) : Except RunError Report × Watch :=
  let (eviction, s) := (w.analysis.setWorld newer).evict changed
  let s := s.settle
  let w := { w with world := newer, analysis := s, state := { w.state with status := .analyzing } }
  match s.report? with
  | .error e => (.error (.result e), w)
  | .ok report =>
    let state := { w.state with
      runs := w.state.runs + 1, lastChanged := changed, lastEviction? := some eviction }
    (.ok report, { w with state := settleState state s.unresolvedEntries })

/-- Loads the file again; there is no report when no class changed. -/
def reload (w : Watch) (file : FileContent) : Except RunError (Option Report) × Watch :=
  match loadWorld file with
  | .error e => (.error (.load e), w)
  | .ok newer =>
    let changed := w.world.changed newer
    if changed.isEmpty then (.ok none, w)
    else
      let (result, w) := w.update newer changed
      (result.map some, w)

end Watch

end TypeFlow
