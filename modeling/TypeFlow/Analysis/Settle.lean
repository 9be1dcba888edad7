import TypeFlow.Analysis.Bound
import TypeFlow.Analysis.Entry

/-!
# Running to the end

A run works in waves: it processes the methods at hand, and those that this
links, until none is left; then it runs the tasks that have come up, and
starts over. It ends with the wave after which no task is left.
-/

namespace TypeFlow

namespace Analysis

/-- Processes methods until none is left, `fuel` of them at most. -/
def processMethods : Nat → Analysis → Analysis
  | 0, s => s
  | fuel + 1, s =>
    match s.worklist with
    | [] => s
    | id :: rest => processMethods fuel ({ s with worklist := rest }.processMethod id)

/-- Runs the tasks at hand; those that come up meanwhile wait. -/
def runTasks (s : Analysis) : Analysis :=
  s.deferred.foldl (fun s task =>
    { s with tally := { s.tally with tasksRun := s.tally.tasksRun + 1 } }.runTask task)
    { s with deferred := [] }

/-- Runs waves until no task is left, `fuel` of them at most, with `methods`
methods to be processed at most in each. -/
def runWaves (methods : Nat) : Nat → Analysis → Analysis
  | 0, s => s
  | fuel + 1, s =>
    let s := { s with tally := { s.tally with waves := s.tally.waves + 1 } }
    let s := processMethods methods s
    if s.deferred.isEmpty then s else runWaves methods fuel s.runTasks

def settle (s : Analysis) : Analysis :=
  let s := s.reseedEntries
  runWaves s.methodBound (s.taskBound + 1) s

end Analysis

end TypeFlow
