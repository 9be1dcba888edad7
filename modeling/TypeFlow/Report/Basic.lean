import TypeFlow.Devirtualize
import TypeFlow.Report.CallProfile

/-!
# Reachability reports

What a settled analysis found: the reachable classes, methods and fields, how
the dynamic calls resolved, what devirtualisation would achieve, and what is
missing from the world.
-/

namespace TypeFlow

structure MethodReport where
  reference : String
  hasBody : Bool
  locals : Nat
  calls : Nat
  targets : Nat
  deriving DecidableEq, Repr

structure Report where
  generation : Nat
  precision : Precision
  classes : List ClassName
  methods : List MethodReport
  fields : List String
  calls : CallProfile
  devirtualization : DevirtTally
  flow : FlowTally
  problems : List Problem

namespace Report

def methodsWithBody (r : Report) : Nat := (r.methods.filter MethodReport.hasBody).length

end Report

namespace Analysis

/-- The number of targets of each group of dynamic calls in a method. -/
def targetCounts (s : Analysis) (r : MethodRecord) : List Nat :=
  r.calls.keys.map fun key => (s.targetsAt r key).length

def methodReport (s : Analysis) (r : MethodRecord) : MethodReport :=
  let counts := s.targetCounts r
  { reference := r.reference.text
    hasBody := r.hasBody
    locals := r.locals.size
    calls := counts.length
    targets := sumOver id counts }

def toReport (s : Analysis) : Report :=
  { generation := s.generation
    precision := s.settings.precision
    classes := World.sortNames s.reachableClasses
    methods := s.methods.toList.map s.methodReport
    fields := World.sortNames (s.reachableFields.map QualifiedField.text)
    calls := .ofTargets (s.methods.toList.flatMap s.targetCounts)
    devirtualization := s.devirtTally
    flow := s.graph.tally
    problems := s.problems.toList }

def report? (s : Analysis) : Except ResultError Report := s.whenSettled fun _ => s.toReport

end Analysis

end TypeFlow
