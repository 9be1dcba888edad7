import TypeFlow.Document.Settings
import TypeFlow.Report.Basic

/-!
# Reports as documents
-/

namespace TypeFlow

def CallProfile.members (p : CallProfile) : List (String × Json) :=
  [("unreachable", .nat p.unreachable), ("monomorphic", .nat p.monomorphic),
    ("polymorphic", .nat p.polymorphic), ("megamorphic", .nat p.megamorphic)]

def DevirtTally.toJson (t : DevirtTally) : Json :=
  .object [("examined", .nat t.examined), ("devirtualized", .nat t.devirtualized),
    ("polymorphic", .nat t.polymorphic), ("unreachable", .nat t.unreachable)]

def FlowTally.toJson (t : FlowTally) : Json :=
  .object [("nodes", .nat t.nodes), ("edges", .nat t.edges), ("type_additions", .nat t.arrivals),
    ("consumer_deliveries", .nat t.deliveries)]

def MethodReport.toJson (m : MethodReport) : Json :=
  .object [("reference", .text m.reference), ("has_body", .bool m.hasBody), ("variables", .nat m.locals),
    ("call_sites", .nat m.calls), ("resolved_targets", .nat m.targets)]

namespace Report

def summaryToJson (r : Report) : Json :=
  .object [("classes", .nat r.classes.length), ("methods", .nat r.methods.length),
    ("methods_with_body", .nat r.methodsWithBody), ("fields", .nat r.fields.length),
    ("problems", .nat r.problems.length)]

def toJson (r : Report) : Json :=
  .object [("generation", .nat r.generation), ("mode", .text r.precision.name),
    ("summary", r.summaryToJson), ("classes", .ofTexts r.classes),
    ("methods", .array (r.methods.map MethodReport.toJson)), ("fields", .ofTexts r.fields),
    ("call_sites", .object r.calls.members), ("devirtualization", r.devirtualization.toJson),
    ("propagation", r.flow.toJson), ("diagnostics", .array (r.problems.map Problem.toJson))]

end Report

end TypeFlow
