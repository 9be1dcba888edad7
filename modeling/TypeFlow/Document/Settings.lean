import TypeFlow.Document.Basic
import TypeFlow.ExactType
import TypeFlow.Problem
import TypeFlow.Settings

/-!
# Settings, exact types and problems as documents
-/

namespace TypeFlow

def Precision.name : Precision → String
  | fast => "fast"
  | precise => "precise"

namespace Reading

def precision : Json → Reading Precision := variant [("fast", .fast), ("precise", .precise)]

/-- Settings that are not given have their usual values. -/
def settings : Json → Reading Settings :=
  Record.read ["mode", "async_supported", "link_class_initializers"] fun r =>
    let usual : Settings := {}
    Settings.mk <$> r.defaulted "mode" usual.precision precision
      <*> r.defaulted "async_supported" usual.asyncMonitors bool
      <*> r.defaulted "link_class_initializers" usual.classInitializers bool

def exactType : Json → Reading ExactType :=
  Record.read ["element", "degree"] fun r =>
    ExactType.mk <$> r.required "element" type <*> r.required "degree" nat

end Reading

def Settings.toJson (s : Settings) : Json :=
  .object [("mode", .text s.precision.name), ("async_supported", .bool s.asyncMonitors),
    ("link_class_initializers", .bool s.classInitializers)]

def ExactType.toJson (t : ExactType) : Json :=
  .object [("element", .text t.element.text), ("degree", .nat t.dims)]

def Problem.toJson (p : Problem) : Json :=
  .object [("kind", .text p.kind), ("reference", .text p.subject)]

end TypeFlow
