/-!
# Settings of an analysis
-/

namespace TypeFlow

/-- How receivers of dynamic calls are told apart: by their declared class
alone, or call site by call site. -/
inductive Precision where
  | fast
  | precise
  deriving DecidableEq, Repr

structure Settings where
  precision : Precision := .fast
  /-- Whether monitors also have the waiting entry and exit methods. -/
  asyncMonitors : Bool := false
  /-- Whether initialising a class links its initialiser method. -/
  classInitializers : Bool := true
  deriving DecidableEq, Repr

instance : Inhabited Settings := ⟨{}⟩

end TypeFlow
