/-!
# Call profiles

How many of the dynamic calls have no target, one target, a few or many.
-/

namespace TypeFlow

structure CallProfile where
  unreachable : Nat := 0
  monomorphic : Nat := 0
  polymorphic : Nat := 0
  megamorphic : Nat := 0
  deriving DecidableEq, Repr

instance : Inhabited CallProfile := ⟨{}⟩

namespace CallProfile

/-- A call with more targets than this is megamorphic. -/
def fewTargets : Nat := 4

def add (p : CallProfile) (targets : Nat) : CallProfile :=
  if targets = 0 then { p with unreachable := p.unreachable + 1 }
  else if targets = 1 then { p with monomorphic := p.monomorphic + 1 }
  else if targets ≤ fewTargets then { p with polymorphic := p.polymorphic + 1 }
  else { p with megamorphic := p.megamorphic + 1 }

def ofTargets (counts : List Nat) : CallProfile := counts.foldl add {}

def total (p : CallProfile) : Nat := p.unreachable + p.monomorphic + p.polymorphic + p.megamorphic

/-- The share of calls with one target among the reached ones, in percent;
where none was reached, all of them. -/
def monomorphicPercentage (p : CallProfile) : Float :=
  let reached := p.total - p.unreachable
  if reached = 0 then 100.0 else p.monomorphic.toFloat / reached.toFloat * 100.0

end CallProfile

end TypeFlow
