import TypeFlow.Analysis.Result

/-!
# Devirtualisation

A dynamic call that can run exactly one method is rewritten to call that
method directly. Calls that were not reached and calls with several targets
stay as they are.
-/

namespace TypeFlow

/-- Counts of the dynamic calls looked at and of what became of them. -/
structure DevirtTally where
  examined : Nat := 0
  devirtualized : Nat := 0
  polymorphic : Nat := 0
  unreachable : Nat := 0
  deriving DecidableEq, Repr

instance : Inhabited DevirtTally := ⟨{}⟩

namespace DevirtTally

def add (a b : DevirtTally) : DevirtTally :=
  ⟨a.examined + b.examined, a.devirtualized + b.devirtualized, a.polymorphic + b.polymorphic,
    a.unreachable + b.unreachable⟩

instance : Add DevirtTally := ⟨add⟩

def ofTargets : List QualifiedMethod → DevirtTally
  | [] => { examined := 1, unreachable := 1 }
  | [_] => { examined := 1, devirtualized := 1 }
  | _ => { examined := 1, polymorphic := 1 }

end DevirtTally

namespace Instr

def dynamicCall? : Instr → Option CallKey
  | call _ (some receiver) callee _ binding =>
    if binding.isDynamic then some ⟨receiver, callee.signature⟩ else none
  | _ => none

def direct (i : Instr) (target : QualifiedMethod) : Instr :=
  match i with
  | call dst? instance? _ args _ => call dst? instance? target args .special
  | i => i

def devirtualize (targets : CallKey → List QualifiedMethod) (i : Instr) : Instr :=
  match i.dynamicCall? with
  | some key =>
    match targets key with
    | [target] => i.direct target
    | _ => i
  | none => i

end Instr

namespace Body

def devirtualize (targets : CallKey → List QualifiedMethod) (b : Body) : Body :=
  b.mapInstrs (Instr.devirtualize targets)

def devirtTally (targets : CallKey → List QualifiedMethod) (b : Body) : DevirtTally :=
  (b.instrs.filterMap Instr.dynamicCall?).foldl (fun n key => n + .ofTargets (targets key)) {}

end Body

namespace Analysis

/-- Rewrites a body as the body of a method, and counts. A method that is not
linked tells nothing about its calls. -/
def devirtualizeBody (s : Analysis) (m : QualifiedMethod) (b : Body) : Body × DevirtTally :=
  match s.method? m with
  | some r => (b.devirtualize (s.targetsAt r), b.devirtTally (s.targetsAt r))
  | none => (b, {})

/-- The linked methods that have a body, each with its body rewritten. -/
def devirtualizedBodies (s : Analysis) : List (QualifiedMethod × Body × DevirtTally) :=
  s.methods.toList.filterMap fun r =>
    r.definition.body?.map fun b => (r.reference, s.devirtualizeBody r.reference b)

def devirtTally (s : Analysis) : DevirtTally :=
  s.devirtualizedBodies.foldl (fun n e => n + e.2.2) {}

end Analysis

end TypeFlow
