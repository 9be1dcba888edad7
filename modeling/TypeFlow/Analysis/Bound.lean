import TypeFlow.Analysis.Transfer

/-!
# How much there can be to do

Bounds on what a run can still bring up. No method is processed that no class
declares, and every aggregate belongs to a type whose innermost class is named
somewhere and which has no more dimensions than some type has that is named
somewhere.
-/

namespace TypeFlow

/-- The types whose instances or aggregates an instruction may bring up. -/
def Instr.mentions : Instr → List DeclType
  | .textConst _ _ => [.object stringClass]
  | .classConst _ _ => [.object classClass]
  | .new _ cls => [.object cls]
  | .newArray _ item _ => [.array item]
  | .newMultiArray _ type _ => [type]
  | .call _ _ _ _ binding => binding.receiver?.toList.map .object
  | _ => []

def Instr.isCall : Instr → Bool
  | .call .. => true
  | _ => false

namespace Catalog

def classes (c : Catalog) : List ClassDef := c.names.filterMap c.find?

def instrs (c : Catalog) : List Instr :=
  c.classes.flatMap fun d => d.methods.flatMap fun m => match m.body? with
    | some body => body.instrs
    | none => []

end Catalog

namespace Analysis

/-- The methods that can still be processed, at most: those at hand and, as a
method is linked only once, those that some class declares. -/
def methodBound (s : Analysis) : Nat :=
  s.worklist.length + sumOver (fun d => d.methods.length) s.hierarchy.view.classes

/-- The types named by the world, by what was instantiated so far and by the
tasks at hand. -/
def mentioned (s : Analysis) : List DeclType :=
  s.hierarchy.view.instrs.flatMap Instr.mentions
    ++ s.hierarchy.view.classes.flatMap (fun d => d.supertypes.map .object)
    ++ s.graph.types.toList.map ExactType.toDecl
    ++ s.aggregates.keys
    ++ s.deferred.map fun
      | .wire t _ => t
      | .attach _ declared => .object declared

/-- The tasks that are at hand or can still come up, at most: one for each
aggregate and one for each shared selector. -/
def taskBound (s : Analysis) : Nat :=
  let types := s.mentioned
  let dims := (types.map DeclType.dims).foldl max 0
  s.deferred.length + types.length * (dims + 1) + (s.hierarchy.view.instrs.filter Instr.isCall).length

end Analysis

end TypeFlow
