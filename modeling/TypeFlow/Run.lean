import TypeFlow.Analysis.Settle
import TypeFlow.Load
import TypeFlow.Report.Basic

/-!
# One run over a world

The analysis of the world in a file from one entry point.
-/

namespace TypeFlow

inductive RunError where
  | malformed (cause : Malformed)
  | load (cause : LoadError)
  | entry (cause : EntryError)
  | result (cause : ResultError)
  deriving DecidableEq, Repr

structure Request where
  entry : QualifiedMethod
  settings : Settings
  deriving DecidableEq, Repr

def mainParams : List DeclType := [.array (.object stringClass)]

namespace Analysis

/-- Adds an entry point; a main method is given an array of texts. -/
def seedEntry (s : Analysis) (m : QualifiedMethod) : Except EntryError Unit × Analysis :=
  match s.addEntry m with
  | (.error e, s) => (.error e, s)
  | (.ok _, s) =>
    if m.name = "main" && m.signature.params = mainParams then
      match s.seedParam m 1 ⟨.object stringClass, 1⟩ with
      | .ok s => (.ok (), s)
      | .error e => (.error e, s)
    else (.ok (), s)

end Analysis

namespace Request

def analyze (r : Request) (w : World) : Except RunError (Analysis × Report) :=
  match (Analysis.new w r.settings).seedEntry r.entry with
  | (.error e, _) => .error (.entry e)
  | (.ok (), s) =>
    let s := s.settle
    match s.report? with
    | .ok report => .ok (s, report)
    | .error e => .error (.result e)

def analyzeFile (r : Request) (file : FileContent) : Except RunError (World × Analysis × Report) :=
  match loadWorld file with
  | .error e => .error (.load e)
  | .ok w => (r.analyze w).map fun result => (w, result)

end Request

end TypeFlow
