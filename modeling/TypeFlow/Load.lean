import TypeFlow.Document.Settings
import TypeFlow.Document.World

/-!
# Loading files

A file is given by its bytes, or by nothing when it does not exist.
-/

namespace TypeFlow

abbrev FileContent := Option ByteArray

inductive LoadError where
  | notFound
  /-- The bytes are not UTF-8. -/
  | notText
  | document (cause : DocumentError)
  deriving DecidableEq, Repr

def loadDocument {α : Type} (read : Json → Reading α) : FileContent → Except LoadError α
  | none => .error .notFound
  | some bytes =>
    match String.fromUTF8? bytes with
    | none => .error .notText
    | some s =>
      match readDocument read s with
      | .ok a => .ok a
      | .error e => .error (.document e)

def loadWorld : FileContent → Except LoadError World := loadDocument Reading.world

/-- The settings in a file, or the usual ones when there is none; `precise`
overrides their precision. -/
def loadSettings (file? : Option FileContent) (precise : Bool) : Except LoadError Settings := do
  let settings ← match file? with
    | some file => loadDocument Reading.settings file
    | none => pure {}
  pure (if precise then { settings with precision := .precise } else settings)

end TypeFlow
