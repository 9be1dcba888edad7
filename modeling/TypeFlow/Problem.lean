import TypeFlow.OrderedSet
import TypeFlow.Signature

/-!
# Problems

What the analysis found to be missing from the closed world. A problem is
reported once, in the order in which it was met.
-/

namespace TypeFlow

inductive Problem where
  | missingClass (name : ClassName)
  | missingMethod (method : QualifiedMethod)
  | missingField (field : QualifiedField)
  | missingEntry (method : QualifiedMethod)
  deriving DecidableEq, Repr

namespace Problem

/-- The word under which the kind of problem is written. -/
def kind : Problem → String
  | missingClass _ => "class_not_found"
  | missingMethod _ => "method_not_found"
  | missingField _ => "field_not_found"
  | missingEntry _ => "entry_point_not_found"

def subject : Problem → String
  | missingClass name => name
  | missingMethod method => method.text
  | missingField field => field.text
  | missingEntry method => method.text

def text : Problem → String
  | missingClass name => "class " ++ name ++ " not found"
  | missingMethod method => "method " ++ method.text ++ " not found"
  | missingField field => "field " ++ field.text ++ " not found"
  | missingEntry method => "entry point " ++ method.text ++ " not found"

instance : ToString Problem := ⟨text⟩

end Problem

abbrev Problems := OrderedSet Problem

end TypeFlow
