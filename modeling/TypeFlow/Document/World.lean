import TypeFlow.Document.Code
import TypeFlow.World

/-!
# Worlds as documents

A document for a world has the one field `classes`. Of several classes of one
name the last one counts.
-/

namespace TypeFlow

def modifierNames : List (String × Modifier) :=
  [("abstract", .abstract), ("static", .static), ("final", .final), ("native", .native),
    ("synchronized", .synchronized), ("interface", .interface)]

def Modifier.name : Modifier → String
  | abstract => "abstract"
  | static => "static"
  | final => "final"
  | native => "native"
  | synchronized => "synchronized"
  | interface => "interface"

namespace Reading

def modifiers : Json → Reading (List Modifier) := list (variant modifierNames)

def fieldDef : Json → Reading FieldDef :=
  Record.read ["name", "type", "modifiers"] fun r =>
    FieldDef.mk <$> r.required "name" text <*> r.required "type" type
      <*> r.defaulted "modifiers" [] modifiers

def methodDef (level : Nat) : Json → Reading MethodDef :=
  Record.read ["descriptor", "modifiers", "program"] fun r =>
    MethodDef.mk <$> r.required "descriptor" signature <*> r.defaulted "modifiers" [] modifiers
      <*> r.defaulted "program" none (nullable (body (level + 1)))

def classDef (level : Nat) : Json → Reading ClassDef :=
  Record.read ["name", "parent", "interfaces", "modifiers", "fields", "methods"] fun r =>
    ClassDef.mk <$> r.required "name" text <*> r.defaulted "parent" none (nullable text)
      <*> r.defaulted "interfaces" [] (list text) <*> r.defaulted "modifiers" [] modifiers
      <*> r.defaulted "fields" [] (list fieldDef) <*> r.defaulted "methods" [] (list (methodDef (level + 2)))

def world : Json → Reading World :=
  Record.read ["classes"] fun r => World.ofList <$> r.required "classes" (list (classDef 2))

end Reading

/-! ## Writing -/

def modifiersToJson (l : List Modifier) : Json := .ofTexts (l.map Modifier.name)

def FieldDef.toJson (f : FieldDef) : Json :=
  .object [("name", .text f.name), ("type", .text f.type.text), ("modifiers", modifiersToJson f.modifiers)]

def MethodDef.toJson (m : MethodDef) : Json :=
  .object [("descriptor", .text m.signature.text), ("modifiers", modifiersToJson m.modifiers),
    ("program", (m.body?.map Body.toJson).getD .null)]

def ClassDef.toJson (c : ClassDef) : Json :=
  .object [("name", .text c.name), ("parent", .ofText? c.superclass?), ("interfaces", .ofTexts c.interfaces),
    ("modifiers", modifiersToJson c.modifiers), ("fields", .array (c.fields.map FieldDef.toJson)),
    ("methods", .array (c.methods.map MethodDef.toJson))]

def worldToJson (classes : List ClassDef) : Json :=
  .object [("classes", .array (classes.map ClassDef.toJson))]

end TypeFlow
