import TypeFlow.Code
import TypeFlow.Document.Basic

/-!
# Bodies as documents

An instruction is an object whose member `op` names the kind of instruction
and whose other members are the operands. An instruction is held in memory
before its operands are read, so it may not nest too deeply, and every text
and number in it has to be one that can be held.
-/

namespace TypeFlow

namespace Reading

/-- A variable that may be missing or null. -/
def local? (r : Record) (name : String) : Located (Option Local) :=
  match r.find? name with
  | some (position, j) => .ofReading position (nullable nat j)
  | none => if r.positional then r.lack name else .ok none

/-- A binding is a text, or an object with one member that names the class of
the receiver. -/
def binding : Json → Reading Binding
  | .text "static" => .ok .static
  | .text "special" => .ok .special
  | .text "virtual" => .error .malformed
  | .text "interface" => .error .malformed
  | .text name => .error (.unknownVariant name ["static", "special", "virtual", "interface"])
  | .object [(name, j)] =>
    match name, j with
    | "static", .null => .ok .static
    | "static", .object [] => .ok .static
    | "static", _ => .error .malformed
    | "special", .null => .ok .special
    | "special", .object [] => .ok .special
    | "special", _ => .error .malformed
    | "virtual", j => .virtual <$> text j
    | "interface", j => .interface <$> text j
    | name, _ => .error (.unknownVariant name ["static", "special", "virtual", "interface"])
  | _ => .error .malformed

/-- The kinds of instructions, each with the names of its operands and the way
to read them. -/
def instrForms : List (String × List String × (Record → Located Instr)) :=
  [("assign", ["receiver", "assignee"], fun r =>
      .move <$> r.required "receiver" nat <*> r.required "assignee" nat),
    ("cast", ["receiver", "value", "target_type"], fun r =>
      .cast <$> r.required "receiver" nat <*> r.required "value" nat <*> r.required "target_type" type),
    ("null_constant", ["receiver"], fun r => .nullConst <$> r.required "receiver" nat),
    ("string_constant", ["receiver", "value"], fun r =>
      .textConst <$> r.required "receiver" nat <*> r.required "value" text),
    ("class_constant", ["receiver", "constant"], fun r =>
      .classConst <$> r.required "receiver" nat <*> r.required "constant" type),
    ("construct", ["receiver", "class"], fun r =>
      .new <$> r.required "receiver" nat <*> r.required "class" text),
    ("construct_array", ["receiver", "item_type", "size"], fun r =>
      .newArray <$> r.required "receiver" nat <*> r.required "item_type" type <*> r.required "size" nat),
    ("construct_multi_array", ["receiver", "array_type", "dimensions"], fun r =>
      .newMultiArray <$> r.required "receiver" nat <*> r.required "array_type" type
        <*> r.required "dimensions" (list nat)),
    ("get_field", ["receiver", "instance", "field", "field_type"], fun r =>
      .loadField <$> r.required "receiver" nat <*> local? r "instance" <*> r.required "field" field
        <*> r.required "field_type" type),
    ("put_field", ["instance", "field", "value", "field_type"], fun r =>
      .storeField <$> local? r "instance" <*> r.required "field" field <*> r.required "value" nat
        <*> r.required "field_type" type),
    ("get_element", ["receiver", "array", "element_type"], fun r =>
      .loadItem <$> r.required "receiver" nat <*> r.required "array" nat <*> r.required "element_type" type),
    ("put_element", ["array", "index", "value", "element_type"], fun r =>
      .storeItem <$> r.required "array" nat <*> r.required "index" nat <*> r.required "value" nat
        <*> r.required "element_type" type),
    ("clone_array", ["receiver", "array"], fun r =>
      .cloneArray <$> r.required "receiver" nat <*> r.required "array" nat),
    ("invoke", ["receiver", "instance", "method", "arguments", "dispatch"], fun r =>
      .call <$> local? r "receiver" <*> local? r "instance" <*> r.required "method" method
        <*> r.required "arguments" (list nat) <*> r.required "dispatch" binding),
    ("is_instance", ["receiver", "value", "tested_type"], fun r =>
      .instanceTest <$> r.required "receiver" nat <*> r.required "value" nat <*> r.required "tested_type" type),
    ("init_class", ["class"], fun r => .initClass <$> r.required "class" text),
    ("phi", ["receiver", "incomings"], fun r =>
      .phi <$> r.required "receiver" nat <*> r.required "incomings" (list nat)),
    ("monitor_enter", ["object"], fun r => .enterMonitor <$> r.required "object" nat),
    ("monitor_exit", ["object"], fun r => .exitMonitor <$> r.required "object" nat),
    ("jump", ["target"], fun r => .jump <$> r.required "target" nat),
    ("branch", ["condition", "consequent", "alternative"], fun r =>
      .branch <$> r.required "condition" nat <*> r.required "consequent" nat <*> r.required "alternative" nat),
    ("return", ["value"], fun r => .ret <$> local? r "value"),
    ("raise", ["exception"], fun r => .raise <$> r.required "exception" nat)]

def depthLimit : Nat := 127

def instrParts : Json → Reading (Json × Json)
  | .object members =>
    match members.filter fun m => m.1 = "op" with
    | [] => .error (.missingField "op")
    | (_, op) :: more => do
      let name ← text op
      let _ ← choose instrForms name
      if more.isEmpty then .ok (op, .object (members.filter fun m => m.1 ≠ "op"))
      else .error (.duplicateField "op")
  | .array [] => .error (.missingField "op")
  | .array (op :: operands) => .ok (op, .array operands)
  | _ => .error .malformed

/-- Reads an instruction that stands inside `level` arrays and objects. -/
def instr (level : Nat) (j : Json) : Reading Instr := do
  if depthLimit < level + j.depth || !j.holdable then .error .malformed
  else
    let (op, operands) ← instrParts j
    let name ← text op
    let (fields, body) ← choose instrForms name
    Record.read fields body operands

def handler : Json → Reading Handler :=
  Record.read ["exception_type", "handler", "exception_variable"] fun r =>
    Handler.mk <$> r.defaulted "exception_type" none (nullable text) <*> r.required "handler" nat
      <*> r.defaulted "exception_variable" none (nullable nat)

def block (level : Nat) : Json → Reading Block :=
  Record.read ["instructions", "try_catches"] fun r =>
    Block.mk <$> r.required "instructions" (list (instr (level + 2)))
      <*> r.defaulted "try_catches" [] (list handler)

def body (level : Nat) : Json → Reading Body :=
  Record.read ["variable_count", "blocks"] fun r =>
    Body.mk <$> r.required "variable_count" nat <*> r.required "blocks" (list (block (level + 2)))

end Reading

/-! ## Writing -/

def Json.ofNat? : Option Nat → Json
  | some n => .nat n
  | none => .null

def Binding.toJson : Binding → Json
  | .static => .text "static"
  | .special => .text "special"
  | .virtual owner => .object [("virtual", .text owner)]
  | .interface owner => .object [("interface", .text owner)]

def Instr.members : Instr → String × List (String × Json)
  | move dst src => ("assign", [("receiver", .nat dst), ("assignee", .nat src)])
  | cast dst src target =>
    ("cast", [("receiver", .nat dst), ("value", .nat src), ("target_type", .text target.text)])
  | nullConst dst => ("null_constant", [("receiver", .nat dst)])
  | textConst dst value => ("string_constant", [("receiver", .nat dst), ("value", .text value)])
  | classConst dst constant => ("class_constant", [("receiver", .nat dst), ("constant", .text constant.text)])
  | new dst cls => ("construct", [("receiver", .nat dst), ("class", .text cls)])
  | newArray dst item length =>
    ("construct_array", [("receiver", .nat dst), ("item_type", .text item.text), ("size", .nat length)])
  | newMultiArray dst type lengths =>
    ("construct_multi_array",
      [("receiver", .nat dst), ("array_type", .text type.text), ("dimensions", .ofNats lengths)])
  | loadField dst instance? field type =>
    ("get_field", [("receiver", .nat dst), ("instance", .ofNat? instance?), ("field", .text field.text),
      ("field_type", .text type.text)])
  | storeField instance? field src type =>
    ("put_field", [("instance", .ofNat? instance?), ("field", .text field.text), ("value", .nat src),
      ("field_type", .text type.text)])
  | loadItem dst array type =>
    ("get_element", [("receiver", .nat dst), ("array", .nat array), ("element_type", .text type.text)])
  | storeItem array index src type =>
    ("put_element", [("array", .nat array), ("index", .nat index), ("value", .nat src),
      ("element_type", .text type.text)])
  | cloneArray dst array => ("clone_array", [("receiver", .nat dst), ("array", .nat array)])
  | call dst? instance? callee args binding =>
    ("invoke", [("receiver", .ofNat? dst?), ("instance", .ofNat? instance?), ("method", .text callee.text),
      ("arguments", .ofNats args), ("dispatch", binding.toJson)])
  | instanceTest dst src tested =>
    ("is_instance", [("receiver", .nat dst), ("value", .nat src), ("tested_type", .text tested.text)])
  | initClass cls => ("init_class", [("class", .text cls)])
  | phi dst sources => ("phi", [("receiver", .nat dst), ("incomings", .ofNats sources)])
  | enterMonitor object => ("monitor_enter", [("object", .nat object)])
  | exitMonitor object => ("monitor_exit", [("object", .nat object)])
  | jump target => ("jump", [("target", .nat target)])
  | branch condition thenBlock elseBlock =>
    ("branch", [("condition", .nat condition), ("consequent", .nat thenBlock), ("alternative", .nat elseBlock)])
  | ret value? => ("return", [("value", .ofNat? value?)])
  | raise exception => ("raise", [("exception", .nat exception)])

def Instr.toJson (i : Instr) : Json := .object (("op", .text i.members.1) :: i.members.2)

def Handler.toJson (h : Handler) : Json :=
  .object [("exception_type", .ofText? h.catches), ("handler", .nat h.target),
    ("exception_variable", .ofNat? h.dst?)]

def Block.toJson (b : Block) : Json :=
  .object [("instructions", .array (b.instrs.map Instr.toJson)),
    ("try_catches", .array (b.handlers.map Handler.toJson))]

def Body.toJson (b : Body) : Json :=
  .object [("variable_count", .nat b.locals), ("blocks", .array (b.blocks.map Block.toJson))]

end TypeFlow
