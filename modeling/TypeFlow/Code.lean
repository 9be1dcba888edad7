import TypeFlow.Signature

/-!
# Method bodies

A body is a number of local variables and a list of blocks; a block is a list
of instructions and the exception handlers that guard them.
-/

namespace TypeFlow

abbrev Local := Nat

abbrev BlockIndex := Nat

/-- How a call finds the method to run. A virtual or interface call names the
declared class of its receiver. -/
inductive Binding where
  | static
  | special
  | virtual (owner : ClassName)
  | interface (owner : ClassName)
  deriving DecidableEq, Repr

namespace Binding

/-- The declared receiver class of a call that is resolved at run time. -/
def receiver? : Binding → Option ClassName
  | virtual owner => some owner
  | interface owner => some owner
  | _ => none

def isDynamic (b : Binding) : Bool := b.receiver?.isSome

end Binding

/-- Instructions; a local variable called `dst` is the one written. -/
inductive Instr where
  | move (dst src : Local)
  | cast (dst src : Local) (target : DeclType)
  | nullConst (dst : Local)
  | textConst (dst : Local) (value : String)
  | classConst (dst : Local) (constant : DeclType)
  | new (dst : Local) (cls : ClassName)
  | newArray (dst : Local) (item : DeclType) (length : Local)
  | newMultiArray (dst : Local) (type : DeclType) (lengths : List Local)
  | loadField (dst : Local) (instance? : Option Local) (field : QualifiedField) (type : DeclType)
  | storeField (instance? : Option Local) (field : QualifiedField) (src : Local) (type : DeclType)
  | loadItem (dst array : Local) (type : DeclType)
  | storeItem (array index src : Local) (type : DeclType)
  | cloneArray (dst array : Local)
  | call (dst? instance? : Option Local) (callee : QualifiedMethod) (args : List Local) (binding : Binding)
  | instanceTest (dst src : Local) (tested : DeclType)
  | initClass (cls : ClassName)
  | phi (dst : Local) (sources : List Local)
  | enterMonitor (object : Local)
  | exitMonitor (object : Local)
  | jump (target : BlockIndex)
  | branch (condition : Local) (thenBlock elseBlock : BlockIndex)
  | ret (value? : Option Local)
  | raise (exception : Local)
  deriving DecidableEq, Repr

/-- An exception handler: what it catches (everything, when it names no
class), where it continues and which local variable gets the exception. -/
structure Handler where
  catches : Option ClassName
  target : BlockIndex
  dst? : Option Local
  deriving DecidableEq, Repr

structure Block where
  instrs : List Instr
  handlers : List Handler
  deriving DecidableEq, Repr

structure Body where
  locals : Nat
  blocks : List Block
  deriving DecidableEq, Repr

namespace Body

def instrs (b : Body) : List Instr := b.blocks.flatMap Block.instrs

def handlers (b : Body) : List Handler := b.blocks.flatMap Block.handlers

def mapInstrs (f : Instr → Instr) (b : Body) : Body :=
  { b with blocks := b.blocks.map fun block => { block with instrs := block.instrs.map f } }

end Body

end TypeFlow
