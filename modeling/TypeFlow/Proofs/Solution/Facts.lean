import TypeFlow.Proofs.Analysis.Step

/-!
# Facts

What an analysis finds out, told without node numbers. A node goes by what it
stands for (`Slot`) and a selector by the calls that it serves (`Chooser`), so
the facts of two analyses of one world can be compared, in whatever order
either of them found its own.

`Closed` collects the rules by which facts follow from each other. They speak
of a catalog and of settings and of nothing else.
-/

namespace TypeFlow

/-- What a node stands for. -/
inductive Slot where
  | root
  | param (m : QualifiedMethod) (index : Nat)
  | result (m : QualifiedMethod)
  | thrown (m : QualifiedMethod)
  | var (m : QualifiedMethod) (v : Local)
  | field (f : QualifiedField)
  | aggregate (t : DeclType)
  | pool (k : ItemKey)
  deriving DecidableEq

namespace Slot

def ofAggregate (t : DeclType) : Slot := if t.isRoot then root else aggregate t

def params (m : QualifiedMethod) : List Slot := (List.range (m.signature.params.length + 1)).map (param m)

def vars (m : QualifiedMethod) (count : Nat) : List Slot := (List.range count).map (var m)

end Slot

/-- The calls that share a selector: all those of a declared method, or those
on one local variable of a method. -/
structure Chooser where
  declared : QualifiedMethod
  site? : Option (QualifiedMethod × Local)
  deriving DecidableEq

namespace Chooser

def of (p : Precision) (caller : QualifiedMethod) (receiver : Local) (declared : QualifiedMethod) : Chooser :=
  match p with
  | .fast => ⟨declared, none⟩
  | .precise => ⟨declared, some (caller, receiver)⟩

def feed (κ : Chooser) : Slot :=
  match κ.site? with
  | none => .ofAggregate (.object κ.declared.owner)
  | some (caller, receiver) => .var caller receiver

def filter? (κ : Chooser) : Option ClassName := κ.site?.map fun _ => κ.declared.owner

end Chooser

structure SlotSite where
  receiver? : Option Slot
  args : List (Option Slot)
  result? : Option Slot
  thrown : Slot
  deriving DecidableEq

inductive Fact where
  | holds (x : Slot) (t : ExactType)
  | flow (x y : Slot)
  | cls (n : ClassName)
  | initialized (n : ClassName)
  | problem (p : Problem)
  | method (m : QualifiedMethod)
  /-- Some linked method goes by the name `m`. -/
  | named (m : QualifiedMethod)
  | field (f : QualifiedField)
  | aggregate (t : DeclType)
  | pool (k : ItemKey)
  | calls (m : QualifiedMethod) (key : CallKey) (κ : Chooser)
  | serves (κ : Chooser) (site : SlotSite)
  | target (κ : Chooser) (m : QualifiedMethod)
  deriving DecidableEq

/-! ## Calls -/

def callEnds {α : Type} (isStatic : Bool) (params : List α) (result thrown : α) (receiver? : Option α)
    (args : List (Option α)) (result? : Option α) (raised : α) : List (α × α) :=
  let receiver := match isStatic, receiver?, params with
    | false, some x, param :: _ => [(x, param)]
    | _, _, _ => []
  let args := (args.zip params.tail).filterMap fun (arg?, param) => arg?.map fun x => (x, param)
  let result := result?.toList.map fun x => (result, x)
  receiver ++ args ++ result ++ [(thrown, raised)]

theorem callEdges_eq (r : MethodRecord) (site : CallSite) :
    Analysis.callEdges r site = callEnds r.definition.isStatic r.params r.result r.thrown site.receiver? site.args
      site.result? site.thrown := by
  unfold Analysis.callEdges callEnds
  cases r.definition.isStatic <;> cases site.receiver? <;> cases r.params <;> rfl

theorem map_zip_filterMap {α β : Type} (L : α → β) (args : List (Option α)) (params : List α) :
    ((args.zip params).filterMap fun p => p.1.map fun x => (x, p.2)).map (Prod.map L L)
      = ((args.map (Option.map L)).zip (params.map L)).filterMap fun p => p.1.map fun x => (x, p.2) := by
  induction args generalizing params with
  | nil => rfl
  | cons arg? args ih =>
    cases params with
    | nil => rfl
    | cons param params => cases arg? <;> simpa using ih params

/-- Renaming the ends renames the connections. -/
theorem map_callEnds {α β : Type} (L : α → β) (isStatic : Bool) (params : List α) (result thrown : α)
    (receiver? : Option α) (args : List (Option α)) (result? : Option α) (raised : α) :
    (callEnds isStatic params result thrown receiver? args result? raised).map (Prod.map L L)
      = callEnds isStatic (params.map L) (L result) (L thrown) (receiver?.map L) (args.map (Option.map L))
        (result?.map L) (L raised) := by
  have hargs := map_zip_filterMap L args params.tail
  rw [List.map_tail] at hargs
  unfold callEnds
  simp only [List.map_append, hargs]
  cases isStatic <;> cases receiver? <;> cases params <;> cases result? <;> rfl

namespace Fact

def between (x? y? : Option Slot) : List Fact :=
  match x?, y? with
  | some x, some y => [flow x y]
  | _, _ => []

def appear (x? : Option Slot) (t : ExactType) : List Fact :=
  match x? with
  | some x => t.element.className?.toList.map cls ++ [holds x t, holds .root t]
  | none => []

def gathering (t : DeclType) : List Fact := if t.isRoot then [] else [aggregate t]

def pooling (k : ItemKey) : List Fact :=
  if k ≠ .object && k.carriesReferences then
    [pool .object, flow (.pool k) (.pool .object), flow (.pool .object) (.pool k)]
  else []

def naming (t : DeclType) : List Fact := t.className?.toList.map cls

end Fact

/-! ## What names lead to -/

namespace Catalog

variable (c : Catalog)

def method? (m : QualifiedMethod) : Option MethodDef := (c.find? m.owner).bind fun d => d.method? m.signature

def linking (m : QualifiedMethod) : List Fact :=
  match c.resolveMethod m with
  | some _ => [.named m]
  | none => .cls m.owner :: if (c.find? m.owner).isSome then [.problem (.missingMethod m)] else []

def accessing (f : QualifiedField) : List Fact :=
  match c.resolveField f with
  | some g => [.field g]
  | none => .cls f.owner :: if (c.find? f.owner).isSome then [.problem (.missingField f)] else []

def fieldSlot (f : QualifiedField) : Slot :=
  match c.resolveField f with
  | some g => .field g
  | none => .root

def initializing (n : ClassName) : List Fact := .cls n :: if (c.find? n).isSome then [.initialized n] else []

def joining (m : QualifiedMethod) (site : SlotSite) : List Fact :=
  match c.method? m with
  | some f => (callEnds f.isStatic (Slot.params m) (.result m) (.thrown m) site.receiver? site.args site.result?
      site.thrown).map fun e => .flow e.1 e.2
  | none => []

def calling (m : QualifiedMethod) (site : SlotSite) : List Fact :=
  c.linking m ++ match c.resolveMethod m with
    | some target => c.joining target site
    | none => []

def entering (object? : Option Slot) (m : QualifiedMethod) : List Fact :=
  c.linking m ++ match c.resolveMethod m with
    | some target => Fact.between object? (Slot.params target)[1]?
    | none => []

def monitoring (o : Settings) (object? : Option Slot) : List Fact :=
  (Analysis.monitorMethods o.asyncMonitors).flatMap (c.entering object?)

def starting (m : QualifiedMethod) : List Fact :=
  c.linking m ++ match c.resolveMethod m with
    | some target => if (c.method? target).any MethodDef.isStatic then c.initializing target.owner else []
    | none => []

def seeding (m : QualifiedMethod) (index : Nat) (t : ExactType) : List Fact :=
  match c.resolveMethod m with
  | some target => Fact.appear (Slot.params target)[index]? t
  | none => []

def consulting (t : DeclType) : List Fact :=
  match t.base with
  | .object n => if n = objectClass then [] else if (c.find? n).isNone then [.cls n] else []
  | _ => []

/-- The aggregate of a type flows into those of its direct supertypes, or into the root. -/
def wiring (t : DeclType) : List Fact :=
  let supers := Analysis.directSupertypes c.find? t
  c.consulting t ++ if supers.isEmpty then [.flow (.aggregate t) .root]
    else supers.flatMap fun super => Fact.gathering super ++ [.flow (.aggregate t) (.ofAggregate super)]

end Catalog

/-! ## What bodies entail -/

structure Scene where
  caller : QualifiedMethod
  locals : Nat

namespace Scene

def slot? (b : Scene) (v : Local) : Option Slot := if v < b.locals then some (.var b.caller v) else none

def site (b : Scene) (dst? instance? : Option Local) (args : List Local) : SlotSite where
  receiver? := instance?.bind b.slot?
  args := args.map b.slot?
  result? := dst?.bind b.slot?
  thrown := .thrown b.caller

end Scene

namespace Catalog

variable (c : Catalog) (o : Settings)

def fieldAccess (instance? : Option Local) (f : QualifiedField) : List Fact :=
  (if instance?.isNone then c.initializing f.owner else []) ++ c.accessing f

def call (b : Scene) (dst? instance? : Option Local) (callee : QualifiedMethod) (args : List Local)
    (binding : Binding) : List Fact :=
  match binding.receiver?, instance? with
  | some owner, some receiver =>
    let κ := Chooser.of o.precision b.caller receiver ⟨owner, callee.signature⟩
    [.calls b.caller ⟨receiver, callee.signature⟩ κ, .serves κ (b.site dst? instance? args)]
  | _, _ => (if binding = .static then c.initializing callee.owner else [])
      ++ c.calling callee (b.site dst? instance? args)

def entails (b : Scene) : Instr → List Fact
  | .move dst src => Fact.between (b.slot? src) (b.slot? dst)
  | .cast dst src target => Fact.naming target ++ Fact.between (b.slot? src) (b.slot? dst)
  | .textConst dst _ => Fact.appear (b.slot? dst) (.ofClass stringClass)
  | .classConst dst constant => Fact.naming constant ++ Fact.appear (b.slot? dst) (.ofClass classClass)
  | .new dst cls => Fact.appear (b.slot? dst) (.ofClass cls)
  | .newArray dst item _ => (ExactType.ofDecl? (.array item)).toList.flatMap (Fact.appear (b.slot? dst))
  | .newMultiArray dst type lengths => (ExactType.ofDecl? type).toList.flatMap fun t =>
      Fact.appear (b.slot? dst) t ++ (Analysis.innerArrays t lengths.length).flatMap fun inner =>
        .pool (.ofType inner.toDecl) :: Fact.appear (some (.pool (.ofType inner.toDecl))) inner
  | .loadField dst instance? f _ =>
      c.fieldAccess instance? f ++ Fact.between (some (c.fieldSlot f)) (b.slot? dst)
  | .storeField instance? f src _ =>
      c.fieldAccess instance? f ++ Fact.between (b.slot? src) (some (c.fieldSlot f))
  | .loadItem dst _ type =>
      if type.isReference then
        .pool (.ofType type) :: Fact.between (some (.pool (.ofType type))) (b.slot? dst)
      else []
  | .storeItem _ _ src type =>
      if type.isReference then
        .pool (.ofType type) :: Fact.between (b.slot? src) (some (.pool (.ofType type)))
      else []
  | .cloneArray dst array => Fact.between (b.slot? array) (b.slot? dst)
  | .call dst? instance? callee args binding => c.call o b dst? instance? callee args binding
  | .instanceTest _ _ tested => Fact.naming tested
  | .initClass cls => c.initializing cls
  | .phi dst sources => sources.flatMap fun src => Fact.between (b.slot? src) (b.slot? dst)
  | .enterMonitor object => c.monitoring o (b.slot? object)
  | .exitMonitor object => c.monitoring o (b.slot? object)
  | .ret value? => Fact.between (value?.bind b.slot?) (some (.result b.caller))
  | .raise exception => Fact.between (b.slot? exception) (some (.thrown b.caller))
  | _ => []

def handling (b : Scene) (h : Handler) : List Fact :=
  h.catches.toList.map .cls ++ Fact.between (some (.thrown b.caller)) (h.dst?.bind b.slot?)

def blockFacts (b : Scene) (block : Block) : List Fact :=
  block.instrs.flatMap (c.entails o b) ++ block.handlers.flatMap (handling b)

def bodyFacts (m : QualifiedMethod) (body : Body) : List Fact :=
  ((Slot.params m).zip (Slot.vars m body.locals)).map (fun e => .flow e.1 e.2)
    ++ body.blocks.flatMap (c.blockFacts o ⟨m, body.locals⟩)

def methodFacts (m : QualifiedMethod) : List Fact :=
  match c.method? m with
  | some f => f.body?.toList.flatMap (c.bodyFacts o m)
      ++ if f.isSynchronized then c.monitoring o none else []
  | none => []

/-! ## Rules -/

/-- The class initializer is linked with the class, where there is one and it is asked for. -/
def initializer (n : ClassName) : List Fact :=
  if o.classInitializers && (c.method? ⟨n, .classInitializer⟩).isSome then c.linking ⟨n, .classInitializer⟩ else []

def consequences : Fact → List Fact
  | .cls n => match c.find? n with
    | some d => d.supertypes.map .cls
    | none => [.problem (.missingClass n)]
  | .initialized n => c.initializer o n ++ ((c.find? n).bind ClassDef.superclass?).toList.flatMap c.initializing
  | .named m => match c.resolveMethod m with
    | some target => [.cls target.owner, .method target, .named target]
    | none => []
  | .method m => c.methodFacts o m
  | .field f => [.cls f.owner]
  | .aggregate t => c.wiring t
  | .pool k => Fact.pooling k
  | _ => []

structure Closed (K : Fact → Prop) : Prop where
  follows : ∀ {φ ψ}, K φ → ψ ∈ c.consequences o φ → K ψ
  carry : ∀ {x y t}, K (.holds x t) → K (.flow x y) → K (.holds y t)
  aggregate : ∀ {t φ}, K (.holds .root t) → φ ∈ Fact.gathering t.toDecl → K φ
  gather : ∀ {t}, K (.holds .root t) → K (.holds (.ofAggregate t.toDecl) t)
  attach : ∀ {κ site φ}, K (.serves κ site) → κ.site? = none →
    φ ∈ Fact.gathering (.object κ.declared.owner) → K φ
  choose : ∀ {κ site t m}, K (.serves κ site) → K (.holds κ.feed t) →
    c.pick κ.declared κ.filter? t = some m → K (.target κ m)
  link : ∀ {κ m}, K (.target κ m) → K (.named m)
  join : ∀ {κ site m φ}, K (.target κ m) → K (.serves κ site) → φ ∈ c.joining m site → K φ

end Catalog

end TypeFlow
