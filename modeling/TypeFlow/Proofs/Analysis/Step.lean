import TypeFlow.Analysis.Evict
import TypeFlow.Devirtualize
import TypeFlow.Proofs.Analysis.Aftermath

/-!
# Steps of an analysis

Everything an analysis does to its state is a sequence of small steps, each
with the condition under which it is taken. Beside the state a step carries
the duties in hand: what was taken from a queue and is not done yet. Whatever
every step preserves, every operation preserves.
-/

namespace TypeFlow

/-- Who asks for a step: a run, the user of entry points, or a user of the graph. -/
inductive Actor where
  | analysis
  | driver
  | client
  deriving DecidableEq, Repr

inductive Duty where
  | notice (d : Notice)
  | task (t : Task)
  | body (id : MethodId)
  | link (target : QualifiedMethod)
  | join (site : CallSite) (target : QualifiedMethod)
  | pool (key : ItemKey)
  | prepare (name : ClassName)

/-! ## What selectors and instructions ask for -/

namespace SelectorKey

def declared : SelectorKey → QualifiedMethod
  | shared m => m
  | perSite _ _ m => m

/-- The class to which receivers have to be assignable. -/
def filter? : SelectorKey → Option ClassName
  | shared _ => none
  | perSite _ _ m => some m.owner

end SelectorKey

def Catalog.pick (c : Catalog) (declared : QualifiedMethod) (filter? : Option ClassName) (t : ExactType) :
    Option QualifiedMethod :=
  if filter?.all (c.isAssignable t) then
    t.dispatchClass?.bind fun receiver => c.resolveImplementation receiver declared.signature
  else none

theorem Catalog.pick_congr {c c' : Catalog} (h : ∀ q, c'.answer q = c.answer q) (declared : QualifiedMethod)
    (filter? : Option ClassName) (t : ExactType) : c'.pick declared filter? t = c.pick declared filter? t := by
  unfold pick
  simp only [funext (isAssignable_congr h t), resolveImplementation_congr h]

def Instr.brings : Instr → List ExactType
  | textConst _ _ => [.ofClass stringClass]
  | classConst _ _ => [.ofClass classClass]
  | new _ cls => [.ofClass cls]
  | newArray _ item _ => (ExactType.ofDecl? (.array item)).toList
  | newMultiArray _ type lengths =>
    match ExactType.ofDecl? type with
    | some t => t :: Analysis.innerArrays t lengths.length
    | none => []
  | _ => []

def Instr.selects : Instr → List QualifiedMethod
  | call _ (some _) callee _ binding => binding.receiver?.toList.map fun owner => ⟨owner, callee.signature⟩
  | _ => []

def CallSite.nodes (c : CallSite) : List NodeId :=
  c.receiver?.toList ++ c.args.flatMap Option.toList ++ c.result?.toList ++ [c.thrown]

/-- The entry point that a problem is about. Only the user of entry points reports such a problem. -/
def Problem.entry? : Problem → Option QualifiedMethod
  | missingEntry m => some m
  | _ => none

def MethodRecord.localCount (r : MethodRecord) : Nat := (r.definition.body?.map Body.locals).getD 0

theorem MethodRecord.localCount_of_body {r : MethodRecord} {body : Body} (hb : r.definition.body? = some body) :
    r.localCount = body.locals := by
  rw [localCount, hb]
  rfl

def MethodRecord.Calls (r : MethodRecord) (receiver : Local) (declared : QualifiedMethod) : Prop :=
  ∃ body, r.definition.body? = some body ∧
    ∃ i ∈ body.instrs, declared ∈ i.selects ∧ i.dynamicCall? = some ⟨receiver, declared.signature⟩

theorem MethodRecord.Calls.of_mem {r : MethodRecord} {body : Body} (hbody : r.definition.body? = some body)
    {dst? : Option Local} {receiver : Local} {callee : QualifiedMethod} {args : List Local} {binding : Binding}
    {owner : ClassName} (howner : binding.receiver? = some owner)
    (hi : .call dst? (some receiver) callee args binding ∈ body.instrs) :
    r.Calls receiver ⟨owner, callee.signature⟩ := by
  refine ⟨body, hbody, _, hi, ?_, ?_⟩
  · simp only [Instr.selects, howner, Option.toList_some, List.map_cons, List.map_nil, List.mem_singleton]
  · simp only [Instr.dynamicCall?, Binding.isDynamic, howner, Option.isSome_some, if_true]

theorem MethodRecord.Calls.grow {r r' : MethodRecord} {receiver : Local} {declared : QualifiedMethod}
    (h : r.Calls receiver declared) (hg : r.Grows r') : r'.Calls receiver declared := by
  unfold Calls
  rw [hg.definition]
  exact h

namespace Analysis

def InBody (s : Analysis) (p : Instr → Prop) : Prop :=
  ∃ (id : Nat) (r : MethodRecord) (body : Body),
    s.methods[id]? = some r ∧ r.definition.body? = some body ∧ ∃ i ∈ body.instrs, p i

theorem InBody.of_calls {s : Analysis} {id : Nat} {r : MethodRecord} {receiver : Local} {declared : QualifiedMethod}
    (hr : s.methods[id]? = some r) (h : r.Calls receiver declared) : s.InBody fun i => declared ∈ i.selects := by
  obtain ⟨body, hbody, i, hi, hselects, -⟩ := h
  exact ⟨id, r, body, hr, hbody, i, hi, hselects⟩

/-- The node whose types a selector picks for. -/
def feed? (s : Analysis) : SelectorKey → Option NodeId
  | .shared declared => s.aggregate? (.object declared.owner)
  | .perSite caller receiver _ => s.methods[caller]?.bind fun r => r.locals[receiver]?

def Feeds (s : Analysis) (id : SelectorId) (n : NodeId) : Prop :=
  ∃ key, s.selectorKeys.find? key = some id ∧ s.feed? key = some n

def Picked (s : Analysis) (id : SelectorId) (sel : Selector) (m : QualifiedMethod) : Prop :=
  ∃ n i t, s.Feeds id n ∧ i ∈ s.graph.held n ∧ s.graph.type? i = some t ∧
    s.hierarchy.Decides (fun c => c.pick sel.declared sel.filter? t) (some m)

/-- The types for which an analysis makes an aggregate by itself. -/
def Aggregable (s : Analysis) (t : DeclType) : Prop :=
  (∃ e ∈ s.graph.types, t = e.toDecl) ∨
  (∃ sub ∈ s.aggregates.keys, t ∈ directSupertypes s.hierarchy.lookup sub) ∨
  ∃ declared, .shared declared ∈ s.selectorKeys.keys ∧ t = .object declared.owner

def Rises (s : Analysis) (a b : NodeId) : Prop :=
  ∃ sub supers super, s.aggregates.find? sub = some a ∧
    s.hierarchy.Decides (fun c => directSupertypes c.find? sub) supers ∧ super ∈ supers ∧
      s.aggregate? super = some b

/-- Whether a problem may be reported: the class of a reference is there, and the reference leads nowhere. A missing
class is reported when it is linked. -/
def Warrants (s : Analysis) : Problem → Prop
  | .missingClass _ => False
  | .missingMethod m => s.isPresent m.owner = true ∧ s.hierarchy.Decides (fun c => c.resolveMethod m) none
  | .missingField f => s.isPresent f.owner = true ∧ s.hierarchy.Decides (fun c => c.resolveField f) none
  | .missingEntry _ => True

/-! ## Duties -/

def Owes (s : Analysis) : Duty → Prop
  | .notice d => ∃ n, d.listener ∈ s.graph.listeners n ∧ d.type ∈ s.graph.held n
  | .task (.wire t node) => s.aggregates.find? t = some node
  | .task (.attach id owner) => ∃ declared, s.selectorKeys.find? (.shared declared) = some id ∧
      declared.owner = owner
  | .body id => id < s.methods.size
  | .link m => ∃ (id : Nat) (sel : Selector), s.selectors[id]? = some sel ∧ m ∈ sel.targets
  | .join site m => ∃ (id : Nat) (sel : Selector), s.selectors[id]? = some sel ∧ site ∈ sel.sites ∧ m ∈ sel.targets
  | .pool key => key ∈ s.itemPools.keys
  | .prepare name => ∃ r, s.classes.find? name = some r ∧ r.initialized = true

def Queues (s : Analysis) : Duty → Prop
  | .notice d => d ∈ s.graph.pending
  | .task t => t ∈ s.deferred
  | .body id => id ∈ s.worklist
  | .link _ => False
  | .join _ _ => False
  | .pool _ => False
  | .prepare _ => False

def Served (s : Analysis) (l : Listener) (i : TypeId) (t : ExactType) : Prop :=
  match l with
  | .aggregation => ∃ n, s.aggregate? t.toDecl = some n ∧ i ∈ s.graph.held n
  | .selector id => ∃ sel answer, s.selectors[id]? = some sel ∧
      s.hierarchy.Decides (fun c => c.pick sel.declared sel.filter? t) answer ∧
      ∀ m, answer = some m → m ∈ sel.targets
  | .observer _ => True

/-- Whether the pool of `key`, if it is one of references, is tied to that of plain instances. -/
def Pooled (s : Analysis) (key : ItemKey) : Prop :=
  key ≠ .object → key.carriesReferences = true → ∃ n object, s.itemPools.find? key = some n ∧
    s.itemPools.find? .object = some object ∧ s.graph.Flows n object ∧ s.graph.Flows object n

def Done (s : Analysis) : Duty → Prop
  | .notice d => ∃ l t, s.listeners[d.listener]? = some l ∧ s.graph.type? d.type = some t ∧ s.Served l d.type t
  | .task (.wire t node) => ∃ supers, s.hierarchy.Decides (fun c => directSupertypes c.find? t) supers ∧
      (supers = [] → s.graph.Flows node root) ∧
      (∀ super ∈ supers, ∃ n, s.aggregate? super = some n ∧ s.graph.Flows node n) ∧ s.Looked t
  | .task (.attach id owner) => ∃ sel n, s.selectors[id]? = some sel ∧ s.aggregate? (.object owner) = some n ∧
      sel.listener ∈ s.graph.listeners n
  | .body id => ∃ r, s.methods[id]? = some r ∧ r.processed = true ∧
      ∀ body, r.definition.body? = some body →
        s.Obeys s.edges ⟨id, r.locals, r.result, r.thrown⟩ r.params body ∧ (∀ x ∈ body.namings, s.Follows x) ∧
          ∀ i ∈ body.instrs, s.Leaves i
  | .link m => ∃ r, s.Linked m r
  | .join site m => ∃ r, s.Linked m r ∧ ∀ e ∈ callEdges r site, s.graph.Flows e.1 e.2
  | .pool key => s.Pooled key
  | .prepare name => s.Prepared name

/-- Every duty that there is a reason for waits, is in hand or is done. -/
def Covered (s : Analysis) (γ : List Duty) : Prop := ∀ d, s.Owes d → s.Queues d ∨ d ∈ γ ∨ s.Done d

/-! ## Steps -/

def withSelector (s : Analysis) (key : SelectorKey) : Analysis :=
  { s with
    listeners := s.listeners.push (.selector s.selectors.size)
    selectors := s.selectors.push { declared := key.declared, filter? := key.filter?, listener := s.listeners.size }
    selectorKeys := s.selectorKeys.insert key s.selectors.size }

def withType (s : Analysis) (t : ExactType) (nodes : List NodeId) : Analysis :=
  { s with graph := (s.graph.intern t).2.addAll nodes (s.graph.intern t).1 }

def marked (s : Analysis) (id : MethodId) : Analysis :=
  { s with
    methods := s.methods.modify id fun r => { r with processed := true }
    tally := { s.tally with methodsProcessed := s.tally.methodsProcessed + 1 } }

def opened (s : Analysis) (id : MethodId) (r : MethodRecord) : Analysis :=
  { s with
    graph := (s.graph.newNodes r.localCount).2
    methods := s.methods.modify id fun r' =>
      { r' with processed := true, locals := (s.graph.newNodes r.localCount).1.toArray }
    tally := { s.tally with methodsProcessed := s.tally.methodsProcessed + 1 } }

inductive Step (w : Actor) : Analysis → List Duty → Analysis → List Duty → Prop
  -- linking
  | learn {s γ h} (hh : s.hierarchy.Learns h) : Step w s γ { s with hierarchy := h } γ
  | linkClass (s γ name) : Step w s γ (s.linkClass name).2 γ
  | report {s : Analysis} {γ p} (hp : s.Warrants p) (hw : w = .driver ∨ p.entry? = none) : Step w s γ (s.report p) γ
  | markInitialized {s : Analysis} {γ} (name) (hp : s.isPresent name = true) :
      Step w s γ { s with classes := s.classes.adjust name fun r => { r with initialized := true } }
        (.prepare name :: γ)
  | recordMethod {s : Analysis} {γ m d f} (hm : s.declarationId? m = none)
      (hd : s.hierarchy.classes.find? m.owner = some (some d)) (hf : d.method? m.signature = some f)
      (hc : m.owner ∈ s.classes.keys) : Step w s γ (s.recordMethod m d f).2 γ
  | aliasMethod {s : Analysis} {γ m} {id : Nat} {r} (hm : s.methodId? m = none) (hr : s.methods[id]? = some r)
      (hd : s.hierarchy.Decides (fun c => c.resolveMethod m) (some r.reference)) :
      Step w s γ { s with aliases := s.aliases.insert m id } γ
  | fieldAlias {s : Analysis} {γ f record} (hf : s.fields.find? f = none)
      (hr : s.fields.find? record.reference = some record)
      (hd : s.hierarchy.Decides (fun c => c.resolveField f) (some record.reference)) :
      Step w s γ { s with fields := s.fields.insert f record } γ
  | newField {s : Analysis} {γ f resolved} (hf : s.fields.find? f = none) (hr : s.fields.find? resolved = none)
      (hd : s.hierarchy.Decides (fun c => c.resolveField f) (some resolved))
      (hs : s.hierarchy.Decides (fun c => c.resolveField resolved) (some resolved))
      (hc : resolved.owner ∈ s.classes.keys) :
      Step w s γ { s with
        graph := s.graph.newNode.2
        fields := (s.fields.insert resolved ⟨resolved, s.graph.newNode.1⟩).insert f
          ⟨resolved, s.graph.newNode.1⟩ } γ
  -- the graph
  | aggregate {s : Analysis} {γ t} (ht : s.aggregate? t = none) (ha : w = .client ∨ s.Aggregable t) :
      Step w s γ (s.aggregate t).2 γ
  | pool {s : Analysis} {γ key} (hk : s.itemPools.find? key = none) :
      Step w s γ (s.poolNode key).2 (.pool key :: γ)
  | connect {s : Analysis} {γ} {a b : Nat} (ha : a < s.graph.nodes.size) (hb : b < s.graph.nodes.size)
      (hk : w = .client ∨ s.Plain b ∨ s.Rises a b) : Step w s γ { s with graph := s.graph.connect a b } γ
  | instantiate {s : Analysis} {γ} {n : Nat} {t} (hn : n < s.graph.nodes.size) (hk : w = .client ∨ s.Plain n)
      (hb : w = .analysis → s.InBody fun i => t ∈ i.brings)
      (hc : ∀ name, t.element.className? = some name → name ∈ s.classes.keys) :
        Step w s γ (s.withType t [n, root]) γ
  | gather {s : Analysis} {γ} {n i : Nat} {t} (hi : i ∈ s.graph.held root) (ht : s.graph.type? i = some t)
      (hn : s.aggregate? t.toDecl = some n) : Step w s γ { s with graph := (s.graph.add n i).2 } γ
  -- selectors
  | newShared {s : Analysis} {γ declared} (hk : s.selectorKeys.find? (.shared declared) = none)
      (hp : s.settings.precision = .fast) (hb : s.InBody fun i => declared ∈ i.selects) :
      Step w s γ ((s.withSelector (.shared declared)).defer (.attach s.selectors.size declared.owner)) γ
  | newPerSite {s : Analysis} {γ caller receiver declared r}
      (hk : s.selectorKeys.find? (.perSite caller receiver declared) = none)
      (hp : s.settings.precision = .precise) (hb : s.InBody fun i => declared ∈ i.selects)
      (hr : s.methods[caller]? = some r) (hpr : r.processed = true) :
      Step w s γ { s.withSelector (.perSite caller receiver declared) with
        graph := match r.locals[receiver]? with
          | some n => s.graph.listen n s.listeners.size
          | none => s.graph } γ
  | attach {s : Analysis} {γ declared id sel} {n : Nat} (hk : s.selectorKeys.find? (.shared declared) = some id)
      (hs : s.selectors[id]? = some sel) (hn : s.aggregate? (.object declared.owner) = some n) :
      Step w s γ { s with graph := s.graph.listen n sel.listener } γ
  | target {s : Analysis} {γ id sel m} (hs : s.selectors[id]? = some sel) (hm : m ∉ sel.targets)
      (hp : s.Picked id sel m) :
      Step w s γ
        { s with selectors := s.selectors.modify id fun sel => { sel with targets := sel.targets.insert m } }
        (.link m :: sel.sites.map (fun site => .join site m) ++ γ)
  | site {s : Analysis} {γ id sel receiver declared site r} (hs : s.selectors[id]? = some sel)
      (hk : s.selectorKeys.find? (s.selectorKey site.caller receiver declared) = some id)
      (hr : s.methods[site.caller]? = some r) (hpr : r.processed = true)
      (hn : ∀ n ∈ site.nodes, s.Plain n) (hc : r.Calls receiver declared) :
      Step w s γ
        { s with
          methods := s.methods.modify site.caller fun r => r.noteCall ⟨receiver, declared.signature⟩ id
          selectors := s.selectors.modify id fun sel => { sel with sites := sel.sites ++ [site] } }
        (sel.targets.toList.map (fun m => .join site m) ++ γ)
  -- duties
  | takeNotice {s : Analysis} {γ d g} (hg : s.graph.takeNotice = some (d, g)) :
      Step w s γ { s with graph := g } (.notice d :: γ)
  | takeTasks (s γ) (hw : w ≠ .client) : Step w s γ { s with deferred := [] } (s.deferred.map .task ++ γ)
  | takeMethod {s : Analysis} {γ id rest} (hw : s.worklist = id :: rest) :
      Step w s γ { s with worklist := rest } (.body id :: γ)
  | openBody {s : Analysis} {γ id r} (hr : s.methods[id]? = some r) (hp : r.processed = false) (hl : r.locals = #[])
      (hw : id ∉ s.worklist) : Step w s γ (s.opened id r) γ
  | fulfil {s : Analysis} {γ γ'} (hd : ∀ d ∈ γ, d ∈ γ' ∨ s.Done d) : Step w s γ s γ'
  | note {s : Analysis} {γ} {t : AnalysisTally} (ht : t.methodsProcessed = s.tally.methodsProcessed)
      (o : List (String × ExactType)) (hr : w = .client → t.tasksRun = s.tally.tasksRun) :
      Step w s γ { s with tally := t, observations := o } γ
  -- what only users do
  | entries (s γ) (e : Table QualifiedMethod (List (Nat × ExactType))) (hw : w = .driver) :
      Step w s γ { s with entries := e } γ
  | reseed (s γ) (hw : w = .driver) : Step w s γ { s with reseed := false } γ
  | newNode (s γ) (hw : w = .client) : Step w s γ { s with graph := s.graph.newNode.2 } γ
  | addType {s : Analysis} {γ} {n : Nat} {t} (hw : w = .client) (hn : n < s.graph.nodes.size) :
      Step w s γ (s.withType t [n]) γ
  | observe {s : Analysis} {γ} {n : Nat} {label} (hw : w = .client) (hn : n < s.graph.nodes.size) :
      Step w s γ { s with
        listeners := s.listeners.push (.observer label)
        graph := s.graph.listen n s.listeners.size } γ

inductive Moves (w : Actor) : Analysis → List Duty → Analysis → List Duty → Prop
  | refl (s γ) : Moves w s γ s γ
  | tail {s γ s' γ' s'' γ''} (h : Moves w s γ s' γ') (h' : Step w s' γ' s'' γ'') : Moves w s γ s'' γ''

variable {w : Actor} {s s' s'' : Analysis} {γ γ' γ'' : List Duty}

theorem Step.moves (h : Step w s γ s' γ') : Moves w s γ s' γ' := .tail (.refl s γ) h

theorem Moves.trans (h : Moves w s γ s' γ') (h' : Moves w s' γ' s'' γ'') : Moves w s γ s'' γ'' := by
  induction h' with
  | refl => exact h
  | tail _ hstep ih => exact .tail ih hstep

theorem Moves.invariant {P : Analysis → List Duty → Prop}
    (hstep : ∀ {s γ s' γ'}, Step w s γ s' γ' → P s γ → P s' γ') (h : Moves w s γ s' γ') (hp : P s γ) :
    P s' γ' := by
  induction h with
  | refl => exact hp
  | tail _ hs ih => exact hstep hs ih

/-! ## What the operations behind the steps change -/

/-- Linking a class looks classes up, records them and reports; it changes nothing else. -/
theorem linkClass_frame (s : Analysis) (name : ClassName) :
    ∃ h c p, (s.linkClass name).2 = { s with hierarchy := h, classes := c, problems := p } ∧
      s.hierarchy.Learns h := by
  have hrecord : ∀ (s : Analysis) (name : ClassName), ∃ h c p,
      s.recordClass name = { s with hierarchy := h, classes := c, problems := p } ∧ s.hierarchy.Learns h := by
    intro s name
    unfold recordClass report
    by_cases hn : (s.hierarchy.lookup name).isNone
    · simp only [Hierarchy.get, hn, if_true]
      exact ⟨_, _, _, rfl, s.hierarchy.learns_remember name⟩
    · simp only [Hierarchy.get, hn]
      exact ⟨_, _, s.problems, rfl, s.hierarchy.learns_remember name⟩
  have hfold : ∀ (names : List ClassName) (s : Analysis), ∃ h c p,
      names.foldl recordClass s = { s with hierarchy := h, classes := c, problems := p } ∧
        s.hierarchy.Learns h := by
    intro names
    induction names with
    | nil => exact fun s => ⟨s.hierarchy, s.classes, s.problems, rfl, .refl _⟩
    | cons n names ih =>
      intro s
      obtain ⟨h, c, p, hs, hl⟩ := hrecord s n
      obtain ⟨h', c', p', hs', hl'⟩ := ih (s.recordClass n)
      refine ⟨h', c', p', ?_, ?_⟩
      · rw [List.foldl_cons, hs', hs]
      · rw [hs] at hl'
        exact hl.trans hl'
  unfold linkClass
  split
  · exact ⟨s.hierarchy, s.classes, s.problems, rfl, .refl _⟩
  · exact hfold _ s

theorem recordClass_eq (s : Analysis) (n : ClassName) :
    (s.recordClass n).hierarchy = s.hierarchy.remember n ∧
      (s.recordClass n).classes = s.classes.insert n ⟨(s.hierarchy.lookup n).isNone, false⟩ ∧
      (s.recordClass n).problems
        = if (s.hierarchy.lookup n).isNone then s.problems.insert (.missingClass n) else s.problems := by
  unfold recordClass report
  cases hn : s.hierarchy.lookup n with
  | none => simp [Hierarchy.get, hn]
  | some d => simp [Hierarchy.get, hn]

theorem recordClasses_spec (names : List ClassName) (s : Analysis) :
    (∀ n, (names.foldl recordClass s).classes.find? n
        = if n ∈ names then some ⟨(s.hierarchy.lookup n).isNone, false⟩ else s.classes.find? n) ∧
      ∀ p, p ∈ (names.foldl recordClass s).problems
        ↔ p ∈ s.problems ∨ ∃ n ∈ names, s.hierarchy.lookup n = none ∧ p = .missingClass n := by
  induction names generalizing s with
  | nil => simp
  | cons k names ih =>
    obtain ⟨hh, hc, hp⟩ := s.recordClass_eq k
    obtain ⟨hfind, hproblems⟩ := ih (s.recordClass k)
    have hlookup : ∀ n, (s.recordClass k).hierarchy.lookup n = s.hierarchy.lookup n := by
      intro n
      rw [hh]
      exact s.hierarchy.lookup_remember k n
    refine ⟨fun n => ?_, fun p => ?_⟩
    · rw [List.foldl_cons, hfind, hlookup, hc, Table.find?_insert]
      by_cases hk : n = k
      · subst hk
        simp
      · simp [hk]
    · rw [List.foldl_cons, hproblems, hp]
      simp only [hlookup, List.mem_cons, exists_eq_or_imp]
      cases hk : s.hierarchy.lookup k with
      | none => simp [OrderedSet.mem_insert, or_assoc]
      | some d => simp

/-- A class that is linked already keeps its record, and nothing that was reported is lost. -/
theorem linkClass_keeps (s : Analysis) (name : ClassName) :
    (∀ {n r}, s.classes.find? n = some r → (s.linkClass name).2.classes.find? n = some r) ∧
      ∀ {p}, p ∈ s.problems → p ∈ (s.linkClass name).2.problems := by
  unfold linkClass
  split
  · exact ⟨id, id⟩
  · obtain ⟨hfind, hproblems⟩ := recordClasses_spec
      (s.hierarchy.view.traverse .stack ClassDef.supertypes s.classes.keys [name]) s
    refine ⟨fun hr => ?_, fun hp => (hproblems _).2 (Or.inl hp)⟩
    rw [hfind, if_neg fun hm => Catalog.not_mem_of_mem_traverse hm (Table.mem_keys_of_find? hr)]
    exact hr

/-- Linking a class marks none. -/
theorem marked_of_linkClass {name n : ClassName} {r : ClassRecord}
    (hr : (s.linkClass name).2.classes.find? n = some r) (hi : r.initialized = true) :
    s.classes.find? n = some r := by
  unfold linkClass at hr
  split at hr
  · exact hr
  · rw [(recordClasses_spec _ s).1] at hr
    split at hr
    · cases hr
      cases hi
    · exact hr

theorem aggregate_of_some {s : Analysis} {t : DeclType} {n : NodeId} (ht : s.aggregate? t = some n) :
    s.aggregate t = (n, s) := by
  unfold aggregate? at ht
  unfold aggregate
  split
  · next hr =>
    rw [if_pos hr] at ht
    cases ht
    rfl
  · next hr =>
    rw [if_neg hr] at ht
    rw [ht]

theorem aggregate_of_none {s : Analysis} {t : DeclType} (ht : s.aggregate? t = none) :
    s.aggregate t = (s.graph.newNode.1,
      { s with
        graph := s.graph.newNode.2
        aggregates := s.aggregates.insert t s.graph.newNode.1
        deferred := s.deferred ++ [.wire t s.graph.newNode.1] }) := by
  unfold aggregate? at ht
  unfold aggregate
  split
  · next hr =>
    rw [if_pos hr] at ht
    cases ht
  · next hr =>
    rw [if_neg hr] at ht
    rw [ht]
    rfl

theorem not_isRoot_of_none {s : Analysis} {t : DeclType} (ht : s.aggregate? t = none) :
    t.isRoot = false ∧ s.aggregates.find? t = none := by
  unfold aggregate? at ht
  split at ht
  · cases ht
  · next hr => exact ⟨Bool.eq_false_iff.2 hr, ht⟩

theorem poolNode_of_some {s : Analysis} {key : ItemKey} {n : NodeId} (hk : s.itemPools.find? key = some n) :
    s.poolNode key = ((n, false), s) := by
  unfold poolNode
  rw [hk]

theorem poolNode_of_none {s : Analysis} {key : ItemKey} (hk : s.itemPools.find? key = none) :
    s.poolNode key = ((s.graph.newNode.1, true),
      { s with graph := s.graph.newNode.2, itemPools := s.itemPools.insert key s.graph.newNode.1 }) := by
  unfold poolNode
  rw [hk]
  rfl

/-! ## Growth -/

theorem grows_withType (s : Analysis) (t : ExactType) (nodes : List NodeId) : s.Grows (s.withType t nodes) :=
  .withGraph s ((FlowGraph.grows_intern s.graph t).trans (FlowGraph.grows_addAll _ _ _))

theorem mem_types_withType {t u : ExactType} {nodes : List NodeId} :
    u ∈ (s.withType t nodes).graph.types ↔ u ∈ s.graph.types ∨ u = t := by
  unfold withType
  rw [FlowGraph.types_addAll]
  exact FlowGraph.mem_types_intern _

theorem Step.grows (h : Step w s γ s' γ') : s.Grows s' := by
  cases h with
  | learn hh => exact .withHierarchy s hh.retains
  | linkClass name =>
    obtain ⟨hrecorded, hproblems⟩ := s.linkClass_keeps name
    obtain ⟨h, c, p, hs, hl⟩ := s.linkClass_frame name
    rw [hs] at hrecorded hproblems ⊢
    exact { Grows.refl s with
      hierarchy := hl.retains, recorded := fun hr => ⟨_, hrecorded hr, .refl _⟩, problems := hproblems }
  | report hp => exact { Grows.refl s with problems := fun hmem => OrderedSet.mem_insert.2 (Or.inl hmem) }
  | markInitialized name =>
    refine { Grows.refl s with recorded := fun {n r} hr => ?_ }
    rw [Table.find?_adjust, hr]
    split
    · exact ⟨_, rfl, rfl, fun _ => rfl⟩
    · exact ⟨r, rfl, .refl r⟩
  | @recordMethod m d f hm hd hf hc =>
    refine { Grows.refl s with graph := ?_, methods := .push .refl _ _ }
    have hparams := s.graph.grows_newNodes (m.signature.params.length + 1)
    exact (hparams.trans (FlowGraph.grows_newNode _)).trans (FlowGraph.grows_newNode _)
  | aliasMethod hm hr hd =>
    refine { Grows.refl s with aliases := .insert ?_ _ }
    exact (Option.or_eq_none_iff.1 hm).2
  | fieldAlias hf hr hd => exact { Grows.refl s with fields := .insert hf _ }
  | @newField f resolved hf hr hd hs hc =>
    refine { Grows.refl s with graph := FlowGraph.grows_newNode _, fields := ?_ }
    intro k v hk
    rw [Table.find?_insert, if_neg, Table.find?_insert, if_neg]
    · exact hk
    · rintro rfl
      exact nomatch hr.symm.trans hk
    · rintro rfl
      exact nomatch hf.symm.trans hk
  | aggregate ht ha =>
    rw [aggregate_of_none ht]
    refine { Grows.refl s with
      graph := FlowGraph.grows_newNode _, aggregates := .insert (not_isRoot_of_none ht).2 _, aggregated := ?_ }
    intro t' n hn
    exact (Table.find?_insert_cases hn).imp id fun hnew => Nat.le_of_eq hnew.2.symm
  | pool hk =>
    rw [poolNode_of_none hk]
    exact { Grows.refl s with graph := FlowGraph.grows_newNode _, itemPools := .insert hk _ }
  | connect ha hb hk => exact .withGraph s (FlowGraph.grows_connect _ _ _)
  | instantiate hn hk hb => exact s.grows_withType _ _
  | gather hi ht hn => exact .withGraph s (FlowGraph.grows_add _ _ _)
  | newShared hk hp hb =>
    exact { Grows.refl s with
      listeners := .push (fun _ => rfl) _ _
      selectors := .push .refl _ _
      selectorKeys := .insert hk _ }
  | newPerSite hk hp hb hr hpr =>
    refine { Grows.refl s with
      graph := ?_
      listeners := .push (fun _ => rfl) _ _
      selectors := .push .refl _ _
      selectorKeys := .insert hk _ }
    dsimp only
    split
    · exact FlowGraph.grows_listen
    · exact .refl _
  | attach hk hs hn => exact .withGraph s FlowGraph.grows_listen
  | target hs hm hp =>
    refine { Grows.refl s with selectors := .modify .refl fun sel _ => ?_ }
    exact { Selector.Grows.refl sel with targets := OrderedSet.prefix_insert _ _ }
  | site hs hk hr hpr hn =>
    refine { Grows.refl s with
      methods := .modify .refl fun r _ => r.grows_noteCall _ _
      selectors := .modify .refl fun sel _ => ?_ }
    exact { Selector.Grows.refl sel with sites := List.prefix_append _ _ }
  | takeNotice hg =>
    obtain ⟨rest, -, rfl⟩ := FlowGraph.takeNotice_some hg
    exact .withGraph s { FlowGraph.Grows.refl s.graph with }
  | takeTasks => exact { Grows.refl s with }
  | takeMethod hw => exact { Grows.refl s with }
  | openBody hr hp hl hw =>
    refine { Grows.refl s with graph := FlowGraph.grows_newNodes _ _, methods := .modify .refl fun r' hr' => ?_ }
    obtain rfl : r' = _ := Option.some.inj (hr'.symm.trans hr)
    exact .opened hp hl _
  | fulfil hd => exact .refl s
  | note ht o => exact { Grows.refl s with }
  | entries e hw => exact { Grows.refl s with }
  | reseed hw => exact { Grows.refl s with }
  | newNode hw => exact .withGraph s (FlowGraph.grows_newNode _)
  | addType hw hn => exact s.grows_withType _ _
  | observe hw hn =>
    exact { Grows.refl s with graph := FlowGraph.grows_listen, listeners := .push (fun _ => rfl) _ _ }

/-- Steps look classes up and nothing more: the classes look the same after them. -/
theorem Step.learns (h : Step w s γ s' γ') : s.hierarchy.Learns s'.hierarchy := by
  cases h with
  | learn hh => exact hh
  | linkClass name =>
    obtain ⟨h, c, p, hs, hl⟩ := s.linkClass_frame name
    rw [hs]
    exact hl
  | aggregate ht ha =>
    rw [aggregate_of_none ht]
    exact .refl _
  | pool hk =>
    rw [poolNode_of_none hk]
    exact .refl _
  | _ => exact .refl _

theorem Moves.learns (h : Moves w s γ s' γ') : s.hierarchy.Learns s'.hierarchy := by
  induction h with
  | refl => exact .refl _
  | tail _ hs ih => exact ih.trans hs.learns

theorem Moves.grows (h : Moves w s γ s' γ') : s.Grows s' := by
  induction h with
  | refl => exact .refl _
  | tail _ hs ih => exact ih.trans hs.grows

end Analysis

end TypeFlow
