import TypeFlow.Devirtualize
import TypeFlow.Proofs.Analysis.Aggregation

/-!
# Whether rewritten calls run what they ran

A precise analysis rewrites a call only to what the call runs on every
receiver. A fast one reads the receivers from the aggregate of the declared
class, which receives no arrays, although arrays may be where an array
supertype is declared.
-/

namespace TypeFlow

theorem Body.instrs_mapInstrs (f : Instr → Instr) (b : Body) : (b.mapInstrs f).instrs = b.instrs.map f := by
  simp only [mapInstrs, instrs, List.flatMap_map, List.map_flatMap]

theorem Body.handlers_mapInstrs (f : Instr → Instr) (b : Body) : (b.mapInstrs f).handlers = b.handlers := by
  simp only [mapInstrs, handlers, List.flatMap_map]

theorem Instr.targets_of_devirtualize {targets : CallKey → List QualifiedMethod}
    {dst? dst'? instance'? : Option Local}
    {receiver : Local} {callee m : QualifiedMethod} {args args' : List Local} {binding : Binding}
    (hb : binding.isDynamic = true)
    (h : (call dst? (some receiver) callee args binding).devirtualize targets =
      call dst'? instance'? m args' .special) :
    targets ⟨receiver, callee.signature⟩ = [m] := by
  simp only [devirtualize, dynamicCall?, hb, if_true] at h
  split at h
  · next target htargets =>
    rw [direct] at h
    cases h
    exact htargets
  · cases h
    cases hb

namespace Analysis

variable {s : Analysis}

theorem MethodsValid.method? (hv : s.MethodsValid) {id : Nat} {r : MethodRecord} (hr : s.methods[id]? = some r) :
    s.method? r.reference = some r := by
  unfold Analysis.method? methodId?
  rw [hv.declarationId? hr]
  exact hr

theorem mem_targetsAt {r : MethodRecord} {key : CallKey} {m : QualifiedMethod} :
    m ∈ s.targetsAt r key ↔ ∃ id ∈ r.selectorsAt key, ∃ sel, s.selectors[id]? = some sel ∧ m ∈ sel.targets := by
  unfold targetsAt
  rw [OrderedSet.mem_toList, OrderedSet.mem_ofList, List.mem_flatMap]
  refine exists_congr fun id => and_congr_right fun _ => ?_
  cases hsel : s.selectors[id]? with
  | none => simp
  | some sel => simp

/-! ## Receivers that are not counted -/

/-- Whether a fast analysis does not count `t` among the receivers of calls to `owner`, though it may be one. -/
def Overlooks (s : Analysis) (owner : ClassName) (t : ExactType) : Prop :=
  s.settings.precision = .fast ∧ owner ≠ objectClass ∧ s.hierarchy.view.isAssignable t owner = true ∧
    ¬ ∃ name, t = .ofClass name ∧ s.hierarchy.view.Inherits name owner

theorem isAssignable_of_array {c : Catalog} {t : ExactType} {owner : ClassName} (ht : t.isArray = true)
    (ho : owner ≠ objectClass) : c.isAssignable t owner = true ↔ owner ∈ arraySupertypes := by
  unfold Catalog.isAssignable
  rw [if_neg ho, if_pos ht, decide_eq_true_iff]

/-- Where nothing is above the top class, only arrays are not counted, at the array supertypes. -/
theorem overlooks_iff (htop : s.hierarchy.view.Topped) {owner : ClassName} {t : ExactType} :
    s.Overlooks owner t ↔ s.settings.precision = .fast ∧ t.isArray = true ∧ owner ∈ arraySupertypes := by
  constructor
  · rintro ⟨hfast, ho, ha, hno⟩
    cases harray : t.isArray with
    | false => exact absurd (htop.inherits_of_isAssignable ho harray ha) hno
    | true => exact ⟨hfast, rfl, (isAssignable_of_array harray ho).1 ha⟩
  · rintro ⟨hfast, harray, hmem⟩
    have ho : owner ≠ objectClass := by
      rintro rfl
      exact absurd hmem (by decide)
    refine ⟨hfast, ho, (isAssignable_of_array harray ho).2 hmem, ?_⟩
    rintro ⟨name, rfl, _⟩
    cases harray

/-- A type of a receiver is one of those that choose the targets, unless it is not counted. -/
theorem Sound.mem_receiverTypes (h : s.Sound) (hroot : s.Rooted) (hs : s.isSettled) {r : MethodRecord}
    {receiver : Local} {owner : ClassName} {n : NodeId} (hn : r.locals[receiver]? = some n) {t : ExactType}
    (ht : t ∈ s.graph.typesAt n) (ha : s.hierarchy.view.isAssignable t owner = true) (hno : ¬ s.Overlooks owner t) :
    t ∈ s.receiverTypes r receiver owner := by
  unfold receiverTypes
  cases hp : s.settings.precision with
  | precise =>
    rw [hn]
    exact List.mem_filter.2 ⟨ht, ha⟩
  | fast =>
    obtain ⟨i, hi, hit⟩ := FlowGraph.mem_typesAt.1 ht
    have hi := hroot n i hi
    by_cases ho : owner = objectClass
    · subst ho
      have htop : s.aggregate? (.object objectClass) = some root := if_pos rfl
      simp only [htop]
      exact FlowGraph.mem_typesAt.2 ⟨i, hi, hit⟩
    · by_cases hinh : ∃ name, t = .ofClass name ∧ s.hierarchy.view.Inherits name owner
      · obtain ⟨name, rfl, hinh⟩ := hinh
        obtain ⟨own, hown, hi⟩ := h.mem_own_aggregate hi hit
        obtain ⟨m, hm, hi⟩ := h.mem_aggregate_of_inherits hs hinh hown hi
        simp only [hm]
        exact FlowGraph.mem_typesAt.2 ⟨i, hi, hit⟩
      · exact absurd ⟨hp, ho, ha, hinh⟩ hno

/-! ## Rewritten calls -/

/-- Whether a call of a signature runs `m` on each of some types that may be where `owner` is declared. -/
def RunsOnly (s : Analysis) (types : List ExactType) (owner : ClassName) (sig : Signature) (m : QualifiedMethod) :
    Prop :=
  ∀ t ∈ types, s.hierarchy.view.isAssignable t owner = true → ∀ m', s.dispatch sig t = some m' → m' = m

/-- A rewritten call runs what the dynamic call would run on every receiver exactly when it does so on those
receivers that the analysis did not count. -/
theorem runsOnly_of_devirtualized_iff (w : World) (settings : Settings) (commands : List Command)
    (hs : ((Analysis.new w settings).after commands).isSettled) {id : MethodId} {r : MethodRecord} {body : Body}
    (hr : ((Analysis.new w settings).after commands).methods[id]? = some r) (hb : r.definition.body? = some body)
    {i : Nat} {dst? : Option Local} {receiver : Local} {callee m : QualifiedMethod} {args : List Local}
    {binding : Binding} {owner : ClassName}
    (hi : body.instrs[i]? = some (.call dst? (some receiver) callee args binding))
    (ho : binding.receiver? = some owner)
    (hd : (((Analysis.new w settings).after commands).devirtualizeBody r.reference body).1.instrs[i]? =
      some (.call dst? (some receiver) m args .special))
    {n : NodeId} (hn : r.locals[receiver]? = some n) :
    ((Analysis.new w settings).after commands).RunsOnly
        (((Analysis.new w settings).after commands).graph.typesAt n) owner callee.signature m ↔
      ∀ t ∈ ((Analysis.new w settings).after commands).graph.typesAt n,
        ((Analysis.new w settings).after commands).Overlooks owner t →
          ∀ m', ((Analysis.new w settings).after commands).dispatch callee.signature t = some m' → m' = m := by
  have hsound := (sound_new w settings).after commands
  have hroot := (rooted_new w settings).after (sound_new w settings) commands
  have hdynamic : binding.isDynamic = true := Option.isSome_iff_exists.2 ⟨owner, ho⟩
  generalize (Analysis.new w settings).after commands = s at *
  constructor
  · intro hruns t ht hover m' hm'
    exact hruns t ht hover.2.2.1 m' hm'
  · intro hover t ht ha m' hm'
    by_cases hno : s.Overlooks owner t
    · exact hover t ht hno m' hm'
    -- the targets of the call's own selector are among those that were counted for the call
    obtain ⟨_, hobeys⟩ := hsound.obeys hs hr hb
    have hdemands : Analysis.CallDemands _ _ callee binding.receiver? (some receiver) _ :=
      hobeys.instrs _ (List.mem_of_getElem? hi)
    rw [ho] at hdemands
    obtain ⟨k, sel, _, hsel, hk, hresolved⟩ := hsound.resolved hs hr rfl hdemands
    have hmem : m' ∈ sel.targets :=
      (hresolved.targets m').2 ⟨t, hsound.mem_receiverTypes hroot hs hn ht ha hno, hm'⟩
    have htarget : m' ∈ s.targetsAt r ⟨receiver, callee.signature⟩ := mem_targetsAt.2 ⟨k, hk, sel, hsel, hmem⟩
    have hone : s.targetsAt r ⟨receiver, callee.signature⟩ = [m] := by
      unfold devirtualizeBody at hd
      rw [hsound.valid.methods.method? hr] at hd
      simp only [Body.devirtualize, Body.instrs_mapInstrs, List.getElem?_map, hi, Option.map_some] at hd
      exact Instr.targets_of_devirtualize hdynamic (Option.some.inj hd)
    rw [hone] at htarget
    exact List.mem_singleton.1 htarget

/-! A variable that holds an instance of a class and an array, and a call on it to an array supertype. The top class
has the called method as well. -/

def sampleFoo : Signature := ⟨"foo", [], .void⟩

def sampleEntry : QualifiedMethod := ⟨"Main", ⟨"main", [], .void⟩⟩

def sampleCall : Instr :=
  .call none (some 0) ⟨"java.lang.Cloneable", sampleFoo⟩ [] (.interface "java.lang.Cloneable")

def sampleCaller : Body := ⟨1, [⟨[.new 0 "C", .newArray 0 (.primitive .int) 0, sampleCall], []⟩]⟩

def sampleClasses : World where
  classes := [
    ⟨objectClass, none, [], [], [], [⟨sampleFoo, [], some ⟨0, []⟩⟩]⟩,
    ⟨"java.lang.Cloneable", some objectClass, [], [.interface], [], []⟩,
    ⟨"C", some objectClass, ["java.lang.Cloneable"], [], [], [⟨sampleFoo, [], some ⟨0, []⟩⟩]⟩,
    ⟨"Main", some objectClass, [], [], [], [⟨sampleEntry.signature, [.static], some sampleCaller⟩]⟩]
  nodup := by decide

def sample : Analysis := (Analysis.new sampleClasses {}).after [.entry sampleEntry, .settle]

set_option maxRecDepth 100000 in
theorem isSettled_sample : sample.isSettled = true := by decide +kernel

set_option maxRecDepth 100000 in
theorem record_sample : ∃ r, sample.methods[0]? = some r ∧ r.reference = sampleEntry ∧ r.locals[0]? = some 4 ∧
    r.definition.body? = some sampleCaller := by
  have h : (sample.methods[0]?.bind fun r =>
      if r.reference = sampleEntry ∧ r.locals[0]? = some 4 then r.definition.body? else none) =
      some sampleCaller := by
    decide +kernel
  obtain ⟨r, hr, hbody⟩ := Option.bind_eq_some_iff.1 h
  split at hbody
  · next hs => exact ⟨r, hr, hs.1, hs.2, hbody⟩
  · cases hbody

set_option maxRecDepth 100000 in
theorem devirtualized_sample : (sample.devirtualizeBody sampleEntry sampleCaller).1.instrs[2]? =
    some (.call none (some 0) ⟨"C", sampleFoo⟩ [] .special) := by
  decide +kernel

set_option maxRecDepth 100000 in
theorem receiver_sample : ⟨.primitive .int, 1⟩ ∈ sample.graph.typesAt 4 ∧
    sample.hierarchy.view.isAssignable ⟨.primitive .int, 1⟩ "java.lang.Cloneable" = true ∧
    sample.dispatch sampleFoo ⟨.primitive .int, 1⟩ = some ⟨objectClass, sampleFoo⟩ := by
  decide +kernel

theorem runsOnly_iff_sample :
    sample.RunsOnly (sample.graph.typesAt 4) "java.lang.Cloneable" sampleFoo ⟨"C", sampleFoo⟩ ↔
    ∀ t ∈ sample.graph.typesAt 4, sample.Overlooks "java.lang.Cloneable" t →
      ∀ m', sample.dispatch sampleFoo t = some m' → m' = ⟨"C", sampleFoo⟩ := by
  obtain ⟨r, hr, href, hlocal, hbody⟩ := record_sample
  have hi : sampleCaller.instrs[2]? = some sampleCall := by decide
  have hd : (sample.devirtualizeBody r.reference sampleCaller).1.instrs[2]? =
      some (.call none (some 0) ⟨"C", sampleFoo⟩ [] .special) := by
    rw [href]
    exact devirtualized_sample
  exact runsOnly_of_devirtualized_iff sampleClasses {}
    [.entry sampleEntry, .settle] isSettled_sample hr hbody hi rfl hd hlocal

/-- A rewritten call need not run what the dynamic call would run on an array. -/
theorem not_forall_runsOnly_of_devirtualized :
    ¬ ∀ (w : World) (settings : Settings) (commands : List Command) (id : MethodId) (r : MethodRecord) (body : Body)
        (i : Nat) (dst? : Option Local) (receiver : Local) (callee m : QualifiedMethod) (args : List Local)
        (binding : Binding) (owner : ClassName) (n : NodeId),
      ((Analysis.new w settings).after commands).isSettled →
      ((Analysis.new w settings).after commands).methods[id]? = some r → r.definition.body? = some body →
      body.instrs[i]? = some (.call dst? (some receiver) callee args binding) → binding.receiver? = some owner →
      (((Analysis.new w settings).after commands).devirtualizeBody r.reference body).1.instrs[i]? =
        some (.call dst? (some receiver) m args .special) →
      r.locals[receiver]? = some n →
      ((Analysis.new w settings).after commands).RunsOnly
        (((Analysis.new w settings).after commands).graph.typesAt n) owner callee.signature m := by
  intro h
  obtain ⟨r, hr, href, hlocal, hbody⟩ := record_sample
  obtain ⟨ht, ha, hdispatch⟩ := receiver_sample
  have hi : sampleCaller.instrs[2]? = some sampleCall := by decide
  have hd : (sample.devirtualizeBody r.reference sampleCaller).1.instrs[2]? =
      some (.call none (some 0) ⟨"C", sampleFoo⟩ [] .special) := by
    rw [href]
    exact devirtualized_sample
  have hruns := h sampleClasses {} [.entry sampleEntry, .settle] 0 r sampleCaller 2 none 0 _ _ [] _ _ 4
    isSettled_sample hr hbody hi rfl hd hlocal
  have heq := hruns _ ht ha _ hdispatch
  exact absurd heq (by decide)

end Analysis

end TypeFlow
