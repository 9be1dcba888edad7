import TypeFlow.Proofs.Analysis.CallKeys
import TypeFlow.Proofs.Solution.Settled

/-!
# Calls that share a key

Devirtualisation looks a call up by its variable and signature. Dynamic calls
with the same key and other declared classes are served by other selectors, so
a call is judged by what all of these found together, and is rewritten exactly
if that is one method.
-/

namespace TypeFlow

namespace Instr

variable {targets : CallKey → List QualifiedMethod} {dst? : Option Local} {receiver : Local}
  {callee : QualifiedMethod} {args : List Local} {binding : Binding}

theorem devirtualize_eq_direct_iff (hb : binding.isDynamic = true) {target : QualifiedMethod} :
    (call dst? (some receiver) callee args binding).devirtualize targets =
        call dst? (some receiver) target args .special ↔
      targets ⟨receiver, callee.signature⟩ = [target] := by
  refine ⟨targets_of_devirtualize hb, fun h => ?_⟩
  simp only [devirtualize, dynamicCall?, hb, if_true, h, direct]

theorem devirtualize_eq_self_iff (hb : binding.isDynamic = true) :
    (call dst? (some receiver) callee args binding).devirtualize targets =
        call dst? (some receiver) callee args binding ↔
      ¬ ∃ target, targets ⟨receiver, callee.signature⟩ = [target] := by
  simp only [devirtualize, dynamicCall?, hb, if_true]
  constructor
  · rintro h ⟨target, htarget⟩
    simp only [htarget, direct] at h
    cases h
    cases hb
  · intro hno
    split
    · next target htarget => exact absurd ⟨target, htarget⟩ hno
    · rfl

end Instr

namespace Analysis

variable {w : Actor} {s s' : Analysis} {γ γ' : List Duty}

/-! ## Where noted selectors come from -/

/-- Whether each selector that a method keeps for a key serves some call of its body by that key. -/
def Traceable (s : Analysis) : Prop :=
  ∀ (id : Nat) (r : MethodRecord), s.methods[id]? = some r → ∀ key, ∀ k ∈ r.selectorsAt key,
    ∃ owner, r.Calls key.receiver ⟨owner, key.signature⟩ ∧
      s.selectorKeys.find? (s.selectorKey id key.receiver ⟨owner, key.signature⟩) = some k

theorem Traceable.keep (ht : s.Traceable) (hg : s.Grows s') (hm : ∀ (id : Nat) (r : MethodRecord),
    s'.methods[id]? = some r → ∀ key, ∀ k ∈ r.selectorsAt key, ∃ r₀, s.methods[id]? = some r₀ ∧ r₀.Grows r ∧
      k ∈ r₀.selectorsAt key) : s'.Traceable := by
  intro id r hr key k hk
  obtain ⟨r₀, hr₀, hgrows, hk₀⟩ := hm id r hr key k hk
  obtain ⟨owner, hcalls, hfind⟩ := ht id r₀ hr₀ key k hk₀
  refine ⟨owner, hcalls.grow hgrows, ?_⟩
  rw [hg.selectorKey]
  exact hg.selectorKeys _ _ hfind

theorem Traceable.aside (ht : s.Traceable) (hg : s.Grows s') (hm : s'.methods = s.methods) : s'.Traceable :=
  ht.keep hg fun _ r hr _ _ hk => ⟨r, hm ▸ hr, .refl r, hk⟩

theorem Step.traceable (h : Step w s γ s' γ') (ht : s.Traceable) : s'.Traceable := by
  have hg := h.grows
  cases h with
  | linkClass name =>
    obtain ⟨h, c, p, heq, -⟩ := s.linkClass_frame name
    rw [heq] at hg ⊢
    exact ht.aside hg rfl
  | recordMethod hm hd hf hc =>
    refine ht.keep hg fun id r hr key k hk => ?_
    rcases getElem?_push_cases hr with hold | ⟨-, rfl⟩
    · exact ⟨r, hold, .refl r, hk⟩
    · cases hk
  | aggregate hnone =>
    rw [aggregate_of_none hnone] at hg ⊢
    exact ht.aside hg rfl
  | pool hnone =>
    rw [poolNode_of_none hnone] at hg ⊢
    exact ht.aside hg rfl
  | @site k sel receiver declared site r hs hkey hr hpr hn hcalls =>
    intro id r' hr' key k' hk'
    -- only the selector of the call itself is new at the caller
    have hnoted : ∃ owner, r'.Calls key.receiver ⟨owner, key.signature⟩ ∧
        s.selectorKeys.find? (s.selectorKey id key.receiver ⟨owner, key.signature⟩) = some k' := by
      rcases getElem?_modify_cases hr' with ⟨-, hold⟩ | ⟨rfl, old, hold, rfl⟩
      · exact ht id r' hold key k' hk'
      · obtain rfl := Option.some.inj (hr.symm.trans hold)
        rcases MethodRecord.selectorsAt_noteCall_cases hk' with hk' | ⟨rfl, rfl⟩
        · obtain ⟨owner, hold, hfind⟩ := ht _ r hr key k' hk'
          exact ⟨owner, hold.grow (r.grows_noteCall _ _), hfind⟩
        · exact ⟨declared.owner, hcalls.grow (r.grows_noteCall _ _), hkey⟩
    exact hnoted
  | openBody hr hp hl hw =>
    refine ht.keep hg fun id r' hr' key k hk => ?_
    rcases getElem?_modify_cases hr' with ⟨-, hold⟩ | ⟨rfl, old, hold, rfl⟩
    · exact ⟨r', hold, .refl r', hk⟩
    · obtain rfl := Option.some.inj (hr.symm.trans hold)
      exact ⟨_, hr, .opened hp hl _, hk⟩
  | _ => exact ht.aside hg rfl

theorem Moves.traceable (h : Moves w s γ s' γ') (ht : s.Traceable) : s'.Traceable :=
  h.invariant (P := fun s _ => s.Traceable) Step.traceable ht

theorem traceable_history (w : World) (settings : Settings) (ops : List Op) :
    ((new w settings).history ops).Traceable := by
  refine (sound_new w settings).history_invariant (fun _ hm ht => hm.traceable ht) (fun {s} w ht => ?_) ?_ ?_ ops
  · exact ht.aside (.withHierarchy s (s.hierarchy.retains_setWorld w)) rfl
  · intro s names _
    exact nofun
  · exact nofun

/-! ## Joint targets -/

/-- Whether some dynamic call of a body on a variable with a signature has `m` among the targets of its selector. -/
def JointTarget (s : Analysis) (r : MethodRecord) (receiver : Local) (sig : Signature)
    (m : QualifiedMethod) : Prop :=
  ∃ owner, r.Calls receiver ⟨owner, sig⟩ ∧ m ∈ s.ownTargets r.reference receiver ⟨owner, sig⟩

theorem MethodsValid.ownTargets_eq (hv : s.MethodsValid) {id : Nat} {r : MethodRecord}
    (hr : s.methods[id]? = some r) {receiver : Local} {declared : QualifiedMethod} {k : SelectorId}
    (hk : s.selectorKeys.find? (s.selectorKey id receiver declared) = some k) :
    s.ownTargets r.reference receiver declared = s.targetsOf k := by
  have hid : s.methodId? r.reference = some id := by
    unfold methodId?
    rw [hv.declarationId? hr]
    rfl
  unfold ownTargets
  simp only [hid, Option.bind_some, hk]

/-- When nothing waits, what is kept for a key is what the selectors of the calls by that key found. -/
theorem Sound.mem_targetsAt_iff (h : s.Sound) (ht : s.Traceable) (hs : s.isSettled) {id : Nat} {r : MethodRecord}
    (hr : s.methods[id]? = some r) {receiver : Local} {sig : Signature} {m : QualifiedMethod} :
    m ∈ s.targetsAt r ⟨receiver, sig⟩ ↔ s.JointTarget r receiver sig m := by
  rw [mem_targetsAt]
  constructor
  · rintro ⟨k, hk, sel, hsel, hm⟩
    obtain ⟨owner, hcalls, hfind⟩ := ht id r hr _ k hk
    refine ⟨owner, hcalls, ?_⟩
    rw [h.valid.methods.ownTargets_eq hr hfind]
    exact mem_targetsOf.2 ⟨sel, hsel, hm⟩
  · rintro ⟨owner, ⟨body, hb, i, hi, hselects, hcall⟩, hm⟩
    obtain ⟨dst?, callee, args, binding, owner', rfl, howner, hsig⟩ := Instr.eq_call_of_dynamicCall? hcall
    obtain rfl : owner = owner' := by
      simp only [Instr.selects, howner, Option.toList_some, List.map_cons, List.map_nil,
        List.mem_singleton] at hselects
      exact congrArg QualifiedMethod.owner hselects
    have hdemands : CallDemands s s.contents callee binding.receiver? (some receiver) _ :=
      (h.obeys hs hr hb).2.instrs _ hi
    rw [howner] at hdemands
    obtain ⟨k, sel, hfind, hsel, hk, -⟩ := h.resolved hs hr rfl hdemands
    have hsig' : callee.signature = sig := hsig
    rw [hsig'] at hfind hk
    rw [h.valid.methods.ownTargets_eq hr hfind] at hm
    obtain ⟨sel', hsel', hm⟩ := mem_targetsOf.1 hm
    exact ⟨k, hk, sel', hsel', hm⟩

/-! ## Rewritten calls -/

theorem targetsAt_eq_singleton_iff {r : MethodRecord} {key : CallKey} {m : QualifiedMethod} :
    s.targetsAt r key = [m] ↔ ∀ m', m' ∈ s.targetsAt r key ↔ m' = m := by
  have hnodup : (s.targetsAt r key).Nodup := OrderedSet.nodup _
  constructor
  · intro h m'
    rw [h, List.mem_singleton]
  · intro h
    cases hl : s.targetsAt r key with
    | nil =>
      rw [hl] at h
      exact absurd ((h m).2 rfl) List.not_mem_nil
    | cons m₁ rest =>
      rw [hl] at h hnodup
      obtain rfl := (h m₁).1 List.mem_cons_self
      cases rest with
      | nil => rfl
      | cons m₂ rest =>
        obtain rfl := (h m₂).1 (List.mem_cons_of_mem _ List.mem_cons_self)
        exact absurd List.mem_cons_self (List.nodup_cons.1 hnodup).1

theorem MethodsValid.getElem?_devirtualizeBody (hv : s.MethodsValid) {id : Nat} {r : MethodRecord}
    (hr : s.methods[id]? = some r) {body : Body} {i : Nat} {instr : Instr} (hi : body.instrs[i]? = some instr) :
    (s.devirtualizeBody r.reference body).1.instrs[i]? = some (instr.devirtualize (s.targetsAt r)) := by
  unfold devirtualizeBody
  rw [hv.method? hr]
  simp only [Body.devirtualize, Body.instrs_mapInstrs, List.getElem?_map, hi, Option.map_some]

/-- A dynamic call is rewritten to its only joint target, and stays as it is when it has none or several. -/
theorem devirtualized_iff_jointTarget (w : World) (settings : Settings) (ops : List Op)
    (hs : ((new w settings).history ops).isSettled) {id : MethodId} {r : MethodRecord} {body : Body}
    (hr : ((new w settings).history ops).methods[id]? = some r) (hb : r.definition.body? = some body)
    {i : Nat} {dst? : Option Local} {receiver : Local} {callee : QualifiedMethod} {args : List Local}
    {binding : Binding} {owner : ClassName}
    (hi : body.instrs[i]? = some (.call dst? (some receiver) callee args binding))
    (ho : binding.receiver? = some owner) :
    (∀ target, (((new w settings).history ops).devirtualizeBody r.reference body).1.instrs[i]?
        = some (.call dst? (some receiver) target args .special) ↔
      ∀ m, ((new w settings).history ops).JointTarget r receiver callee.signature m ↔ m = target) ∧
    ((((new w settings).history ops).devirtualizeBody r.reference body).1.instrs[i]? = body.instrs[i]? ↔
      ¬ ∃ target, ∀ m, ((new w settings).history ops).JointTarget r receiver callee.signature m ↔ m = target) ∧
    ((∀ owner', r.Calls receiver ⟨owner', callee.signature⟩ → owner' = owner) →
      ∀ m, ((new w settings).history ops).JointTarget r receiver callee.signature m ↔
        m ∈ ((new w settings).history ops).ownTargets r.reference receiver ⟨owner, callee.signature⟩) := by
  have hsound := ((sound_new w settings).history ops).1
  have htrace := traceable_history w settings ops
  generalize (new w settings).history ops = s at *
  have hdynamic : binding.isDynamic = true := Option.isSome_iff_exists.2 ⟨owner, ho⟩
  have hcalls : r.Calls receiver ⟨owner, callee.signature⟩ := .of_mem hb ho (List.mem_of_getElem? hi)
  have hjoint : ∀ target, s.targetsAt r ⟨receiver, callee.signature⟩ = [target] ↔
      ∀ m, s.JointTarget r receiver callee.signature m ↔ m = target := by
    intro target
    simp only [targetsAt_eq_singleton_iff, hsound.mem_targetsAt_iff htrace hs hr]
  have hget := hsound.valid.methods.getElem?_devirtualizeBody hr hi
  refine ⟨fun target => ?_, ?_, fun hall m => ?_⟩
  · rw [hget, Option.some.injEq, Instr.devirtualize_eq_direct_iff hdynamic, hjoint]
  · rw [hget, hi, Option.some.injEq, Instr.devirtualize_eq_self_iff hdynamic]
    simp only [hjoint]
  · constructor
    · rintro ⟨owner', hcalls', hm⟩
      obtain rfl := hall owner' hcalls'
      exact hm
    · exact fun hm => ⟨owner, hcalls, hm⟩

/-! A variable on which two classes are called with one signature, of which one has no instances there. -/

def sampleMixed : Body :=
  ⟨2, [⟨[.new 1 "A", .call none (some 1) ⟨"A", sampleFoo⟩ [] (.virtual "A"),
    .call none (some 1) ⟨"I", sampleFoo⟩ [] (.interface "I")], []⟩]⟩

def sampleRivals : World where
  classes := [
    ⟨objectClass, none, [], [], [], []⟩,
    ⟨"A", some objectClass, [], [], [], [⟨sampleFoo, [], some ⟨1, []⟩⟩]⟩,
    ⟨"I", some objectClass, [], [.interface], [], [⟨sampleFoo, [.abstract], none⟩]⟩,
    ⟨"Main", some objectClass, [], [], [], [⟨sampleEntry.signature, [.static], some sampleMixed⟩]⟩]
  nodup := by decide

def sampleRivalOps : List Op := [.command (.entry sampleEntry), .command .settle]

set_option maxRecDepth 100000 in
theorem settled_sampleRivals : ((new sampleRivals {}).history sampleRivalOps).isSettled = true := by decide +kernel

set_option maxRecDepth 100000 in
theorem record_sampleRivals : ∃ r, ((new sampleRivals {}).history sampleRivalOps).methods[0]? = some r ∧
    r.reference = sampleEntry ∧ r.definition.body? = some sampleMixed := by
  have h : (((new sampleRivals {}).history sampleRivalOps).methods[0]?.bind fun r =>
      if r.reference = sampleEntry then r.definition.body? else none) = some sampleMixed := by
    decide +kernel
  obtain ⟨r, hr, hbody⟩ := Option.bind_eq_some_iff.1 h
  split at hbody
  · next href => exact ⟨r, hr, href, hbody⟩
  · cases hbody

theorem jointTarget_sampleRivals : ∃ r, ((new sampleRivals {}).history sampleRivalOps).methods[0]? = some r ∧
    ((((new sampleRivals {}).history sampleRivalOps).devirtualizeBody r.reference sampleMixed).1.instrs[2]?
        = some (.call none (some 1) ⟨"A", sampleFoo⟩ [] .special) ↔
      ∀ m, ((new sampleRivals {}).history sampleRivalOps).JointTarget r 1 sampleFoo m ↔ m = ⟨"A", sampleFoo⟩) := by
  obtain ⟨r, hr, -, hb⟩ := record_sampleRivals
  have hi : sampleMixed.instrs[2]? = some (.call none (some 1) ⟨"I", sampleFoo⟩ [] (.interface "I")) := by decide
  exact ⟨r, hr,
    (devirtualized_iff_jointTarget sampleRivals {} sampleRivalOps settled_sampleRivals hr hb hi rfl).1 _⟩

set_option maxRecDepth 100000 in
/-- A call can be rewritten to what the selector of another call found, and its own did not. -/
theorem not_forall_devirtualized_iff_ownTargets :
    ¬ ∀ (w : World) (settings : Settings) (ops : List Op) (id : MethodId) (r : MethodRecord) (body : Body) (i : Nat)
        (dst? : Option Local) (receiver : Local) (callee : QualifiedMethod) (args : List Local) (binding : Binding)
        (owner : ClassName) (target : QualifiedMethod),
      ((new w settings).history ops).isSettled → ((new w settings).history ops).methods[id]? = some r →
      r.definition.body? = some body → body.instrs[i]? = some (.call dst? (some receiver) callee args binding) →
      binding.receiver? = some owner →
      ((((new w settings).history ops).devirtualizeBody r.reference body).1.instrs[i]?
          = some (.call dst? (some receiver) target args .special) ↔
        ∀ m, m ∈ ((new w settings).history ops).ownTargets r.reference receiver ⟨owner, callee.signature⟩ ↔
          m = target) := by
  intro h
  obtain ⟨r, hr, href, hb⟩ := record_sampleRivals
  have hi : sampleMixed.instrs[2]? = some (.call none (some 1) ⟨"I", sampleFoo⟩ [] (.interface "I")) := by decide
  have hiff := h sampleRivals {} sampleRivalOps 0 r sampleMixed 2 none 1 _ [] _ "I" ⟨"A", sampleFoo⟩
    settled_sampleRivals hr hb hi rfl
  rw [href] at hiff
  have hrewritten :
      (((new sampleRivals {}).history sampleRivalOps).devirtualizeBody sampleEntry sampleMixed).1.instrs[2]?
        = some (.call none (some 1) ⟨"A", sampleFoo⟩ [] .special) := by decide +kernel
  have hown : ((new sampleRivals {}).history sampleRivalOps).ownTargets sampleEntry 1 ⟨"I", sampleFoo⟩ = [] := by
    decide +kernel
  have hmem := (hiff.1 hrewritten ⟨"A", sampleFoo⟩).2 rfl
  rw [hown] at hmem
  cases hmem

end Analysis

end TypeFlow
