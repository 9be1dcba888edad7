import Mathlib.Data.List.Forall2
import TypeFlow.Proofs.Analysis.CallTargets
import TypeFlow.Proofs.Report.Counts

/-!
# Direct calls

Devirtualisation replaces dynamic calls by direct ones and changes nothing
else. What a call is directed to is linked and has a body that may run on a
receiver, with the signature that was called. Doing it again changes nothing
and looks at what was left.
-/

namespace TypeFlow

/-! ## Instructions -/

/-- Whether an instruction is kept, or is a dynamic call that becomes the direct call of one of some
methods with the same signature. -/
inductive Instr.Directed (P : QualifiedMethod → Prop) : Instr → Instr → Prop
  | keep (i : Instr) : Directed P i i
  | direct {dst? : Option Local} {receiver : Local} {callee target : QualifiedMethod} {args : List Local}
      {binding : Binding} (hdynamic : binding.isDynamic = true) (hsig : target.signature = callee.signature)
      (htarget : P target) :
      Directed P (.call dst? (some receiver) callee args binding) (.call dst? (some receiver) target args .special)

/-- Whether the target of each key that has only one has the signature of the key and is one of some methods. -/
def Directs (targets : CallKey → List QualifiedMethod) (P : QualifiedMethod → Prop) : Prop :=
  ∀ key target, targets key = [target] → target.signature = key.signature ∧ P target

namespace Instr

variable {targets : CallKey → List QualifiedMethod} {P : QualifiedMethod → Prop} {i : Instr}

theorem devirtualize_of_target {key : CallKey} {target : QualifiedMethod} (hkey : i.dynamicCall? = some key)
    (ht : targets key = [target]) : i.devirtualize targets = i.direct target := by
  simp only [devirtualize, hkey, ht]

theorem devirtualize_of_none (h : i.dynamicCall? = none) : i.devirtualize targets = i := by
  simp only [devirtualize, h]

theorem devirtualize_of_length {key : CallKey} (hkey : i.dynamicCall? = some key) (h : (targets key).length ≠ 1) :
    i.devirtualize targets = i := by
  simp only [devirtualize, hkey]
  split
  · next target ht =>
    rw [ht] at h
    exact absurd rfl h
  · rfl

theorem directed_devirtualize (hd : Directs targets P) (i : Instr) : i.Directed P (i.devirtualize targets) := by
  cases hkey : i.dynamicCall? with
  | none =>
    rw [devirtualize_of_none hkey]
    exact .keep i
  | some key =>
    by_cases hone : (targets key).length = 1
    · obtain ⟨target, ht⟩ := List.length_eq_one_iff.1 hone
      rw [devirtualize_of_target hkey ht]
      obtain ⟨hsig, htarget⟩ := hd key target ht
      obtain ⟨dst?, callee, args, binding, owner, rfl, howner, hcallee⟩ := eq_call_of_dynamicCall? hkey
      exact .direct (Option.isSome_iff_exists.2 ⟨owner, howner⟩) (hsig.trans hcallee.symm) htarget
    · rw [devirtualize_of_length hkey hone]
      exact .keep i

/-- What was a dynamic call is one afterwards unless it has exactly one target. -/
theorem dynamicCall?_devirtualize (targets : CallKey → List QualifiedMethod) (i : Instr) :
    (i.devirtualize targets).dynamicCall? = i.dynamicCall?.filter fun key => (targets key).length ≠ 1 := by
  cases hkey : i.dynamicCall? with
  | none => rw [devirtualize_of_none hkey, hkey, Option.filter_none]
  | some key =>
    by_cases hone : (targets key).length = 1
    · obtain ⟨target, ht⟩ := List.length_eq_one_iff.1 hone
      rw [devirtualize_of_target hkey ht, Option.filter_some_neg (by simp [hone])]
      obtain ⟨dst?, callee, args, binding, owner, rfl, -⟩ := eq_call_of_dynamicCall? hkey
      rfl
    · rw [devirtualize_of_length hkey hone, hkey, Option.filter_some_pos (by simp [hone])]

theorem devirtualize_idem (targets : CallKey → List QualifiedMethod) (i : Instr) :
    (i.devirtualize targets).devirtualize targets = i.devirtualize targets := by
  cases hkey : (i.devirtualize targets).dynamicCall? with
  | none => exact devirtualize_of_none hkey
  | some key =>
    rw [dynamicCall?_devirtualize, Option.filter_eq_some_iff] at hkey
    have hne : (targets key).length ≠ 1 := of_decide_eq_true hkey.2
    rw [devirtualize_of_length hkey.1 hne, devirtualize_of_length hkey.1 hne]

/-- An instruction is changed exactly if it is a dynamic call with one target. -/
theorem devirtualize_ne_iff : i ≠ i.devirtualize targets ↔
    ∃ key, i.dynamicCall? = some key ∧ (targets key).length = 1 := by
  constructor
  · intro hne
    cases hkey : i.dynamicCall? with
    | none => exact absurd (devirtualize_of_none hkey).symm hne
    | some key =>
      refine ⟨key, rfl, ?_⟩
      by_contra hone
      exact hne (devirtualize_of_length hkey hone).symm
  · rintro ⟨key, hkey, hone⟩ hsame
    have hcall := dynamicCall?_devirtualize targets i
    rw [← hsame, hkey, Option.filter_some_neg (by simp [hone])] at hcall
    cases hcall

end Instr

/-! ## Bodies -/

structure Block.Directed (P : QualifiedMethod → Prop) (b b' : Block) : Prop where
  instrs : List.Forall₂ (Instr.Directed P) b.instrs b'.instrs
  handlers : b'.handlers = b.handlers

structure Body.Directed (P : QualifiedMethod → Prop) (b b' : Body) : Prop where
  locals : b'.locals = b.locals
  blocks : List.Forall₂ (Block.Directed P) b.blocks b'.blocks

namespace Body

variable {targets : CallKey → List QualifiedMethod} {P : QualifiedMethod → Prop}

def changes (b b' : Body) : Nat := (b.instrs.zip b'.instrs).countP fun p => p.1 ≠ p.2

theorem instrs_devirtualize (targets : CallKey → List QualifiedMethod) (b : Body) :
    (b.devirtualize targets).instrs = b.instrs.map (Instr.devirtualize targets) := instrs_mapInstrs _ b

theorem directed_devirtualize (hd : Directs targets P) (b : Body) : b.Directed P (b.devirtualize targets) where
  locals := rfl
  blocks := by
    refine List.forall₂_map_right_iff.2 (List.forall₂_same.2 fun block _ => ⟨?_, rfl⟩)
    exact List.forall₂_map_right_iff.2 (List.forall₂_same.2 fun i _ => Instr.directed_devirtualize hd i)

theorem dynamicKeys_devirtualize (targets : CallKey → List QualifiedMethod) (b : Body) :
    (b.devirtualize targets).dynamicKeys = b.dynamicKeys.filter fun key => (targets key).length ≠ 1 := by
  unfold dynamicKeys
  rw [instrs_devirtualize, List.filterMap_map, List.filter_filterMap]
  exact List.filterMap_congr fun i _ => Instr.dynamicCall?_devirtualize targets i

theorem devirtualize_idem (targets : CallKey → List QualifiedMethod) (b : Body) :
    (b.devirtualize targets).devirtualize targets = b.devirtualize targets := by
  simp only [devirtualize, mapInstrs, List.map_map, Body.mk.injEq, true_and]
  refine List.map_congr_left fun block _ => ?_
  simp only [Function.comp_apply, List.map_map, Block.mk.injEq, and_true]
  exact List.map_congr_left fun i _ => Instr.devirtualize_idem targets i

theorem changes_devirtualize (targets : CallKey → List QualifiedMethod) (b : Body) :
    b.changes (b.devirtualize targets) = b.dynamicKeys.countP fun key => (targets key).length = 1 := by
  unfold changes dynamicKeys
  rw [instrs_devirtualize, ← List.map_prod_left_eq_zip, List.countP_map, List.countP_filterMap]
  refine List.countP_congr fun i _ => ?_
  simp only [Function.comp_apply, decide_eq_true_eq, Instr.devirtualize_ne_iff]
  cases i.dynamicCall? <;> simp

theorem devirtualized_devirtTally (targets : CallKey → List QualifiedMethod) (b : Body) :
    (b.devirtTally targets).devirtualized = b.changes (b.devirtualize targets) := by
  rw [devirtTally_eq, changes_devirtualize, DevirtTally.ofCounts, List.countP_map]
  rfl

theorem examined_devirtTally (targets : CallKey → List QualifiedMethod) (b : Body) :
    (b.devirtTally targets).examined = b.dynamicKeys.length := by
  rw [devirtTally_eq, DevirtTally.ofCounts, List.length_map]

/-- The calls that are left dynamic are those that were counted as having no target or several. -/
theorem devirtTally_devirtualize (targets : CallKey → List QualifiedMethod) (b : Body) :
    (b.devirtualize targets).devirtTally targets =
      { b.devirtTally targets with
        examined := (b.devirtualize targets).dynamicKeys.length
        devirtualized := 0 } := by
  simp only [devirtTally_eq, dynamicKeys_devirtualize, DevirtTally.ofCounts, List.length_map, List.countP_map,
    List.countP_filter, DevirtTally.mk.injEq, true_and]
  refine ⟨List.countP_eq_zero.2 fun key _ => by simp, List.countP_congr fun key _ => ?_,
    List.countP_congr fun key _ => ?_⟩
  · simp only [Function.comp_apply, Bool.and_eq_true, decide_eq_true_eq]
    omega
  · simp only [Function.comp_apply, Bool.and_eq_true, decide_eq_true_eq]
    omega

end Body

theorem DevirtTally.examined_ofCounts (counts : List Nat) : (ofCounts counts).examined =
    (ofCounts counts).devirtualized + (ofCounts counts).polymorphic + (ofCounts counts).unreachable := by
  simp only [ofCounts]
  induction counts with
  | nil => rfl
  | cons n counts ih =>
    simp only [List.length_cons, List.countP_cons, decide_eq_true_eq]
    split <;> split <;> split <;> omega

namespace Analysis

variable {s : Analysis}

/-! ## Targets -/

structure Runnable (s : Analysis) (m : QualifiedMethod) : Prop where
  processed : ∃ r, s.Linked m r ∧ r.processed = true
  declared : ∃ d f, s.hierarchy.view.find? m.owner = some d ∧ d.method? m.signature = some f ∧
    f.isAbstract = false ∧ f.isStatic = false

/-- When nothing waits, what a method may run at a key is runnable and has the signature of the key. -/
theorem Sound.runnable (h : s.Sound) (ht : s.Traceable) (hs : s.isSettled) {id : Nat} {r : MethodRecord}
    (hr : s.methods[id]? = some r) {key : CallKey} {m : QualifiedMethod} (hm : m ∈ s.targetsAt r key) :
    m.signature = key.signature ∧ s.Runnable m := by
  obtain ⟨k, hk, sel, hsel, hm⟩ := mem_targetsAt.1 hm
  obtain ⟨owner, -, hfind⟩ := ht id r hr key k hk
  obtain ⟨t, -, hdispatch⟩ :=
    (mem_receiverTypes_iff hr key.receiver ⟨owner, key.signature⟩ m).1 ((h.mem_targets_iff hs hfind hsel).1 hm)
  obtain ⟨receiver, -, himpl⟩ := Option.bind_eq_some_iff.1 hdispatch
  obtain ⟨hsig, d, f, hd, hf, himplementation⟩ := Catalog.resolveImplementation_some himpl
  obtain ⟨callee, hlinked, hp, -⟩ := h.joined hs hsel hm
  simp only [MethodDef.isImplementation, Bool.and_eq_true, Bool.not_eq_true'] at himplementation
  exact ⟨hsig, ⟨callee, hlinked, hp⟩, d, f, hd, hf, himplementation⟩

theorem Sound.directs (h : s.Sound) (ht : s.Traceable) (hs : s.isSettled) {id : Nat} {r : MethodRecord}
    (hr : s.methods[id]? = some r) : Directs (s.targetsAt r) s.Runnable := by
  intro key target htarget
  exact h.runnable ht hs hr (by rw [htarget]; exact List.mem_singleton_self target)

/-! ## Rewritten bodies -/

/-- Whether a body and its tally are what comes of directing the calls of a body, all of them counted, and nothing
changes if that is done again. -/
structure Redirected (s : Analysis) (m : QualifiedMethod) (b b' : Body) (t : DevirtTally) : Prop where
  body : b.Directed s.Runnable b'
  devirtualized : t.devirtualized = b.changes b'
  examined : t.examined = b.dynamicKeys.length
  total : t.examined = t.devirtualized + t.polymorphic + t.unreachable
  again : s.devirtualizeBody m b' = (b', { t with examined := b'.dynamicKeys.length, devirtualized := 0 })

theorem devirtualizeBody_of_unlinked {m : QualifiedMethod} (h : s.method? m = none) (b : Body) :
    s.devirtualizeBody m b = (b, {}) := by
  simp only [devirtualizeBody, h]

theorem redirected_of_method? {m : QualifiedMethod} {r : MethodRecord} (hr : s.method? m = some r)
    (hd : Directs (s.targetsAt r) s.Runnable) (b : Body) :
    s.Redirected m b (s.devirtualizeBody m b).1 (s.devirtualizeBody m b).2 := by
  have heq : ∀ b : Body,
      s.devirtualizeBody m b = (b.devirtualize (s.targetsAt r), b.devirtTally (s.targetsAt r)) := by
    intro b
    simp only [devirtualizeBody, hr]
  rw [heq b]
  refine ⟨Body.directed_devirtualize hd b, Body.devirtualized_devirtTally _ b,
    Body.examined_devirtTally _ b, ?_, ?_⟩
  · rw [Body.devirtTally_eq]
    exact DevirtTally.examined_ofCounts _
  · rw [heq, Body.devirtualize_idem, Body.devirtTally_devirtualize]

/-! ## All bodies -/

theorem map_fst_devirtualizedBodies (s : Analysis) : s.devirtualizedBodies.map Prod.fst =
    (s.methods.toList.filter MethodRecord.hasBody).map MethodRecord.reference := by
  unfold devirtualizedBodies
  induction s.methods.toList with
  | nil => rfl
  | cons r rest ih =>
    cases hb : r.definition.body? with
    | none =>
      rw [List.filterMap_cons_none (by rw [hb]; rfl),
        List.filter_cons_of_neg (by simp [MethodRecord.hasBody, hb]), ih]
    | some body =>
      rw [List.filterMap_cons_some (by rw [hb]; rfl), List.filter_cons_of_pos (by simp [MethodRecord.hasBody, hb]),
        List.map_cons, List.map_cons, ih]

theorem mem_devirtualizedBodies {e : QualifiedMethod × Body × DevirtTally} : e ∈ s.devirtualizedBodies ↔
    ∃ r ∈ s.methods, ∃ body, r.definition.body? = some body ∧
      e = (r.reference, s.devirtualizeBody r.reference body) := by
  simp only [devirtualizedBodies, List.mem_filterMap, Option.map_eq_some_iff, Array.mem_toList_iff]
  exact exists_congr fun r => and_congr_right fun _ => exists_congr fun body => and_congr_right fun _ => eq_comm

theorem MethodsValid.nodup_references (hv : s.MethodsValid) :
    (s.methods.toList.map MethodRecord.reference).Nodup := by
  refine List.nodup_iff_injective_get.2 fun i j hij => Fin.ext ?_
  have hget : ∀ k : Fin (s.methods.toList.map MethodRecord.reference).length, ∃ r, s.methods[k.1]? = some r ∧
      (s.methods.toList.map MethodRecord.reference).get k = r.reference := by
    intro k
    have hk : k.1 < s.methods.size := by simpa using k.2
    exact ⟨s.methods[k.1], Array.getElem?_eq_getElem hk, by simp⟩
  obtain ⟨r, hr, href⟩ := hget i
  obtain ⟨r', hr', href'⟩ := hget j
  exact hv.unique hr hr' (href.symm.trans (hij.trans href'))

/-! ## Settled sessions -/

/-- Whether the bodies of a list are those of all linked methods that have one, in the order in which these were
linked and each rewritten. -/
structure Rewrites (s : Analysis) (bodies : List (QualifiedMethod × Body × DevirtTally)) : Prop where
  order : bodies.map Prod.fst = (s.methods.toList.filter MethodRecord.hasBody).map MethodRecord.reference
  nodup : (bodies.map Prod.fst).Nodup
  bodies : ∀ e ∈ bodies, ∃ r ∈ s.methods, ∃ body, r.definition.body? = some body ∧
    e = (r.reference, s.devirtualizeBody r.reference body)

theorem MethodsValid.rewrites (hv : s.MethodsValid) : s.Rewrites s.devirtualizedBodies where
  order := s.map_fst_devirtualizedBodies
  nodup := by
    rw [map_fst_devirtualizedBodies]
    exact hv.nodup_references.sublist (List.filter_sublist.map _)
  bodies _ he := mem_devirtualizedBodies.1 he

/-- In a session in which nothing waits, any body is redirected as the body of any linked method, and left alone as
that of any other; and all linked bodies are rewritten. -/
theorem redirected_of_settled (w : World) (settings : Settings) (ops : List Op)
    (hs : ((new w settings).history ops).isSettled) :
    (∀ m b, ((new w settings).history ops).method? m = none →
      ((new w settings).history ops).devirtualizeBody m b = (b, {})) ∧
      (∀ m b, ((new w settings).history ops).method? m ≠ none → ((new w settings).history ops).Redirected m b
        (((new w settings).history ops).devirtualizeBody m b).1
          (((new w settings).history ops).devirtualizeBody m b).2) ∧
      ((new w settings).history ops).Rewrites ((new w settings).history ops).devirtualizedBodies := by
  have hsound := ((sound_new w settings).history ops).1
  have htrace := traceable_history w settings ops
  generalize (new w settings).history ops = s at *
  refine ⟨fun m b hnone => devirtualizeBody_of_unlinked hnone b, fun m b hsome => ?_, hsound.valid.methods.rewrites⟩
  obtain ⟨r, hr⟩ := Option.ne_none_iff_exists'.1 hsome
  obtain ⟨id, -, hid⟩ := Option.bind_eq_some_iff.1 hr
  exact redirected_of_method? hr (hsound.directs htrace hs hid) b

set_option maxRecDepth 100000 in
/-- The two calls of the sample are directed to one method; a body that is not its
own is rewritten by the same keys. -/
theorem redirected_sampleRivals :
    ((new sampleRivals {}).history sampleRivalOps).Redirected sampleEntry sampleMixed
        (((new sampleRivals {}).history sampleRivalOps).devirtualizeBody sampleEntry sampleMixed).1
        (((new sampleRivals {}).history sampleRivalOps).devirtualizeBody sampleEntry sampleMixed).2 ∧
      ((new sampleRivals {}).history sampleRivalOps).Redirected sampleEntry sampleCaller
        (((new sampleRivals {}).history sampleRivalOps).devirtualizeBody sampleEntry sampleCaller).1
        (((new sampleRivals {}).history sampleRivalOps).devirtualizeBody sampleEntry sampleCaller).2 := by
  have hlinked : ((new sampleRivals {}).history sampleRivalOps).method? sampleEntry ≠ none := by
    have hsome : (((new sampleRivals {}).history sampleRivalOps).method? sampleEntry).isSome = true := by
      decide +kernel
    exact Option.isSome_iff_ne_none.1 hsome
  have hall := redirected_of_settled sampleRivals {} sampleRivalOps settled_sampleRivals
  exact ⟨hall.2.1 sampleEntry sampleMixed hlinked, hall.2.1 sampleEntry sampleCaller hlinked⟩

end Analysis

end TypeFlow
