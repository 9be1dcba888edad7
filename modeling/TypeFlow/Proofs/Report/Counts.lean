import Mathlib.Data.List.Nodup
import Mathlib.Data.List.Perm.Subperm
import TypeFlow.Proofs.Analysis.CallKeys
import TypeFlow.Proofs.Devirtualize
import TypeFlow.Report.Basic

/-!
# Two counts of dynamic calls

A profile counts the keys under which the methods keep their calls, a tally the
calls that the bodies make. Both count numbers of targets: those of the keys
each once, those of the calls each as often as the call is made.
-/

namespace TypeFlow

/-! ## Counts of numbers of targets -/

namespace DevirtTally

def ofCounts (counts : List Nat) : DevirtTally :=
  ⟨counts.length, counts.countP (· = 1), counts.countP (1 < ·), counts.countP (· = 0)⟩

theorem ofCounts_append (a b : List Nat) : ofCounts (a ++ b) = ofCounts a + ofCounts b := by
  simp only [ofCounts, List.length_append, List.countP_append]
  rfl

theorem ofTargets_eq (targets : List QualifiedMethod) : ofTargets targets = ofCounts [targets.length] := by
  match targets with
  | [] => rfl
  | [_] => rfl
  | _ :: _ :: _ => simp [ofTargets, ofCounts]

/-- A sum of tallies is the tally of all that they count. -/
theorem foldl_ofCounts {α : Type} (f : α → List Nat) (l : List α) (counts : List Nat) :
    l.foldl (fun n x => n + ofCounts (f x)) (ofCounts counts) = ofCounts (counts ++ l.flatMap f) := by
  induction l generalizing counts with
  | nil => simp
  | cons x l ih => rw [List.foldl_cons, ← ofCounts_append, ih, List.flatMap_cons, List.append_assoc]

structure Le (a b : DevirtTally) : Prop where
  examined : a.examined ≤ b.examined
  devirtualized : a.devirtualized ≤ b.devirtualized
  polymorphic : a.polymorphic ≤ b.polymorphic
  unreachable : a.unreachable ≤ b.unreachable

theorem ofCounts_le {a b : List Nat} (h : a.Subperm b) : (ofCounts a).Le (ofCounts b) :=
  ⟨h.length_le, h.countP_le _, h.countP_le _, h.countP_le _⟩

theorem ofCounts_eq {a b : List Nat} (h : a.Perm b) : ofCounts a = ofCounts b := by
  simp only [ofCounts, h.length_eq, h.countP_eq]

/-- Of two lists one of which is part of the other, the tallies agree only if nothing more is in the other. -/
theorem ofCounts_eq_iff {a b : List Nat} (h : a.Subperm b) : ofCounts a = ofCounts b ↔ a.length = b.length :=
  ⟨fun he => congrArg examined he, fun hl => ofCounts_eq (h.perm_of_length_le (Nat.le_of_eq hl.symm))⟩

end DevirtTally

namespace CallProfile

/-- What a tally makes of a profile: it does not tell few targets from many. -/
def tally (p : CallProfile) : DevirtTally := ⟨p.total, p.monomorphic, p.polymorphic + p.megamorphic, p.unreachable⟩

theorem tally_add (p : CallProfile) (n : Nat) : (p.add n).tally = p.tally + .ofCounts [n] := by
  show _ = DevirtTally.add _ _
  unfold add
  by_cases h0 : n = 0
  · simp [h0, tally, total, DevirtTally.add, DevirtTally.ofCounts]
    omega
  by_cases h1 : n = 1
  · simp [h1, tally, total, DevirtTally.add, DevirtTally.ofCounts]
    omega
  have hseveral : 1 < n := by omega
  by_cases hfew : n ≤ fewTargets
  · simp [h0, h1, hseveral, hfew, tally, total, DevirtTally.add, DevirtTally.ofCounts]
    omega
  · simp [h0, h1, hseveral, hfew, tally, total, DevirtTally.add, DevirtTally.ofCounts]
    omega

theorem tally_foldl_add {p : CallProfile} {done : List Nat} (hp : p.tally = .ofCounts done) (counts : List Nat) :
    (counts.foldl add p).tally = .ofCounts (done ++ counts) := by
  induction counts generalizing p done with
  | nil => rw [List.append_nil, List.foldl_nil, hp]
  | cons n counts ih =>
    have hn : (p.add n).tally = .ofCounts (done ++ [n]) := by rw [tally_add, hp, DevirtTally.ofCounts_append]
    rw [List.foldl_cons, ih hn, List.append_assoc, List.singleton_append]

/-- The two classifications are one. -/
theorem tally_ofTargets (counts : List Nat) : (ofTargets counts).tally = .ofCounts counts :=
  @tally_foldl_add {} [] rfl counts

theorem total_ofTargets (counts : List Nat) : (ofTargets counts).total = counts.length :=
  congrArg DevirtTally.examined (tally_ofTargets counts)

end CallProfile

/-! ## The calls of a body -/

def Body.CallsDiffer (b : Body) : Prop :=
  b.instrs.Pairwise fun i j => ∀ key, i.dynamicCall? = some key → j.dynamicCall? ≠ some key

theorem Body.nodup_dynamicKeys_iff (b : Body) : b.dynamicKeys.Nodup ↔ b.CallsDiffer := by
  unfold dynamicKeys List.Nodup CallsDiffer
  rw [List.pairwise_filterMap]
  refine List.Pairwise.iff fun i j => ⟨fun h key hi hj => h key hi key hj rfl, ?_⟩
  rintro h key hi key' hj rfl
  exact h key hi hj

theorem Body.devirtTally_eq (targets : CallKey → List QualifiedMethod) (b : Body) :
    b.devirtTally targets = .ofCounts (b.dynamicKeys.map fun key => (targets key).length) := by
  simp only [devirtTally, DevirtTally.ofTargets_eq]
  rw [← List.flatMap_singleton' (b.dynamicKeys.map _), List.flatMap_map]
  exact DevirtTally.foldl_ofCounts (fun key => [(targets key).length]) b.dynamicKeys []

/-! ## The calls of an analysis -/

namespace Analysis

variable {s : Analysis}

/-- The keys under which the linked methods keep their calls, each with its method. -/
def recordedCalls (s : Analysis) : List (QualifiedMethod × CallKey) :=
  s.methods.toList.flatMap fun r => r.calls.keys.map (r.reference, ·)

/-- The keys of the dynamic calls in the linked bodies, each with its method and as often as it is called by. -/
def bodyCalls (s : Analysis) : List (QualifiedMethod × CallKey) :=
  s.methods.toList.flatMap fun r => r.dynamicKeys.map (r.reference, ·)

def targetCount (s : Analysis) (call : QualifiedMethod × CallKey) : Nat :=
  (s.callTargets call.1 call.2.receiver call.2.signature).length

theorem mem_recordedCalls {m : QualifiedMethod} {key : CallKey} :
    (m, key) ∈ s.recordedCalls ↔ ∃ r ∈ s.methods, r.reference = m ∧ key ∈ r.calls.keys := by
  simp only [recordedCalls, List.mem_flatMap, List.mem_map, Prod.mk.injEq, Array.mem_toList_iff]
  grind

theorem mem_bodyCalls {m : QualifiedMethod} {key : CallKey} :
    (m, key) ∈ s.bodyCalls ↔ ∃ r ∈ s.methods, r.reference = m ∧ key ∈ r.dynamicKeys := by
  simp only [bodyCalls, List.mem_flatMap, List.mem_map, Prod.mk.injEq, Array.mem_toList_iff]
  grind

namespace MethodsValid

theorem method?_of_mem (hv : s.MethodsValid) {r : MethodRecord} (hr : r ∈ s.methods) :
    s.method? r.reference = some r := by
  obtain ⟨id, hid⟩ := Array.getElem?_of_mem hr
  exact hv.method? hid

theorem targetCount_eq (hv : s.MethodsValid) {r : MethodRecord} (hr : r ∈ s.methods) (key : CallKey) :
    s.targetCount (r.reference, key) = (s.targetsAt r key).length := by
  rw [targetCount, callTargets, hv.method?_of_mem hr]

/-- What is collected with the names of the methods has no repetition if it has none in any method. -/
theorem nodup_flatMap_iff (hv : s.MethodsValid) (f : MethodRecord → List CallKey) :
    (s.methods.toList.flatMap fun r => (f r).map (r.reference, ·)).Nodup ↔ ∀ r ∈ s.methods, (f r).Nodup := by
  -- no two methods have one name, so nothing is collected for both
  have hapart : s.methods.toList.Pairwise fun r r' =>
      ((f r).map (r.reference, ·)).Disjoint ((f r').map (r'.reference, ·)) := by
    refine List.pairwise_iff_getElem.2 fun i j hi hj hlt call h h' => ?_
    obtain ⟨_, _, rfl⟩ := List.mem_map.1 h
    obtain ⟨_, _, heq⟩ := List.mem_map.1 h'
    have hi := Array.getElem?_toList.symm.trans (List.getElem?_eq_getElem hi)
    have hj := Array.getElem?_toList.symm.trans (List.getElem?_eq_getElem hj)
    exact Nat.ne_of_gt hlt (hv.unique hj hi (congrArg Prod.fst heq))
  simp only [List.nodup_flatMap, Array.mem_toList_iff]
  refine ⟨fun h r hr => (h.1 r hr).of_map, fun h => ⟨fun r hr => ?_, hapart⟩⟩
  exact (h r hr).map fun _ _ heq => congrArg Prod.snd heq

theorem devirtTally_eq (hv : s.MethodsValid) : s.devirtTally = .ofCounts (s.bodyCalls.map s.targetCount) := by
  have htallies : s.devirtTally = s.methods.toList.foldl
      (fun n r => n + .ofCounts (r.dynamicKeys.map fun key => s.targetCount (r.reference, key)))
      (.ofCounts []) := by
    rw [Analysis.devirtTally, devirtualizedBodies, List.foldl_filterMap]
    refine List.foldl_ext _ _ _ fun n r hr => ?_
    have hr : r ∈ s.methods := Array.mem_toList_iff.1 hr
    simp only [hv.targetCount_eq hr]
    cases hb : r.definition.body? with
    | none =>
      rw [MethodRecord.dynamicKeys, hb]
      rfl
    | some b =>
      rw [MethodRecord.dynamicKeys_of_body hb, ← Body.devirtTally_eq]
      simp only [Option.map_some, devirtualizeBody, hv.method?_of_mem hr]
  rw [htallies, DevirtTally.foldl_ofCounts, List.nil_append, bodyCalls, List.map_flatMap]
  simp only [List.map_map, Function.comp_def]

theorem map_recordedCalls (hv : s.MethodsValid) :
    s.recordedCalls.map s.targetCount = s.methods.toList.flatMap s.targetCounts := by
  rw [recordedCalls, List.map_flatMap]
  refine List.flatMap_congr fun r hr => ?_
  simp only [targetCounts, List.map_map, Function.comp_def, hv.targetCount_eq (Array.mem_toList_iff.1 hr)]

end MethodsValid

theorem Sound.nodup_recordedCalls (h : s.Sound) : s.recordedCalls.Nodup :=
  (h.valid.methods.nodup_flatMap_iff _).2 fun r _ => r.calls.nodup

theorem Sound.nodup_bodyCalls_iff (h : s.Sound) :
    s.bodyCalls.Nodup ↔ ∀ r ∈ s.methods, ∀ b, r.definition.body? = some b → b.CallsDiffer := by
  rw [bodyCalls, h.valid.methods.nodup_flatMap_iff]
  refine forall_congr' fun r => forall_congr' fun _ => ?_
  cases hb : r.definition.body? with
  | none => simp [MethodRecord.dynamicKeys, hb]
  | some b =>
    rw [MethodRecord.dynamicKeys_of_body hb, b.nodup_dynamicKeys_iff]
    simp only [Option.some.injEq, forall_eq']

/-- What is recorded is part of what the bodies do. -/
theorem Sound.subperm_calls (h : s.Sound) (ha : s.Attributed) : s.recordedCalls.Subperm s.bodyCalls := by
  refine List.subperm_of_subset h.nodup_recordedCalls ?_
  rintro ⟨m, key⟩ hcall
  obtain ⟨r, hr, href, hkey⟩ := mem_recordedCalls.1 hcall
  obtain ⟨id, hid⟩ := Array.getElem?_of_mem hr
  exact mem_bodyCalls.2 ⟨r, hr, href, ha id r hid key hkey⟩

/-- When nothing waits, only repeated calls are not recorded one by one. -/
theorem Sound.perm_calls_iff (h : s.Sound) (ha : s.Attributed) (hs : s.isSettled) :
    s.recordedCalls.Perm s.bodyCalls ↔ s.bodyCalls.Nodup := by
  refine ⟨fun hp => hp.nodup_iff.1 h.nodup_recordedCalls, fun hn => ?_⟩
  refine (List.perm_ext_iff_of_nodup h.nodup_recordedCalls hn).2 ?_
  rintro ⟨m, key⟩
  refine ⟨fun hcall => (h.subperm_calls ha).subset hcall, fun hcall => ?_⟩
  obtain ⟨r, hr, href, hkey⟩ := mem_bodyCalls.1 hcall
  obtain ⟨id, hid⟩ := Array.getElem?_of_mem hr
  exact mem_recordedCalls.2 ⟨r, hr, href, h.mem_callKeys hs hid hkey⟩

end Analysis

end TypeFlow
