import TypeFlow.Proofs.Analysis.ClosedWorld
import TypeFlow.Proofs.Changes
import TypeFlow.Proofs.Report.Counts
import TypeFlow.Proofs.Watch
import TypeFlow.Report.Document

/-!
# Reports agree with themselves

A report is there when nothing waits in the analysis. Its sums are the sums of
what it lists, its classes are there and in order, and what the tally counts in
the bodies is what the profile counts under the keys, where no body makes two
dynamic calls by one key.
-/

namespace TypeFlow

def Json.Counts (j : Json) (name list : String) (p : Json → Bool) : Prop :=
  ∃ summary items, j.get? "summary" = some summary ∧ j.get? list = some (.array items) ∧
    summary.get? name = some (.nat (items.countP p))

def Json.hasBody (j : Json) : Bool := j.get? "has_body" matches some (.bool true)

structure Json.Summarizes (j : Json) : Prop where
  classes : j.Counts "classes" "classes" fun _ => true
  methods : j.Counts "methods" "methods" fun _ => true
  bodies : j.Counts "methods_with_body" "methods" hasBody
  fields : j.Counts "fields" "fields" fun _ => true
  problems : j.Counts "problems" "diagnostics" fun _ => true

/-- Whether a report of an analysis agrees with itself and with what the analysis recorded. -/
structure Report.Consistent (r : Report) (s : Analysis) : Prop where
  total : r.calls.total = sumOver MethodReport.calls r.methods
  targets : sumOver MethodReport.targets r.methods = sumOver s.targetCount s.recordedCalls
  summary : r.toJson.Summarizes
  bodies : r.methodsWithBody = s.devirtualizedBodies.length
  sorted : r.classes.Pairwise (· < ·)
  present : ∀ name ∈ r.classes, s.isPresent name = true ∧ .missingClass name ∉ r.problems
  counted : r.calls.tally.Le r.devirtualization
  matched : r.calls.tally = r.devirtualization ↔
    ∀ m ∈ s.methods, ∀ b, m.definition.body? = some b → b.CallsDiffer

namespace Report

theorem hasBody_toJson (m : MethodReport) : m.toJson.hasBody = m.hasBody := by
  cases h : m.hasBody <;> simp [MethodReport.toJson, Json.hasBody, Json.get?, h]

theorem countP_map_true {α : Type} (f : α → Json) (l : List α) : (l.map f).countP (fun _ => true) = l.length := by
  rw [List.countP_true, List.length_map]

theorem summarizes_toJson (r : Report) : r.toJson.Summarizes where
  classes := ⟨r.summaryToJson, r.classes.map .text, rfl, rfl, by rw [countP_map_true]; rfl⟩
  methods := ⟨r.summaryToJson, r.methods.map MethodReport.toJson, rfl, rfl, by rw [countP_map_true]; rfl⟩
  bodies := by
    refine ⟨r.summaryToJson, r.methods.map MethodReport.toJson, rfl, rfl, ?_⟩
    rw [List.countP_map, Function.comp_def]
    simp only [hasBody_toJson, List.countP_eq_length_filter]
    rfl
  fields := ⟨r.summaryToJson, r.fields.map .text, rfl, rfl, by rw [countP_map_true]; rfl⟩
  problems := ⟨r.summaryToJson, r.problems.map Problem.toJson, rfl, rfl, by rw [countP_map_true]; rfl⟩

end Report

namespace Analysis

variable {s : Analysis}

theorem mem_reachableClasses_iff {name : ClassName} : name ∈ s.reachableClasses ↔ s.isPresent name = true := by
  rw [isPresent_iff]
  constructor
  · intro hn
    obtain ⟨⟨k, r⟩, he, hk⟩ := List.mem_filterMap.1 hn
    cases hr : r.missing with
    | true => simp [hr] at hk
    | false =>
      obtain rfl : k = name := by simpa [hr] using hk
      exact ⟨r, Table.find?_eq_some_iff.2 he, hr⟩
  · rintro ⟨r, hr, hm⟩
    exact List.mem_filterMap.2 ⟨(name, r), Table.find?_eq_some_iff.1 hr, if_neg (by simp [hm])⟩

theorem nodup_reachableClasses (s : Analysis) : s.reachableClasses.Nodup := by
  have hkeys : s.classes.entries.Pairwise fun e e' => e.1 ≠ e'.1 := List.pairwise_map.1 s.classes.nodup
  refine List.pairwise_filterMap.2 (hkeys.imp fun {e e'} hne name hn name' hn' heq => hne ?_)
  have h : e.1 = name := Option.some.inj (Option.ite_none_left_eq_some.1 hn).2
  have h' : e'.1 = name' := Option.some.inj (Option.ite_none_left_eq_some.1 hn').2
  rw [h, h', heq]

/-! ## The report of an analysis -/

theorem isSettled_of_report? {r : Report} (h : s.report? = .ok r) : s.isSettled = true := by
  unfold report? whenSettled at h
  split at h
  · assumption
  · cases h

theorem MethodsValid.calls_toReport (hv : s.MethodsValid) :
    s.toReport.calls = .ofTargets (s.recordedCalls.map s.targetCount) :=
  congrArg CallProfile.ofTargets hv.map_recordedCalls.symm

theorem methodsWithBody_toReport (s : Analysis) : s.toReport.methodsWithBody = s.devirtualizedBodies.length := by
  rw [devirtualizedBodies, List.length_filterMap_eq_countP, Report.methodsWithBody, ← List.countP_eq_length_filter]
  show (s.methods.toList.map s.methodReport).countP MethodReport.hasBody = _
  rw [List.countP_map]
  refine List.countP_congr fun r _ => ?_
  rw [Option.isSome_map]
  rfl

theorem Sound.consistent_toReport (h : s.Sound) (ha : s.Attributed) (hrec : s.Recorded) (hs : s.isSettled) :
    s.toReport.Consistent s := by
  have hcalls := h.valid.methods.calls_toReport
  have htally : s.toReport.calls.tally = .ofCounts (s.recordedCalls.map s.targetCount) := by
    rw [hcalls, CallProfile.tally_ofTargets]
  have hdevirt : s.toReport.devirtualization = .ofCounts (s.bodyCalls.map s.targetCount) :=
    h.valid.methods.devirtTally_eq
  -- the numbers that the profile counts are part of those that the tally counts
  have hsub := h.subperm_calls ha
  have hcounts : (s.recordedCalls.map s.targetCount).Subperm (s.bodyCalls.map s.targetCount) := by
    obtain ⟨l, hp, hl⟩ := hsub
    exact ⟨l.map s.targetCount, hp.map _, hl.map _⟩
  exact {
    total := by
      rw [hcalls, CallProfile.total_ofTargets, h.valid.methods.map_recordedCalls, ← sumOver_one, sumOver_flatMap]
      simp only [sumOver_one]
      exact (sumOver_map MethodReport.calls s.methodReport s.methods.toList).symm
    targets := by
      have hcount : sumOver s.targetCount s.recordedCalls = sumOver id (s.recordedCalls.map s.targetCount) :=
        (sumOver_map id s.targetCount s.recordedCalls).symm
      rw [hcount, h.valid.methods.map_recordedCalls, sumOver_flatMap]
      exact sumOver_map MethodReport.targets s.methodReport s.methods.toList
    summary := s.toReport.summarizes_toJson
    bodies := s.methodsWithBody_toReport
    sorted := World.pairwise_lt_sortNames s.nodup_reachableClasses
    present := fun name hn => by
      have hpresent := mem_reachableClasses_iff.1 ((World.perm_sortNames _).mem_iff.1 hn)
      exact ⟨hpresent, fun hproblem => hrec.not_isPresent_of_problem (OrderedSet.mem_toList.1 hproblem) hpresent⟩
    counted := by
      rw [htally, hdevirt]
      exact DevirtTally.ofCounts_le hcounts
    matched := by
      rw [htally, hdevirt, DevirtTally.ofCounts_eq_iff hcounts, ← h.nodup_bodyCalls_iff, ← h.perm_calls_iff ha hs,
        List.length_map, List.length_map]
      exact ⟨fun hl => hsub.perm_of_length_le (Nat.le_of_eq hl.symm), List.Perm.length_eq⟩ }

/-- Whatever was asked of an analysis, it has a report exactly when nothing waits, and the report agrees with
itself. -/
theorem report?_consistent (w : World) (settings : Settings) (ops : List Op) :
    ((∃ r, ((new w settings).history ops).report? = .ok r) ↔ ((new w settings).history ops).isSettled) ∧
      ∀ r, ((new w settings).history ops).report? = .ok r → r.Consistent ((new w settings).history ops) := by
  have hsound := ((sound_new w settings).history ops).1
  have hattributed := attributed_history w settings ops
  have hrecorded := recorded_history w settings ops
  generalize (new w settings).history ops = s at *
  refine ⟨⟨fun ⟨r, hr⟩ => isSettled_of_report? hr, fun hs => ⟨_, report?_of_settled hs⟩⟩, fun r hr => ?_⟩
  have hs := isSettled_of_report? hr
  obtain rfl := Except.ok.inj ((report?_of_settled hs).symm.trans hr)
  exact hsound.consistent_toReport hattributed hrecorded hs

/-! The report of a class whose entry point makes an instance of it and calls a method on that. -/

set_option maxRecDepth 100000 in
theorem report?_consistent_sampleWorld :
    ∃ r, ((new sampleWorld {}).history [.command (.entry sampleMain), .command .settle]).report? = .ok r ∧
      r.Consistent ((new sampleWorld {}).history [.command (.entry sampleMain), .command .settle]) := by
  have hs : ((new sampleWorld {}).history [.command (.entry sampleMain), .command .settle]).isSettled = true := by
    decide +kernel
  have h := report?_consistent sampleWorld {} [.command (.entry sampleMain), .command .settle]
  obtain ⟨r, hr⟩ := h.1.2 hs
  exact ⟨r, hr, h.2 r hr⟩

end Analysis

end TypeFlow
