import TypeFlow.Proofs.Analysis.Session

/-!
# Runs without a bound

A run goes on for as long as something waits; that `settle` counts its steps
only makes it a function. Here the two loops of a run stand as relations that
know no bound and hold of a state and the state in which the loop ends, so
that a run that goes on for ever has no end. Every run of every session has
one, which is what `settle` gives, and after it there is nothing left to do.
-/

namespace TypeFlow

namespace Analysis

variable {s s' s'' : Analysis}

/-- The loop over the methods at hand: it ends when none waits. -/
inductive MethodsEnd : Analysis → Analysis → Prop where
  | done {s : Analysis} (h : s.worklist = []) : MethodsEnd s s
  | next {s s' : Analysis} {id : MethodId} {rest : List MethodId} (h : s.worklist = id :: rest)
      (later : MethodsEnd ({ s with worklist := rest }.processMethod id) s') : MethodsEnd s s'

def countWave (s : Analysis) : Analysis := { s with tally := { s.tally with waves := s.tally.waves + 1 } }

/-- The loop over the waves: it ends with the one after which no task waits. -/
inductive WavesEnd : Analysis → Analysis → Prop where
  | done {s s' : Analysis} (methods : MethodsEnd s.countWave s') (h : s'.deferred = []) : WavesEnd s s'
  | next {s s' s'' : Analysis} (methods : MethodsEnd s.countWave s') (h : s'.deferred ≠ [])
      (later : WavesEnd s'.runTasks s'') : WavesEnd s s''

/-! ## There is one end at most -/

theorem MethodsEnd.unique (h : MethodsEnd s s') (h' : MethodsEnd s s'') : s' = s'' := by
  induction h with
  | done hw =>
    cases h' with
    | done => rfl
    | next hw' => rw [hw] at hw'; cases hw'
  | next hw _ ih =>
    cases h' with
    | done hw' => rw [hw] at hw'; cases hw'
    | next hw' later =>
      rw [hw] at hw'
      cases hw'
      exact ih later

theorem WavesEnd.unique (h : WavesEnd s s') (h' : WavesEnd s s'') : s' = s'' := by
  induction h with
  | done hm hd =>
    cases h' with
    | done hm' => exact hm.unique hm'
    | next hm' hd' => exact absurd (hm.unique hm' ▸ hd) hd'
  | next hm hd _ ih =>
    cases h' with
    | done hm' hd' => exact absurd (hm'.unique hm ▸ hd') hd
    | next hm' _ later =>
      obtain rfl := hm.unique hm'
      exact ih later

/-! ## There is an end -/

theorem methodsEnd_processMethods {fuel : Nat} (h : (processMethods fuel s).worklist = []) :
    MethodsEnd s (processMethods fuel s) := by
  induction fuel generalizing s with
  | zero => exact .done h
  | succ fuel ih =>
    cases hw : s.worklist with
    | nil =>
      rw [processMethods_of_empty hw]
      exact .done hw
    | cons id rest =>
      unfold processMethods at h ⊢
      rw [hw] at h ⊢
      exact .next hw (ih h)

/-- With more waves than there are tasks left, the count of the waves never stops a run. -/
theorem wavesEnd_runWaves {s₀ : Analysis} {m t fuel : Nat} (hr : s₀.Running m t s) (hc : s.Covered [])
    (hf : t < fuel) : WavesEnd s (runWaves m fuel s) := by
  induction fuel generalizing t s with
  | zero => exact absurd hf (Nat.not_lt_zero t)
  | succ fuel ih =>
    have hmethods : MethodsEnd s.countWave (waveMethods m s) :=
      methodsEnd_processMethods (running_waveMethods hr hc).2
    rw [runWaves_succ]
    split
    · next hd => exact .done hmethods (List.isEmpty_iff.1 hd)
    · next hd =>
      obtain ⟨k, rfl, hr₁, hc₁⟩ := running_wave hr hc hd
      exact .next hmethods (fun h => hd (List.isEmpty_iff.2 h)) (ih hr₁ hc₁ (by omega))

theorem Sound.wavesEnd (h : s.Sound) : WavesEnd s.reseedEntries s.settle := by
  have hreseed := moves_reseedEntries h.valid []
  have hrunning : s.reseedEntries.Running s.reseedEntries.methodBound s.reseedEntries.taskBound s.reseedEntries :=
    ⟨hreseed.valid h.valid, .refl _, methodsLeft_le_bound _, tasksLeft_le_bound _⟩
  exact wavesEnd_runWaves hrunning (hreseed.covered h.covered) (Nat.lt_succ_self _)

/-- A run in which nothing waits counts a wave, processes no method and runs no task. -/
theorem settle_of_isSettled (h : s.isSettled) : s.settle = s.countWave := by
  simp only [isSettled, Bool.and_eq_true, Bool.not_eq_true', List.isEmpty_iff] at h
  obtain ⟨⟨⟨hreseed, hworklist⟩, hdeferred⟩, -⟩ := h
  have hstart : s.reseedEntries = s := by
    unfold reseedEntries
    rw [hreseed]
    rfl
  have hwave : ∀ m, waveMethods m s = s.countWave := processMethods_of_empty (s := s.countWave) hworklist
  unfold settle
  rw [hstart]
  simp only []
  rw [runWaves_succ, hwave, if_pos]
  exact List.isEmpty_iff.2 hdeferred

/-! ## Every run settles -/

/-- What a run comes to: its unbounded loops end, in the state that `settle` gives and in no other; nothing waits
there; and another run does no more than to count a wave. -/
structure Settles (s : Analysis) : Prop where
  ends : ∀ s', WavesEnd s.reseedEntries s' ↔ s' = s.settle
  settled : s.settle.isSettled
  again : s.settle.settle = s.settle.countWave

theorem Sound.settles (h : s.Sound) : s.Settles where
  ends _ := ⟨fun hend => hend.unique h.wavesEnd, fun heq => heq ▸ h.wavesEnd⟩
  settled := isSettled_settle h
  again := settle_of_isSettled (isSettled_settle h)

/-- Every run settles, in any world, with any settings and whatever the session was asked before. -/
theorem settles_history (w : World) (settings : Settings) (ops : List Op) :
    ((Analysis.new w settings).history ops).Settles :=
  ((sound_new w settings).history ops).1.settles

end Analysis

end TypeFlow
