import TypeFlow.Proofs.Devirtualize
import TypeFlow.Proofs.Solution.Entailment

/-!
# Settled sessions

A settled session solves what was asked of it: its facts are the least set that
is closed under the rules and contains what was asked for. What is read from
one is told by these facts alone, so two sessions are compared by comparing the
closed sets.
-/

namespace TypeFlow

namespace Analysis

/-- Whether a settled analysis has what follows from `A` and nothing else. -/
structure Solves (w : World) (o : Settings) (A : List Fact) (s : Analysis) : Prop where
  sound : s.Sound
  rooted : s.Rooted
  settled : s.isSettled
  asked : ∀ φ ∈ A, s.Has φ
  grounded : ∀ {K}, w.catalog.Closed o K → (∀ φ ∈ A, K φ) → Grounded w o K [] s

variable {w : World} {o : Settings} {K : Fact → Prop} {Γ A : List Fact} {s : Analysis}

theorem solves_after {requests : List Request} (hi : Introduced w.catalog [] requests)
    (hs : ((Analysis.new w o).after (requests.map Request.command)).isSettled) :
    Solves w o (requests.flatMap w.catalog.asking) ((Analysis.new w o).after (requests.map Request.command)) where
  sound := (sound_new w o).after _
  rooted := (rooted_new w o).after (sound_new w o) _
  settled := hs
  asked := ((grounded_new w o _).after (closed_true w.catalog o) hi (fun _ hn => absurd hn List.not_mem_nil)
    fun _ _ => trivial).has
  grounded hK hA := ((grounded_new w o _).after hK hi (fun _ hn => absurd hn List.not_mem_nil) hA).grounded

theorem solves_answer {requests : List Request} (hi : Introduced w.catalog [] requests) :
    Solves w o (requests.flatMap w.catalog.asking) ((Analysis.new w o).answer requests) where
  sound := (sound_answer w o requests).1
  rooted := ((rooted_new w o).after (sound_new w o) _).command ((sound_new w o).after _) .settle
  settled := (sound_answer w o requests).2
  asked := (grounded_answer (closed_true w.catalog o) hi fun _ _ => trivial).has
  grounded hK hA := (grounded_answer hK hi hA).grounded

namespace Solves

theorem all (h : Solves w o A s) : Grounded w o (fun _ => True) [] s :=
  h.grounded (closed_true w.catalog o) fun _ _ => trivial

theorem closed (h : Solves w o A s) : w.catalog.Closed o s.Has := h.all.closed h.sound h.settled

/-- What is kept by every rule holds of all facts, but for edges from a slot to itself. -/
theorem least (h : Solves w o A s) (hK : w.catalog.Closed o K) (hA : ∀ φ ∈ A, K φ) {φ : Fact} (hφ : s.Has φ)
    (hne : ∀ x, φ ≠ .flow x x) : K φ :=
  ((h.grounded hK hA).mem hφ).resolve_right fun ⟨x, hx⟩ => hne x hx

end Solves

/-! ## Served calls -/

/-- Whether a fact, if it is a served call, comes from the body of a linked method. -/
def Written (w : World) (o : Settings) (s : Analysis) : Fact → Prop
  | .serves κ σ => ∃ m, s.Has (.method m) ∧ .serves κ σ ∈ w.catalog.methodFacts o m
  | _ => True

theorem written_of_silent {φ : Fact} (h : φ.chooser? = none) : Written w o s φ := by
  cases φ with
  | serves κ σ => cases h
  | _ => trivial

theorem written_of_follows {φ ψ : Fact} (hφ : s.Has φ) (hψ : ψ ∈ w.catalog.consequences o φ) : Written w o s ψ := by
  by_cases hm : ∃ m, φ = .method m
  · obtain ⟨m, rfl⟩ := hm
    cases ψ with
    | serves κ σ => exact ⟨m, hφ, hψ⟩
    | _ => trivial
  · exact written_of_silent (w.catalog.silent_consequences o (fun m hφ => hm ⟨m, hφ⟩) _ hψ)

theorem Solves.closed_written (h : Solves w o A s) : w.catalog.Closed o fun φ => s.Has φ ∧ Written w o s φ where
  follows hφ hψ := ⟨h.closed.follows hφ.1 hψ, written_of_follows hφ.1 hψ⟩
  carry ht hf := ⟨h.closed.carry ht.1 hf.1, trivial⟩
  aggregate ht hφ := ⟨h.closed.aggregate ht.1 hφ, written_of_silent (Fact.silent_gathering _ _ hφ)⟩
  gather ht := ⟨h.closed.gather ht.1, trivial⟩
  attach hκ hn hφ := ⟨h.closed.attach hκ.1 hn hφ, written_of_silent (Fact.silent_gathering _ _ hφ)⟩
  choose hκ ht hm := ⟨h.closed.choose hκ.1 ht.1 hm, trivial⟩
  link hm := ⟨h.closed.link hm.1, trivial⟩
  join hm hκ hφ := ⟨h.closed.join hm.1 hκ.1 hφ, written_of_silent (w.catalog.silent_joining _ _ _ hφ)⟩

theorem Solves.method_of_serves (h : Solves w o A s) (hA : Fact.Silent A) {κ : Chooser} {σ : SlotSite}
    (hκ : s.Has (.serves κ σ)) : ∃ m, s.Has (.method m) ∧ .serves κ σ ∈ w.catalog.methodFacts o m :=
  (h.least h.closed_written (fun φ hφ => ⟨h.asked φ hφ, written_of_silent (hA φ hφ)⟩) hκ nofun).2

/-! ## Names -/

theorem Grounded.methodId?_of_named (h : Grounded w o K Γ s) {m n : QualifiedMethod} (hm : s.Has (.named m))
    (hn : w.catalog.resolveMethod m = some n) :
    ∃ id r, s.methodId? m = some id ∧ s.methods[id]? = some r ∧ r.reference = n := by
  obtain ⟨r, hr⟩ := Option.isSome_iff_exists.1 ((method?_isSome h.valid).2 hm)
  obtain ⟨id, hid, hget⟩ := Option.bind_eq_some_iff.1 hr
  exact ⟨id, r, hid, hget, Option.some.inj ((h.resolveMethod_of_method? hr).2.symm.trans hn)⟩

theorem Grounded.named_of_methodId? (h : Grounded w o K Γ s) {m : QualifiedMethod} {id : MethodId}
    (hid : s.methodId? m = some id) : ∃ r, s.methods[id]? = some r ∧ s.Has (.named m) ∧
      w.catalog.resolveMethod m = some r.reference := by
  obtain ⟨r, hr, -⟩ := h.valid.methods.names_of_methodId? hid
  have hm : s.method? m = some r := Option.bind_eq_some_iff.2 ⟨id, hid, hr⟩
  exact ⟨r, hr, has_named_of_methodId? hid, (h.resolveMethod_of_method? hm).2⟩

theorem Grounded.resolveMethod_of_linked (h : Grounded w o K Γ s) {m : QualifiedMethod} (hm : s.Has (.method m)) :
    w.catalog.resolveMethod m = some m := by
  obtain ⟨r, rfl, id, hr⟩ := hm
  exact (h.resolveMethod_of_method? (h.valid.methods.method? hr)).2

theorem Grounded.mem_typesOfLocal (h : Grounded w o K Γ s) {m : QualifiedMethod} {v : Local} {t : ExactType} :
    t ∈ s.typesOfLocal m v ↔
      s.Has (.named m) ∧ ∃ n, w.catalog.resolveMethod m = some n ∧ s.Has (.holds (.var n v) t) := by
  unfold typesOfLocal Analysis.method?
  constructor
  · intro ht
    split at ht
    · next node hnode =>
      obtain ⟨r, hr, hlocal⟩ := Option.bind_eq_some_iff.1 hnode
      obtain ⟨id, hid, hget⟩ := Option.bind_eq_some_iff.1 hr
      obtain ⟨r', hget', hnamed, hres⟩ := h.named_of_methodId? hid
      obtain rfl := Option.some.inj (hget.symm.trans hget')
      exact ⟨hnamed, r.reference, hres, node, ⟨r, ⟨rfl, id, hget⟩, hlocal⟩, ht⟩
    · cases ht
  · rintro ⟨hnamed, n, hres, node, ⟨r, hr, hlocal⟩, ht⟩
    obtain ⟨id, r', hid, hget, href⟩ := h.methodId?_of_named hnamed hres
    obtain rfl := h.valid.methods.linked_unique hr ⟨href, id, hget⟩
    simp only [hid, hget, hlocal, Option.bind_some]
    exact ht

/-! ## The targets of one call -/

/-- The targets of the selector that serves the dynamic calls of `declared` on a local variable of a method. -/
def ownTargets (s : Analysis) (m : QualifiedMethod) (receiver : Local) (declared : QualifiedMethod) :
    List QualifiedMethod :=
  match (s.methodId? m).bind fun id => s.selectorKeys.find? (s.selectorKey id receiver declared) with
  | some id => s.targetsOf id
  | none => []

theorem mem_targetsOf {id : SelectorId} {m : QualifiedMethod} :
    m ∈ s.targetsOf id ↔ ∃ sel, s.selectors[id]? = some sel ∧ m ∈ sel.targets := by
  unfold targetsOf
  cases s.selectors[id]? with
  | none => simp
  | some sel => simp

theorem Grounded.mem_ownTargets (h : Grounded w o K Γ s) {m target declared : QualifiedMethod} {v : Local} :
    target ∈ s.ownTargets m v declared ↔ s.Has (.named m) ∧ ∃ n, w.catalog.resolveMethod m = some n ∧
      s.Has (.target (.of o.precision n v declared) target) := by
  unfold ownTargets
  constructor
  · intro ht
    split at ht
    · next k hk =>
      obtain ⟨id, hid, hkey⟩ := Option.bind_eq_some_iff.1 hk
      obtain ⟨r, hr, hnamed, hres⟩ := h.named_of_methodId? hid
      obtain ⟨sel, hsel, ht⟩ := mem_targetsOf.1 ht
      exact ⟨hnamed, r.reference, hres, k, sel, ⟨_, hkey, h.settings ▸ chosen_selectorKey hr v declared⟩, hsel, ht⟩
    · cases ht
  · rintro ⟨hnamed, n, hres, k, sel, ⟨key, hkey, hchosen⟩, hsel, ht⟩
    obtain ⟨id, r, hid, hr, rfl⟩ := h.methodId?_of_named hnamed hres
    have hown := chosen_selectorKey hr v declared
    rw [h.settings] at hown
    obtain rfl := h.valid.methods.key_unique hchosen hown
    simp only [hid, hkey, Option.bind_some]
    exact mem_targetsOf.2 ⟨sel, hsel, ht⟩

end Analysis

end TypeFlow
