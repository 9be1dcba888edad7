import TypeFlow.Proofs.Analysis.Entries
import TypeFlow.Proofs.Analysis.Fixpoint

/-!
# Entry points survive evictions

The next run after an eviction empties the table of entry points and fills it
again through the requests that filled it first, any of which may fail. What
carries the proof is that at every moment a table entry is either linked, with
its parameter types where they belong, or known to lead nowhere and reported.
Only while a run is due after an eviction may an entry be neither.
-/

namespace TypeFlow

namespace Analysis

def Command.enters : Command → Bool
  | entry _ => true
  | seed _ _ _ => true
  | world _ => false
  | evict _ => false
  | settle => false

def Seeded (s : Analysis) (m : QualifiedMethod) (seeds : List (Nat × ExactType)) : Prop :=
  ∃ r, s.Linked r.reference r ∧ (s.methodId? m).isSome ∧
    s.hierarchy.Decides (fun c => c.resolveMethod m) (some r.reference) ∧
    ∀ seed ∈ seeds, ∃ n, r.params[seed.1]? = some n ∧ seed.2 ∈ s.graph.typesAt n ∧ seed.2 ∈ s.graph.typesAt root

def LeadsNowhere (s : Analysis) (m : QualifiedMethod) : Prop :=
  s.hierarchy.Decides (fun c => c.resolveMethod m) none

structure Rostered (s : Analysis) : Prop where
  nodup : ∀ {m seeds}, s.entries.find? m = some seeds → seeds.Nodup
  slots : ∀ {m seeds}, s.entries.find? m = some seeds → ∀ seed ∈ seeds, seed.1 ≤ m.signature.params.length
  placed : s.reseed = false → ∀ {m seeds}, s.entries.find? m = some seeds →
    s.Seeded m seeds ∨ s.LeadsNowhere m ∧ .missingEntry m ∈ s.problems
  reported : ∀ {m}, .missingEntry m ∈ s.problems → s.reseed = false ∧ m ∈ s.entries.keys ∧ s.LeadsNowhere m

structure EntriesServed (s : Analysis) : Prop where
  linked : ∀ {m seeds target}, s.entries.find? m = some seeds → s.hierarchy.view.resolveMethod m = some target →
    ∃ r, s.method? m = some r ∧ r.reference = target ∧ r.processed = true ∧
      ∀ seed ∈ seeds, ∃ n, r.params[seed.1]? = some n ∧ seed.2 ∈ s.graph.typesAt n ∧ seed.2 ∈ s.graph.typesAt root
  unresolved : s.unresolvedEntries = s.entries.keys.filter fun m => (s.hierarchy.view.resolveMethod m).isNone
  reported : ∀ m, .missingEntry m ∈ s.problems ↔ m ∈ s.entries.keys ∧ s.hierarchy.view.resolveMethod m = none

variable {w : Actor} {s s' : Analysis} {γ γ' : List Duty} {m : QualifiedMethod} {seeds : List (Nat × ExactType)}

/-! ## What an entry of the table says -/

/-- A reference that names a linked method goes on to name it. -/
theorem Grows.method? (h : s.Grows s') (hv : s.Valid) (hv' : s'.Valid) {r : MethodRecord}
    (hr : s.method? m = some r) : ∃ r', s'.method? m = some r' ∧ r.Grows r' := by
  obtain ⟨id, hid, hget⟩ := Option.bind_eq_some_iff.1 hr
  obtain ⟨r₁, hget₁, hdecides₁⟩ := hv.methods.names_of_methodId? hid
  obtain rfl : r = r₁ := Option.some.inj (hget.symm.trans hget₁)
  obtain ⟨r', hget', hg⟩ := h.methods id r hget
  obtain ⟨id', hid'⟩ := Option.isSome_iff_exists.1 (h.isSome_methodId? (Option.isSome_of_eq_some hid))
  obtain ⟨r₂, hget₂, hdecides₂⟩ := hv'.methods.names_of_methodId? hid'
  have href : r₂.reference = r.reference := Option.some.inj (hdecides₂.unique (h.decides hdecides₁))
  obtain rfl := hv'.methods.unique hget₂ hget' (href.trans hg.reference.symm)
  exact ⟨r', Option.bind_eq_some_iff.2 ⟨_, hid', hget'⟩, hg⟩

theorem Grows.seeded (h : s.Grows s') (hs : s.Seeded m seeds) : s'.Seeded m seeds := by
  obtain ⟨r, hlinked, hid, hdecides, hseeds⟩ := hs
  obtain ⟨r', hlinked', hg⟩ := h.linked hlinked
  rw [← hg.reference] at hlinked' hdecides
  refine ⟨r', hlinked', h.isSome_methodId? hid, h.decides hdecides, fun seed hseed => ?_⟩
  obtain ⟨n, hn, hat, hroot⟩ := hseeds seed hseed
  exact ⟨n, hg.params ▸ hn, h.graph.mem_typesAt hat, h.graph.mem_typesAt hroot⟩

theorem LeadsNowhere.not_linked (h : s.LeadsNowhere m) (hv : s.Valid) : s.methodId? m = none := by
  cases hid : s.methodId? m with
  | none => rfl
  | some id =>
    obtain ⟨r, -, hdecides⟩ := hv.methods.names_of_methodId? hid
    cases h.unique hdecides

/-- The reference of an entry point names the record that has its parameter types. -/
theorem Seeded.method? (h : s.Seeded m seeds) (hv : s.Valid) :
    ∃ r, s.method? m = some r ∧ s.Linked r.reference r ∧
      s.hierarchy.Decides (fun c => c.resolveMethod m) (some r.reference) ∧
      ∀ seed ∈ seeds, ∃ n, r.params[seed.1]? = some n ∧ seed.2 ∈ s.graph.typesAt n ∧
        seed.2 ∈ s.graph.typesAt root := by
  obtain ⟨r, ⟨-, k, hk⟩, hm, hdecides, hseeds⟩ := h
  obtain ⟨id, hid⟩ := Option.isSome_iff_exists.1 hm
  obtain ⟨r', hr', hdecides'⟩ := hv.methods.names_of_methodId? hid
  obtain rfl := hv.methods.unique hk hr' (Option.some.inj (hdecides.unique hdecides'))
  exact ⟨r, Option.bind_eq_some_iff.2 ⟨_, hid, hk⟩, ⟨rfl, _, hk⟩, hdecides, hseeds⟩

theorem seeded_nil (hv : s.Valid) (hm : (s.methodId? m).isSome) : s.Seeded m [] := by
  obtain ⟨id, hid⟩ := Option.isSome_iff_exists.1 hm
  obtain ⟨r, hr, hdecides⟩ := hv.methods.names_of_methodId? hid
  exact ⟨r, ⟨rfl, id, hr⟩, hm, hdecides, fun seed hseed => absurd hseed List.not_mem_nil⟩

theorem Seeded.snoc (h : s.Seeded m seeds) (hv : s.Valid) {r : MethodRecord}
    (hr : s.method? m = some r) {index : Nat}
    {n : NodeId} (hn : r.params[index]? = some n) {t : ExactType} (ht : t ∈ s.graph.typesAt n)
    (hroot : t ∈ s.graph.typesAt root) : s.Seeded m (seeds ++ [(index, t)]) := by
  obtain ⟨r', hr', hlinked, hdecides, hseeds⟩ := h.method? hv
  obtain rfl : r = r' := Option.some.inj (hr.symm.trans hr')
  obtain ⟨-, -, hm, -⟩ := h
  refine ⟨r, hlinked, hm, hdecides, fun seed hseed => ?_⟩
  rcases List.mem_append.1 hseed with hseed | hseed
  · exact hseeds seed hseed
  · rw [List.mem_singleton] at hseed
    subst hseed
    exact ⟨n, hn, ht, hroot⟩

/-! ## What others than the user of entry points leave alone -/

theorem Step.reseed_same (h : Step w s γ s' γ') (hw : w ≠ .driver) : s'.reseed = s.reseed := by
  cases h with
  | linkClass name =>
    obtain ⟨h, c, p, heq, -⟩ := s.linkClass_frame name
    rw [heq]
  | aggregate ht => rw [aggregate_of_none ht]
  | pool hk => rw [poolNode_of_none hk]
  | reseed hdriver => exact absurd hdriver hw
  | _ => rfl

theorem missingEntry_linkClass (s : Analysis) (name : ClassName) :
    .missingEntry m ∈ (s.linkClass name).2.problems ↔ .missingEntry m ∈ s.problems := by
  by_cases hn : name ∈ s.classes.keys
  · rw [linkClass_of_mem hn]
  · rw [linkClass_of_not_mem hn]
    simp [recordClasses_spec]

theorem Step.missingEntry_iff (h : Step w s γ s' γ') (hw : w ≠ .driver) :
    .missingEntry m ∈ s'.problems ↔ .missingEntry m ∈ s.problems := by
  cases h with
  | linkClass name => exact s.missingEntry_linkClass name
  | @report p hp hq =>
    have hne : p.entry? = none := hq.resolve_left hw
    unfold Analysis.report
    rw [OrderedSet.mem_insert]
    refine ⟨fun h => h.resolve_right ?_, Or.inl⟩
    rintro rfl
    cases hne
  | aggregate ht => rw [aggregate_of_none ht]
  | pool hk => rw [poolNode_of_none hk]
  | _ => exact Iff.rfl

theorem Moves.reseed_same (h : Moves w s γ s' γ') (hw : w ≠ .driver) : s'.reseed = s.reseed :=
  h.invariant (P := fun t _ => t.reseed = s.reseed) (fun hstep ht => (hstep.reseed_same hw).trans ht) rfl

theorem Moves.missingEntry_iff (h : Moves w s γ s' γ') (hw : w ≠ .driver) :
    .missingEntry m ∈ s'.problems ↔ .missingEntry m ∈ s.problems :=
  h.invariant (P := fun t _ => .missingEntry m ∈ t.problems ↔ .missingEntry m ∈ s.problems)
    (fun hstep ht => (hstep.missingEntry_iff hw).trans ht) Iff.rfl

namespace Rostered

/-- Growth that leaves the table, the mark and the reports alone keeps what the table says. -/
theorem grow (h : s.Rostered) (hg : s.Grows s') (hentries : s'.entries = s.entries) (hreseed : s'.reseed = s.reseed)
    (hreports : ∀ m, .missingEntry m ∈ s'.problems ↔ .missingEntry m ∈ s.problems) : s'.Rostered where
  nodup hm := h.nodup (hentries ▸ hm)
  slots hm := h.slots (hentries ▸ hm)
  placed hr {m seeds} hm := by
    rw [hentries] at hm
    rw [hreseed] at hr
    exact (h.placed hr hm).imp hg.seeded fun hn => ⟨hg.decides hn.1, (hreports m).2 hn.2⟩
  reported {m} hm := by
    obtain ⟨hr, hk, hn⟩ := h.reported ((hreports m).1 hm)
    exact ⟨hreseed.trans hr, hentries ▸ hk, hg.decides hn⟩

theorem moves (h : s.Rostered) (hm : Moves w s γ s' γ') (hw : w ≠ .driver) : s'.Rostered :=
  h.grow hm.grows (hm.entries_eq hw) (hm.reseed_same hw) fun _ => hm.missingEntry_iff hw

/-- An entry is written that is linked, or leads nowhere and is among the problems then. -/
theorem write (h : s.Rostered) {p : Problems} (hnd : seeds.Nodup)
    (hslots : ∀ seed ∈ seeds, seed.1 ≤ m.signature.params.length)
    (hplaced : s.reseed = false → s.Seeded m seeds ∨ s.LeadsNowhere m ∧ .missingEntry m ∈ p)
    (hkept : ∀ q ∈ s.problems, q ∈ p) (hnew : ∀ {k}, .missingEntry k ∈ p →
      .missingEntry k ∈ s.problems ∨ k = m ∧ s.reseed = false ∧ s.LeadsNowhere m) :
    { s with problems := p, entries := s.entries.insert m seeds }.Rostered where
  nodup hk := by
    rcases Table.find?_insert_cases hk with hk | ⟨rfl, rfl⟩
    · exact h.nodup hk
    · exact hnd
  slots hk := by
    rcases Table.find?_insert_cases hk with hk | ⟨rfl, rfl⟩
    · exact h.slots hk
    · exact hslots
  placed hr {k _} hk := by
    rcases Table.find?_insert_cases hk with hk | ⟨rfl, rfl⟩
    · exact (h.placed hr hk).imp id fun hn => ⟨hn.1, hkept _ hn.2⟩
    · exact hplaced hr
  reported {k} hk := by
    have hkeys : ∀ j, j ∈ s.entries.keys ∨ j = m → j ∈ (s.entries.insert m seeds).keys := by
      intro j hj
      rw [← Table.find?_isSome_iff, Table.find?_insert]
      split
      · rfl
      · next hne => exact Table.find?_isSome_iff.2 (hj.resolve_right hne)
    rcases hnew hk with hk | ⟨rfl, hr, hn⟩
    · obtain ⟨hr, hmem, hn⟩ := h.reported hk
      exact ⟨hr, hkeys k (Or.inl hmem), hn⟩
    · exact ⟨hr, hkeys k (Or.inr rfl), hn⟩

/-! ## Adding entry points and parameter types -/

theorem insertNew (h : s.Rostered) (hv : s.Valid) (hm : (s.methodId? m).isSome) :
    { s with entries := s.entries.insertNew m [] }.Rostered := by
  by_cases hk : m ∈ s.entries.keys
  · have hsame : s.entries.insertNew m [] = s.entries := if_pos hk
    rw [hsame]
    exact h
  · rw [Table.insertNew_of_not_mem hk]
    exact h.write List.nodup_nil (fun seed hseed => absurd hseed List.not_mem_nil)
      (fun _ => Or.inl (seeded_nil hv hm)) (fun _ hq => hq) Or.inl

theorem noteSeed (h : s.Rostered) (hv : s.Valid) {r : MethodRecord} (hr : s.method? m = some r) {index : Nat}
    {n : NodeId} (hn : r.params[index]? = some n) {t : ExactType} (ht : t ∈ s.graph.typesAt n)
    (hroot : t ∈ s.graph.typesAt root) : (s.noteSeed m (index, t)).Rostered := by
  have hlinked : (s.methodId? m).isSome := by
    obtain ⟨id, hid, -⟩ := Option.bind_eq_some_iff.1 hr
    exact Option.isSome_of_eq_some hid
  have hslot : index ≤ m.signature.params.length := by
    have hlt := (List.getElem?_eq_some_iff.1 hn).1
    rw [hv.methods.length_params hr] at hlt
    omega
  -- what is noted so far is as it should be, also where nothing is noted
  have hnoted : ∀ noted, (s.entries.find? m).getD [] = noted → noted.Nodup ∧
      (∀ seed ∈ noted, seed.1 ≤ m.signature.params.length) ∧ (s.reseed = false → s.Seeded m noted) := by
    intro noted hnoted
    cases hfind : s.entries.find? m with
    | none =>
      rw [hfind] at hnoted
      subst hnoted
      exact ⟨List.nodup_nil, fun seed hseed => absurd hseed List.not_mem_nil, fun _ => seeded_nil hv hlinked⟩
    | some seeds =>
      rw [hfind] at hnoted
      subst hnoted
      refine ⟨h.nodup hfind, h.slots hfind, fun hreseed => (h.placed hreseed hfind).resolve_right ?_⟩
      rintro ⟨hnowhere, -⟩
      rw [hnowhere.not_linked hv] at hlinked
      cases hlinked
  obtain ⟨hnd, hslots, hseeded⟩ := hnoted _ rfl
  unfold Analysis.noteSeed
  simp only
  split
  · exact h.write hnd hslots (fun hreseed => Or.inl (hseeded hreseed)) (fun _ hq => hq) Or.inl
  · next hnew =>
    refine h.write (OrderedSet.nodup_snoc hnd hnew) (fun seed hseed => ?_)
      (fun hreseed => Or.inl ((hseeded hreseed).snoc hv hr hn ht hroot)) (fun _ hq => hq) Or.inl
    rcases List.mem_append.1 hseed with hseed | hseed
    · exact hslots seed hseed
    · rw [List.mem_singleton] at hseed
      exact hseed ▸ hslot

theorem seedParam (h : s.Rostered) (hv : s.Valid) {index : Nat} {t : ExactType}
    (hok : s.seedParam m index t = .ok s') : s'.Rostered := by
  obtain ⟨r, n, hr, hn, rfl⟩ := seedParam_eq_ok_iff.1 hok
  obtain ⟨hinst, happears⟩ := moves_instantiate (w := .client) (t := t) hv (hv.methods.param_plain hr hn) nofun []
  obtain ⟨hat, hroot⟩ := happears n rfl
  have hv' := hinst.valid hv
  obtain ⟨r', hr', hg⟩ := hinst.grows.method? hv hv' hr
  exact (h.moves hinst nofun).noteSeed hv' hr' (hg.params ▸ hn) hat hroot

theorem addEntry (h : s.Rostered) (hv : s.Valid) (m : QualifiedMethod) : (s.addEntry m).2.Rostered := by
  have hlink := (moves_linkMethod (w := .client) hv [] m).1
  cases hid : (s.linkMethod m).1 with
  | none =>
    rw [addEntry_of_unresolved hid]
    exact h.moves hlink nofun
  | some id =>
    have hinit := moves_initializeOwner (w := .client) (hlink.valid hv) id []
    rw [addEntry_of_linked hid]
    exact ((h.moves hlink nofun).moves hinit nofun).insertNew (hinit.valid (hlink.valid hv))
      (hinit.grows.isSome_methodId? (isSome_methodId?_linkMethod hv hid))

/-! ## Linking entry points again -/

/-- The parameter types of a linked entry point are all given again: their places are there as before. -/
theorem reseedParams (h : s.Rostered) (hv : s.Valid) (hm : (s.methodId? m).isSome)
    (hslots : ∀ seed ∈ seeds, seed.1 ≤ m.signature.params.length) : (seeds.foldl (reseedParam m) s).Rostered := by
  induction seeds generalizing s with
  | nil => exact h
  | cons seed seeds ih =>
    obtain ⟨s', hok⟩ := seedParam_of_linked hv hm (hslots seed List.mem_cons_self) seed.2
    have hmoves := moves_seedParam hv hok []
    have hfirst : s.reseedParam m seed = s' := by
      unfold reseedParam
      rw [hok]
    rw [List.foldl_cons, hfirst]
    exact ih (h.seedParam hv hok) (hmoves.valid hv) (hmoves.grows.isSome_methodId? hm)
      fun seed hseed => hslots seed (List.mem_cons_of_mem _ hseed)

theorem reseedEntry (h : s.Rostered) (hv : s.Valid) (hr : s.reseed = false) (hnd : seeds.Nodup)
    (hslots : ∀ seed ∈ seeds, seed.1 ≤ m.signature.params.length) : (s.reseedEntry m seeds).Rostered := by
  have hadded := h.addEntry hv m
  rcases addEntry_cases hv m with ⟨id, t, hadd, -, ht, -, hlinked⟩ | ⟨t, hadd, hnone, -⟩
  · rw [hadd] at hadded
    rw [reseedEntry_of_ok hadd]
    exact hadded.reseedParams ht hlinked hslots
  · obtain ⟨hlink, hnames⟩ := moves_linkMethod (w := .client) hv [] m
    rw [addEntry_of_unresolved hnone] at hadd hadded
    rw [hnone] at hnames
    rw [reseedEntry_of_error (addEntry_of_unresolved hnone)]
    have hr' : (s.linkMethod m).2.reseed = false := (hlink.reseed_same nofun).trans hr
    refine hadded.write hnd hslots (fun _ => Or.inr ⟨hnames, OrderedSet.mem_insert.2 (Or.inr rfl)⟩)
      (fun _ hq => OrderedSet.mem_insert.2 (Or.inl hq)) fun hk => ?_
    refine (OrderedSet.mem_insert.1 hk).imp id fun hk => ?_
    cases hk
    exact ⟨rfl, hr', hnames⟩

theorem foldl_reseedEntry (h : s.Rostered) (hv : s.Valid) (hr : s.reseed = false)
    {l : List (QualifiedMethod × List (Nat × ExactType))}
    (hl : ∀ e ∈ l, e.2.Nodup ∧ ∀ seed ∈ e.2, seed.1 ≤ e.1.signature.params.length) :
    (l.foldl (fun s e => s.reseedEntry e.1 e.2) s).Rostered := by
  induction l generalizing s with
  | nil => exact h
  | cons e l ih =>
    obtain ⟨hnd, hslots⟩ := hl e List.mem_cons_self
    have hmoves := moves_reseedEntry hv e.1 e.2 []
    exact ih (h.reseedEntry hv hr hnd hslots) (hmoves.valid hv) (hmoves.reseed_eq hr)
      fun e he => hl e (List.mem_cons_of_mem _ he)

theorem reseedEntries (h : s.Rostered) (hv : s.Valid) : s.reseedEntries.Rostered := by
  unfold Analysis.reseedEntries
  by_cases hr : s.reseed = true
  · rw [if_pos hr]
    -- the table is empty now, and nothing was reported while the run was due
    have hempty : { s with reseed := false, entries := ∅ }.Rostered :=
      ⟨nofun, nofun, fun _ => nofun, fun hm => nomatch hr.symm.trans (h.reported hm).1⟩
    refine hempty.foldl_reseedEntry ((moves_takeEntries s []).valid hv) rfl fun e he => ?_
    have hfind : s.entries.find? e.1 = some e.2 := Table.find?_eq_some_iff.2 he
    exact ⟨h.nodup hfind, h.slots hfind⟩
  · rw [if_neg hr]
    exact h

/-! ## Requests -/

theorem settle (h : s.Rostered) (hs : s.Sound) : s.settle.Rostered := by
  have hreseed := moves_reseedEntries hs.valid []
  exact (h.reseedEntries hs.valid).moves
    (moves_runWaves (w := .analysis) nofun (hreseed.valid hs.valid) (hreseed.covered hs.covered) _ _) nofun

theorem setWorld (h : s.Rostered) (w : World) : (s.setWorld w).Rostered :=
  h.grow (.withHierarchy s (s.hierarchy.retains_setWorld w)) rfl rfl fun _ => Iff.rfl

theorem evict (h : s.Rostered) (names : List ClassName) : (s.evict names).2.Rostered where
  nodup := h.nodup
  slots := h.slots
  placed := nofun
  reported hm := absurd hm (OrderedSet.not_mem_empty _)

theorem command (h : s.Rostered) (hs : s.Sound) (c : Command) : (s.command c).Rostered := by
  cases c with
  | entry m => exact h.addEntry hs.valid m
  | seed m index t =>
    simp only [Analysis.command]
    split
    · next hok => exact h.seedParam hs.valid hok
    · exact h
  | world w => exact h.setWorld w
  | evict names => exact h.evict names
  | settle => exact h.settle hs

theorem history (h : s.Rostered) (hs : s.Sound) (ops : List Op) : (s.history ops).Rostered := by
  induction ops generalizing s with
  | nil => exact h
  | cons op ops ih =>
    refine ih ?_ (hs.apply op).1
    rcases hs.apply_cases op with hm | ⟨c, rfl⟩
    · exact h.moves hm nofun
    · exact h.command hs c

theorem after (h : s.Rostered) (hs : s.Sound) (commands : List Command) : (s.after commands).Rostered := by
  induction commands generalizing s with
  | nil => exact h
  | cons c commands ih => exact ih (h.command hs c) (hs.command c).1

theorem entries_command (h : s.Rostered) (hs : s.Sound) {c : Command} (hc : c.enters = false) :
    (s.command c).entries = s.entries := by
  cases c with
  | entry m => cases hc
  | seed m index t => cases hc
  | world w => rfl
  | evict names => rfl
  | settle => exact hs.entries_settle fun e he => h.nodup (Table.find?_eq_some_iff.2 he)

theorem entries_after (h : s.Rostered) (hs : s.Sound) {commands : List Command}
    (hcommands : ∀ c ∈ commands, c.enters = false) : (s.after commands).entries = s.entries := by
  induction commands generalizing s with
  | nil => rfl
  | cons c commands ih =>
    have hrest := ih (h.command hs c) (hs.command c).1 fun c hc => hcommands c (List.mem_cons_of_mem _ hc)
    exact hrest.trans (h.entries_command hs (hcommands c List.mem_cons_self))

/-! ## Settled analyses -/

theorem isNone_methodId?_iff (h : s.Rostered) (hv : s.Valid) (hr : s.reseed = false) (hm : m ∈ s.entries.keys) :
    (s.methodId? m).isNone = true ↔ s.hierarchy.view.resolveMethod m = none := by
  obtain ⟨seeds, hfind⟩ := Option.isSome_iff_exists.1 (Table.find?_isSome_iff.2 hm)
  rcases h.placed hr hfind with ⟨r, -, hid, hdecides, -⟩ | ⟨hn, -⟩
  · constructor
    · intro hnone
      rw [Option.isNone_iff_eq_none.1 hnone] at hid
      cases hid
    · intro hnone
      cases hnone.symm.trans hdecides.view
  · rw [hn.not_linked hv]
    exact iff_of_true rfl (Hierarchy.Decides.view hn)

theorem missing_of_unresolved (h : s.Rostered) (hr : s.reseed = false) (hm : m ∈ s.entries.keys)
    (hnone : s.hierarchy.view.resolveMethod m = none) : .missingEntry m ∈ s.problems := by
  obtain ⟨seeds, hfind⟩ := Option.isSome_iff_exists.1 (Table.find?_isSome_iff.2 hm)
  rcases h.placed hr hfind with ⟨r, -, -, hdecides, -⟩ | ⟨-, hreported⟩
  · cases hnone.symm.trans hdecides.view
  · exact hreported

theorem served (h : s.Rostered) (hs : s.Sound) (hsettled : s.isSettled) : s.EntriesServed := by
  have hr : s.reseed = false := by
    simp only [isSettled, Bool.and_eq_true, Bool.not_eq_true'] at hsettled
    exact hsettled.1.1.1
  refine ⟨fun {m seeds target} hfind hresolves => ?_, ?_, fun m => ⟨fun hm => ?_, fun hm => ?_⟩⟩
  · rcases h.placed hr hfind with hseeded | ⟨hn, -⟩
    · obtain ⟨r, hmethod, hlinked, hdecides, hseeds⟩ := hseeded.method? hs.valid
      have htarget : r.reference = target := Option.some.inj (hdecides.view.symm.trans hresolves)
      exact ⟨r, hmethod, htarget, hs.processed hsettled hlinked, hseeds⟩
    · cases (Hierarchy.Decides.view hn).symm.trans hresolves
  · refine List.filter_congr fun m hm => ?_
    rw [Bool.eq_iff_iff, h.isNone_methodId?_iff hs.valid hr hm, Option.isNone_iff_eq_none]
  · obtain ⟨-, hmem, hn⟩ := h.reported hm
    exact ⟨hmem, Hierarchy.Decides.view hn⟩
  · exact h.missing_of_unresolved hr hm.1 hm.2

end Rostered

theorem rostered_new (w : World) (settings : Settings) : (Analysis.new w settings).Rostered :=
  ⟨nofun, nofun, fun _ => nofun, fun hm => absurd hm (OrderedSet.not_mem_empty _)⟩

/-- New worlds, evictions and runs, however many and in any order, leave the entry points and their parameter types
as they are; the run after them links every entry point that resolves and reports the others. -/
theorem entries_survive (w : World) (settings : Settings) (ops : List Op) (later : List Command)
    (hlater : ∀ c ∈ later, c.enters = false) :
    (((new w settings).history ops).after later).entries = ((new w settings).history ops).entries ∧
      (((new w settings).history ops).after later).settle.EntriesServed := by
  have hsound := ((sound_new w settings).history ops).1
  have hrostered := (rostered_new w settings).history (sound_new w settings) ops
  have hlast := hsound.after later
  have hfinal := (hrostered.after hsound later).settle hlast
  exact ⟨hrostered.entries_after hsound hlater, hfinal.served hlast.settle.1 (isSettled_settle hlast)⟩

/-- An entry point with a parameter type, whose class is gone for a generation. -/
theorem entries_survive_sampleMain :
    (((new sampleWorld {}).history
          [.command (.entry sampleMain), .command (.seed sampleMain 0 (.ofClass "A"))]).after
        [.settle, .world ⟨[], by decide⟩, .evict ["A"], .settle, .world sampleWorld, .evict ["A"]]).entries
      = ((new sampleWorld {}).history
          [.command (.entry sampleMain), .command (.seed sampleMain 0 (.ofClass "A"))]).entries ∧
      (((new sampleWorld {}).history
          [.command (.entry sampleMain), .command (.seed sampleMain 0 (.ofClass "A"))]).after
        [.settle, .world ⟨[], by decide⟩, .evict ["A"], .settle, .world sampleWorld,
          .evict ["A"]]).settle.EntriesServed :=
  entries_survive sampleWorld {} _ _ (by decide)

end Analysis

end TypeFlow
