import TypeFlow.Proofs.Analysis.Incremental

/-!
# Entry points across runs

A run links the entry points again that an eviction left and keeps them, in
their order and with their parameter types, whether they can be resolved or
not. Only the user of entry points writes to their table, and only an eviction
starts a new generation.
-/

namespace TypeFlow

/-! ## Writing a table anew -/

namespace Table

variable {κ α : Type}

theorem eq_of_entries {t t' : Table κ α} (h : t.entries = t'.entries) : t = t' := by
  cases t
  cases t'
  cases h
  rfl

variable [DecidableEq κ]

/-- The keys in their order and what is found at them make up a table. -/
theorem eq_of_find? {t t' : Table κ α} (hk : t.keys = t'.keys) (hf : ∀ k, t.find? k = t'.find? k) : t = t' := by
  have hlisted : ∀ u : Table κ α,
      u.keys.map (fun k => (k, u.find? k)) = u.entries.map fun e => (e.1, some e.2) := by
    intro u
    unfold keys
    rw [List.map_map]
    refine List.map_congr_left fun e he => ?_
    exact congrArg (e.1, ·) (find?_eq_some_iff.2 he)
  refine eq_of_entries ((List.map_inj_right (f := fun e : κ × α => (e.1, some e.2)) ?_).1 ?_)
  · rintro ⟨k, v⟩ ⟨k', v'⟩ h
    cases h
    rfl
  · rw [← hlisted t, ← hlisted t', hk, funext hf]

theorem insert_insert (t : Table κ α) (k : κ) (v v' : α) : (t.insert k v).insert k v' = t.insert k v' := by
  refine eq_of_find? ?_ fun j => ?_
  · rw [keys_insert, if_pos (mem_keys_of_find? (t.find?_insert_self k v)), keys_insert, keys_insert]
  · rw [find?_insert, find?_insert, find?_insert]
    split <;> rfl

theorem insert_of_find? {t : Table κ α} {k : κ} {v : α} (h : t.find? k = some v) : t.insert k v = t := by
  refine eq_of_find? ?_ fun j => ?_
  · rw [keys_insert, if_pos (mem_keys_of_find? h)]
  · rw [find?_insert]
    split
    · next hj => rw [hj, h]
    · rfl

theorem insertNew_of_not_mem {t : Table κ α} {k : κ} (hk : k ∉ t.keys) (v : α) :
    t.insertNew k v = t.insert k v := by
  unfold insertNew
  rw [if_neg hk]

theorem entries_insert_of_not_mem {t : Table κ α} {k : κ} (hk : k ∉ t.keys) (v : α) :
    (t.insert k v).entries = t.entries ++ [(k, v)] := by
  unfold insert
  rw [dif_neg hk]

theorem entries_foldl_insert {l : List (κ × α)} {t : Table κ α} (h : (t.keys ++ l.map Prod.fst).Nodup) :
    (l.foldl (fun t e => t.insert e.1 e.2) t).entries = t.entries ++ l := by
  induction l generalizing t with
  | nil => exact (List.append_nil _).symm
  | cons e l ih =>
    have hnew : e.1 ∉ t.keys := fun hmem => (List.nodup_append.1 h).2.2 e.1 hmem e.1 List.mem_cons_self rfl
    have hkeys : (t.insert e.1 e.2).keys ++ l.map Prod.fst = t.keys ++ (e :: l).map Prod.fst := by
      rw [keys_insert, if_neg hnew, List.append_assoc]
      rfl
    rw [List.foldl_cons, ih (hkeys ▸ h), entries_insert_of_not_mem hnew, List.append_assoc]
    rfl

theorem foldl_insert_entries (t : Table κ α) : t.entries.foldl (fun u e => u.insert e.1 e.2) ∅ = t :=
  eq_of_entries (entries_foldl_insert t.nodup)

end Table

namespace Analysis

variable {w : Actor} {s s' : Analysis} {γ γ' : List Duty}

/-! ## What a run leaves alone -/

theorem Step.entries_eq (h : Step w s γ s' γ') (hw : w ≠ .driver) : s'.entries = s.entries := by
  cases h with
  | linkClass name =>
    obtain ⟨h, c, p, heq, _⟩ := s.linkClass_frame name
    rw [heq]
  | aggregate ht => rw [aggregate_of_none ht]
  | pool hk => rw [poolNode_of_none hk]
  | entries e hdriver => exact absurd hdriver hw
  | _ => rfl

theorem Moves.entries_eq (h : Moves w s γ s' γ') (hw : w ≠ .driver) : s'.entries = s.entries :=
  h.invariant (P := fun t _ => t.entries = s.entries) (fun hstep ht => (hstep.entries_eq hw).trans ht) rfl

theorem Step.generation_eq (h : Step w s γ s' γ') : s'.generation = s.generation := by
  cases h with
  | linkClass name =>
    obtain ⟨h, c, p, heq, _⟩ := s.linkClass_frame name
    rw [heq]
  | aggregate ht => rw [aggregate_of_none ht]
  | pool hk => rw [poolNode_of_none hk]
  | _ => rfl

theorem Moves.generation_eq (h : Moves w s γ s' γ') : s'.generation = s.generation :=
  h.invariant (P := fun t _ => t.generation = s.generation) (fun hstep ht => hstep.generation_eq.trans ht) rfl

/-! ## The table of entry points -/

theorem Grows.isSome_methodId? (h : s.Grows s') {m : QualifiedMethod} (hm : (s.methodId? m).isSome) :
    (s'.methodId? m).isSome := by
  rw [isSome_methodId?_iff] at hm ⊢
  refine hm.imp (fun ⟨r, hr⟩ => ?_) h.aliases.mem_keys
  obtain ⟨r', hr', -⟩ := h.linked hr
  exact ⟨r', hr'⟩

/-- An entry point is linked and gets its place in the table, or it cannot be resolved and the table stays. -/
theorem addEntry_cases (hv : s.Valid) (m : QualifiedMethod) :
    (∃ id t, s.addEntry m = (.ok id, t) ∧ (s.linkMethod m).1 = some id ∧ t.Valid ∧
      t.entries = s.entries.insertNew m [] ∧ (t.methodId? m).isSome) ∨
    ∃ t, s.addEntry m = (.error (.unresolved m), t) ∧ (s.linkMethod m).1 = none ∧ t.entries = s.entries := by
  have hlink := (moves_linkMethod (w := .client) hv [] m).1
  have hsame := hlink.entries_eq nofun
  cases hid : (s.linkMethod m).1 with
  | none => exact Or.inr ⟨_, addEntry_of_unresolved hid, rfl, hsame⟩
  | some id =>
    have hinit := moves_initializeOwner (w := .client) (hlink.valid hv) id []
    have hadd := addEntry_of_linked hid
    have hvalid := (moves_addEntry hv m []).valid hv
    rw [hadd] at hvalid
    refine Or.inl ⟨id, _, hadd, rfl, hvalid, ?_, ?_⟩
    · exact congrArg (Table.insertNew · m []) ((hinit.entries_eq nofun).trans hsame)
    · exact hinit.grows.isSome_methodId? (isSome_methodId?_linkMethod hv hid)

theorem entries_noteSeed {m : QualifiedMethod} {noted : List (Nat × ExactType)} (h : s.entries.find? m = some noted)
    {seed : Nat × ExactType} (hseed : seed ∉ noted) :
    (s.noteSeed m seed).entries = s.entries.insert m (noted ++ [seed]) := by
  unfold noteSeed
  simp only [h, Option.getD_some, if_neg hseed]

theorem entries_instantiate (hv : s.Valid) {n : NodeId} (hn : s.Plain n) (t : ExactType) :
    (s.instantiate n t).entries = s.entries :=
  (moves_instantiate (w := .client) hv hn nofun []).1.entries_eq nofun

theorem seedParam_ok (hv : s.Valid) {m : QualifiedMethod} {index : Nat} {t : ExactType}
    (h : s.seedParam m index t = .ok s') :
    ∃ u : Analysis, u.entries = s.entries ∧ s' = u.noteSeed m (index, t) := by
  obtain ⟨r, n, hr, hn, rfl⟩ := seedParam_eq_ok_iff.1 h
  exact ⟨_, entries_instantiate hv (hv.methods.param_plain hr hn) t, rfl⟩

/-- The parameters of a linked method are those of the reference that it is linked for. -/
theorem MethodsValid.length_params (hv : s.MethodsValid) {m : QualifiedMethod} {r : MethodRecord}
    (hr : s.method? m = some r) : r.params.length = m.signature.params.length + 1 := by
  obtain ⟨id, hid, hget⟩ := Option.bind_eq_some_iff.1 hr
  obtain ⟨r', hget', hdecides⟩ := hv.names_of_methodId? hid
  obtain rfl : r = r' := Option.some.inj (hget.symm.trans hget')
  obtain ⟨hsig, -⟩ := Catalog.resolveMethod_some hdecides.view
  rw [(hv.record hget).arity, hsig]

theorem seedParam_of_linked (hv : s.Valid) {m : QualifiedMethod} (hm : (s.methodId? m).isSome) {index : Nat}
    (hi : index ≤ m.signature.params.length) (t : ExactType) : ∃ s', s.seedParam m index t = .ok s' := by
  obtain ⟨id, hid⟩ := Option.isSome_iff_exists.1 hm
  obtain ⟨r, hr, -⟩ := hv.methods.names_of_methodId? hid
  have hrecord : s.method? m = some r := Option.bind_eq_some_iff.2 ⟨id, hid, hr⟩
  have hlt : index < r.params.length := by
    rw [hv.methods.length_params hrecord]
    omega
  exact ⟨_, seedParam_eq_ok_iff.2 ⟨r, _, hrecord, List.getElem?_eq_getElem hlt, rfl⟩⟩

theorem entries_seedParam (hv : s.Valid) {m : QualifiedMethod} {noted : List (Nat × ExactType)}
    (h : s.entries.find? m = some noted) {seed : Nat × ExactType} (hseed : seed ∉ noted)
    (hok : s.seedParam m seed.1 seed.2 = .ok s') : s'.entries = s.entries.insert m (noted ++ [seed]) := by
  obtain ⟨u, hsame, rfl⟩ := seedParam_ok hv hok
  rw [entries_noteSeed (hsame ▸ h) hseed, hsame]

theorem entries_reseedParam (hv : s.Valid) {m : QualifiedMethod} {noted : List (Nat × ExactType)}
    (h : s.entries.find? m = some noted) {seed : Nat × ExactType} (hseed : seed ∉ noted) :
    (s.reseedParam m seed).entries = s.entries.insert m (noted ++ [seed]) := by
  unfold reseedParam
  split
  · next hok => exact entries_seedParam hv h hseed hok
  · exact entries_noteSeed h hseed

theorem entries_reseedParams (hv : s.Valid) {m : QualifiedMethod} {noted seeds : List (Nat × ExactType)}
    (h : s.entries.find? m = some noted) (hnd : (noted ++ seeds).Nodup) :
    (seeds.foldl (reseedParam m) s).entries = s.entries.insert m (noted ++ seeds) := by
  induction seeds generalizing s noted with
  | nil => rw [List.append_nil, List.foldl_nil, Table.insert_of_find? h]
  | cons seed seeds ih =>
    have hseed : seed ∉ noted := fun hmem => (List.nodup_append.1 hnd).2.2 seed hmem seed List.mem_cons_self rfl
    have hfirst := entries_reseedParam hv h hseed
    have hfind : (s.reseedParam m seed).entries.find? m = some (noted ++ [seed]) := by
      rw [hfirst]
      exact Table.find?_insert_self _ _ _
    have hrest := ih ((moves_reseedParam hv m seed []).valid hv) hfind (by rwa [List.append_assoc])
    rw [List.foldl_cons, hrest, hfirst, Table.insert_insert, List.append_assoc]
    rfl

/-- An entry point that is linked again has the parameter types that it had, also if it cannot be resolved. -/
theorem entries_reseedEntry (hv : s.Valid) {m : QualifiedMethod} (hm : m ∉ s.entries.keys)
    {seeds : List (Nat × ExactType)} (hnd : seeds.Nodup) :
    (s.reseedEntry m seeds).entries = s.entries.insert m seeds := by
  rcases addEntry_cases hv m with ⟨id, t, hadd, -, ht, hentries, -⟩ | ⟨t, hadd, -, hentries⟩
  · rw [Table.insertNew_of_not_mem hm] at hentries
    have hfind : t.entries.find? m = some [] := by
      rw [hentries]
      exact Table.find?_insert_self _ _ _
    rw [reseedEntry_of_ok hadd, entries_reseedParams ht hfind hnd, hentries, Table.insert_insert]
    rfl
  · rw [reseedEntry_of_error hadd, ← hentries]

theorem entries_foldl_reseedEntry (hv : s.Valid) {l : List (QualifiedMethod × List (Nat × ExactType))}
    (h : (s.entries.keys ++ l.map Prod.fst).Nodup) (hnd : ∀ e ∈ l, e.2.Nodup) :
    (l.foldl (fun s e => s.reseedEntry e.1 e.2) s).entries = l.foldl (fun t e => t.insert e.1 e.2) s.entries := by
  induction l generalizing s with
  | nil => rfl
  | cons e l ih =>
    have hnew : e.1 ∉ s.entries.keys := fun hmem => (List.nodup_append.1 h).2.2 e.1 hmem e.1 List.mem_cons_self rfl
    have hfirst := entries_reseedEntry hv hnew (hnd e List.mem_cons_self)
    rw [List.foldl_cons, List.foldl_cons, ih ((moves_reseedEntry hv e.1 e.2 []).valid hv) ?_
      fun f hf => hnd f (List.mem_cons_of_mem _ hf), hfirst]
    rw [hfirst, Table.keys_insert, if_neg hnew, List.append_assoc]
    exact h

theorem entries_reseedEntries (hv : s.Valid) (hnd : ∀ e ∈ s.entries.entries, e.2.Nodup) :
    s.reseedEntries.entries = s.entries := by
  unfold reseedEntries
  split
  · rw [entries_foldl_reseedEntry ((moves_takeEntries s []).valid hv) s.entries.nodup hnd]
    exact Table.foldl_insert_entries s.entries
  · rfl

theorem Sound.entries_settle (h : s.Sound) (hnd : ∀ e ∈ s.entries.entries, e.2.Nodup) :
    s.settle.entries = s.entries := by
  -- Only the driver writes to the table, and the waves need no driver.
  have hreseed := moves_reseedEntries h.valid []
  have hwaves := moves_runWaves (w := .analysis) nofun (hreseed.valid h.valid) (hreseed.covered h.covered)
    s.reseedEntries.methodBound (s.reseedEntries.taskBound + 1)
  exact (hwaves.entries_eq nofun).trans (entries_reseedEntries h.valid hnd)

theorem Sound.generation_settle (h : s.Sound) : s.settle.generation = s.generation :=
  (moves_settle h.valid h.covered).generation_eq

/-! ## Entry points that are linked -/

variable {v : World}

/-- An entry point that the world resolves is linked, with an empty place in the table. -/
theorem addEntry_of_resolves (hv : s.Valid) (hs : s.hierarchy.Shows v) {m : QualifiedMethod}
    (hres : (v.catalog.resolveMethod m).isSome) :
    ∃ id t, s.addEntry m = (.ok id, t) ∧ t.Valid ∧ t.entries = s.entries.insertNew m [] ∧
      (t.methodId? m).isSome := by
  rcases addEntry_cases hv m with ⟨id, t, hadd, -, h⟩ | ⟨t, -, hnone, -⟩
  · exact ⟨id, t, hadd, h⟩
  · have hsame := isNone_linkMethod hv hs m
    obtain ⟨target, htarget⟩ := Option.isSome_iff_exists.1 hres
    rw [hnone, htarget] at hsame
    cases hsame

theorem isSome_methodId?_reseedEntry (hv : s.Valid) (hs : s.hierarchy.Shows v) {m : QualifiedMethod}
    (hres : (v.catalog.resolveMethod m).isSome) (seeds : List (Nat × ExactType)) :
    ((s.reseedEntry m seeds).methodId? m).isSome := by
  obtain ⟨id, t, hadd, ht, -, hlinked⟩ := addEntry_of_resolves hv hs hres
  rw [reseedEntry_of_ok hadd]
  exact (moves_reseedParams ht m seeds []).grows.isSome_methodId? hlinked

theorem isSome_methodId?_foldl_reseedEntry (hv : s.Valid) (hs : s.hierarchy.Shows v)
    (l : List (QualifiedMethod × List (Nat × ExactType))) : ∀ e ∈ l, (v.catalog.resolveMethod e.1).isSome →
      ((l.foldl (fun s e => s.reseedEntry e.1 e.2) s).methodId? e.1).isSome := by
  refine (moves_foldl (w := .driver) (γ := []) (fun s e => s.reseedEntry e.1 e.2) l
    (I := fun s => s.Valid ∧ s.hierarchy.Shows v)
    (G := fun s e => (v.catalog.resolveMethod e.1).isSome = true → (s.methodId? e.1).isSome = true)
    (fun h hi => ?_) (fun {s s' e} h hg => ?_) (fun {s e} _ hi => ?_) ⟨hv, hs⟩).2
  · exact ⟨h.valid hi.1, hi.2.learns h.learns⟩
  · exact fun hres => h.grows.isSome_methodId? (hg hres)
  · exact ⟨moves_reseedEntry hi.1 e.1 e.2 [], fun hres => isSome_methodId?_reseedEntry hi.1 hi.2 hres e.2⟩

theorem isSome_methodId?_reseedEntries (hv : s.Valid) (hs : s.hierarchy.Shows v) (hr : s.reseed = true)
    {m : QualifiedMethod} (hm : m ∈ s.entries.keys) (hres : (v.catalog.resolveMethod m).isSome) :
    (s.reseedEntries.methodId? m).isSome := by
  obtain ⟨e, he, rfl⟩ := List.mem_map.1 hm
  unfold reseedEntries
  rw [if_pos hr]
  exact isSome_methodId?_foldl_reseedEntry ((moves_takeEntries s []).valid hv) hs s.entries.entries e he hres

/-- After a run that links the entry points again those are linked that the world resolves. -/
theorem Sound.isSome_methodId?_settle (h : s.Sound) (hs : s.hierarchy.Shows v) (hr : s.reseed = true)
    {m : QualifiedMethod} (hm : m ∈ s.entries.keys) :
    (s.settle.methodId? m).isSome ↔ (v.catalog.resolveMethod m).isSome := by
  have hreseed := moves_reseedEntries h.valid []
  have hsettle := moves_settle h.valid h.covered
  constructor
  · intro hlinked
    obtain ⟨id, hid⟩ := Option.isSome_iff_exists.1 hlinked
    obtain ⟨r, -, hdecides⟩ := (hsettle.valid h.valid).methods.names_of_methodId? hid
    rw [← Catalog.resolveMethod_congr (hs.learns hsettle.learns).answer m]
    exact Option.isSome_of_eq_some hdecides.view
  · intro hres
    have hwaves := moves_runWaves (w := .driver) nofun (hreseed.valid h.valid) (hreseed.covered h.covered)
      s.reseedEntries.methodBound (s.reseedEntries.taskBound + 1)
    exact hwaves.grows.isSome_methodId? (isSome_methodId?_reseedEntries h.valid hs hr hm hres)

theorem Sound.unresolvedEntries_settle (h : s.Sound) (hs : s.hierarchy.Shows v) (hr : s.reseed = true)
    (hnd : ∀ e ∈ s.entries.entries, e.2.Nodup) : s.settle.unresolvedEntries = unresolvedIn v s.entries.keys := by
  unfold unresolvedEntries unresolvedIn
  rw [h.entries_settle hnd]
  refine List.filter_congr fun m hm => ?_
  have hlinked := h.isSome_methodId?_settle hs hr hm
  rw [← Option.not_isSome, ← Option.not_isSome, Bool.eq_iff_iff.2 hlinked]

end Analysis

end TypeFlow
