import TypeFlow.Proofs.Analysis.Session

/-!
# Every handle leads somewhere

Nodes, types, listeners, selectors and methods are numbered, and their numbers
are kept in a dozen places: in records and tables, on the nodes of the graph,
in the queues. An analysis is in bounds when each of them is the number of
something. Most of this is part of being valid; what a valid analysis leaves
open are the numbers that calls keep of their callers and selectors.
-/

namespace TypeFlow

theorem Pointwise.size_le {α : Type} {R : α → α → Prop} {a a' : Array α} (h : Pointwise R a a') :
    a.size ≤ a'.size := by
  by_cases hsize : a.size = 0
  · omega
  · have hlast : a.size - 1 < a.size := by omega
    obtain ⟨x', hx', -⟩ := h _ _ (Array.getElem?_eq_getElem hlast)
    have := (Array.getElem?_eq_some_iff.1 hx').1
    omega

namespace MethodRecord

def nodes (r : MethodRecord) : List NodeId := r.params ++ [r.result, r.thrown] ++ r.locals.toList

def place? (r : MethodRecord) : Option Nat :=
  r.declaring.methods.findIdx? fun f => f.signature = r.reference.signature

end MethodRecord

namespace Analysis

structure InBounds (s : Analysis) : Prop where
  -- nodes
  records : ∀ {id : Nat} {r}, s.methods[id]? = some r → ∀ n ∈ r.nodes, n < s.graph.nodes.size
  fields : ∀ {f record}, s.fields.find? f = some record → record.node < s.graph.nodes.size
  aggregates : ∀ {t n}, s.aggregates.find? t = some n → n < s.graph.nodes.size
  itemPools : ∀ {key n}, s.itemPools.find? key = some n → n < s.graph.nodes.size
  sites : ∀ {id : Nat} {sel}, s.selectors[id]? = some sel →
    ∀ site ∈ sel.sites, ∀ n ∈ site.nodes, n < s.graph.nodes.size
  edges : ∀ {n m : Nat}, m ∈ s.graph.out n → m < s.graph.nodes.size
  wires : ∀ {t n}, .wire t n ∈ s.deferred → n < s.graph.nodes.size
  root : root < s.graph.nodes.size
  -- types
  held : ∀ {n i : Nat}, i ∈ s.graph.held n → i < s.graph.types.size
  pendingTypes : ∀ d ∈ s.graph.pending, d.type < s.graph.types.size
  -- listeners
  listening : ∀ {n l : Nat}, l ∈ s.graph.listeners n → l < s.listeners.size
  pendingListeners : ∀ d ∈ s.graph.pending, d.listener < s.listeners.size
  selectorListeners : ∀ {id : Nat} {sel}, s.selectors[id]? = some sel → sel.listener < s.listeners.size
  -- selectors
  calls : ∀ {id : Nat} {r key k}, s.methods[id]? = some r → k ∈ r.selectorsAt key → k < s.selectors.size
  selectors : ∀ {l : Nat} {id}, s.listeners[l]? = some (.selector id) → id < s.selectors.size
  keys : ∀ {key id}, s.selectorKeys.find? key = some id → id < s.selectors.size
  attaches : ∀ {id owner}, .attach id owner ∈ s.deferred → id < s.selectors.size
  -- methods
  worklist : ∀ id ∈ s.worklist, id < s.methods.size
  aliases : ∀ {m id}, s.aliases.find? m = some id → id < s.methods.size
  callers : ∀ {id : Nat} {sel}, s.selectors[id]? = some sel → ∀ site ∈ sel.sites, site.caller < s.methods.size
  keyCallers : ∀ {caller receiver declared id}, s.selectorKeys.find? (.perSite caller receiver declared) = some id →
    caller < s.methods.size
  -- what a record says of its own method
  arity : ∀ {id : Nat} {r}, s.methods[id]? = some r → r.params.length = r.reference.signature.params.length + 1
  places : ∀ {id : Nat} {r}, s.methods[id]? = some r →
    ∃ i, r.place? = some i ∧ r.declaring.methods[i]? = some r.definition

structure CallsInBounds (s : Analysis) : Prop where
  callers : ∀ {id : Nat} {sel}, s.selectors[id]? = some sel → ∀ site ∈ sel.sites, site.caller < s.methods.size
  calls : ∀ {id : Nat} {r key k}, s.methods[id]? = some r → k ∈ r.selectorsAt key → k < s.selectors.size
  selectors : ∀ {l : Nat} {id}, s.listeners[l]? = some (.selector id) → id < s.selectors.size

variable {w : Actor} {s s' : Analysis} {γ γ' : List Duty}

/-! ## Steps -/

/-- What is new about calls has to be in bounds. -/
theorem CallsInBounds.extend (h : s.CallsInBounds) (hg : s.Grows s')
    (hsites : ∀ {id : Nat} {sel site}, s'.selectors[id]? = some sel → site ∈ sel.sites →
      (∃ (id : Nat) (sel : Selector), s.selectors[id]? = some sel ∧ site ∈ sel.sites) ∨
        site.caller < s'.methods.size)
    (hcalls : ∀ {id : Nat} {r key k}, s'.methods[id]? = some r → k ∈ r.selectorsAt key →
      (∃ (id : Nat) (r : MethodRecord), s.methods[id]? = some r ∧ k ∈ r.selectorsAt key) ∨ k < s'.selectors.size)
    (hselectors : ∀ {l : Nat} {id}, s'.listeners[l]? = some (.selector id) →
      s.listeners[l]? = some (.selector id) ∨ id < s'.selectors.size) : s'.CallsInBounds where
  callers hsel site hsite := by
    rcases hsites hsel hsite with ⟨id, sel, hold, hmem⟩ | hnew
    · exact Nat.lt_of_lt_of_le (h.callers hold site hmem) hg.methods.size_le
    · exact hnew
  calls hr hk := by
    rcases hcalls hr hk with ⟨id, r, hold, hmem⟩ | hnew
    · exact Nat.lt_of_lt_of_le (h.calls hold hmem) hg.selectors.size_le
    · exact hnew
  selectors hl := by
    rcases hselectors hl with hold | hnew
    · exact Nat.lt_of_lt_of_le (h.selectors hold) hg.selectors.size_le
    · exact hnew

theorem CallsInBounds.keep (h : s.CallsInBounds) (hg : s.Grows s') (hs : s'.selectors = s.selectors)
    (hm : s'.methods = s.methods) (hl : s'.listeners = s.listeners) : s'.CallsInBounds :=
  h.extend hg (fun hsel hsite => Or.inl ⟨_, _, hs ▸ hsel, hsite⟩) (fun hr hk => Or.inl ⟨_, _, hm ▸ hr, hk⟩)
    fun hlis => Or.inl (hl ▸ hlis)

theorem CallsInBounds.newSelector (h : s.CallsInBounds) (hg : s.Grows s') {key : SelectorKey}
    (hs : s'.selectors = (s.withSelector key).selectors) (hm : s'.methods = s.methods)
    (hl : s'.listeners = (s.withSelector key).listeners) : s'.CallsInBounds := by
  refine h.extend hg (fun {id sel site} hsel hsite => ?_) (fun hr hk => Or.inl ⟨_, _, hm ▸ hr, hk⟩)
    fun {l id} hlis => ?_
  · rw [hs] at hsel
    rcases getElem?_push_cases hsel with hold | ⟨_, rfl⟩
    · exact Or.inl ⟨id, sel, hold, hsite⟩
    · cases hsite
  · rw [hl] at hlis
    rcases getElem?_push_cases hlis with hold | ⟨_, hnew⟩
    · exact Or.inl hold
    · cases hnew
      rw [hs]
      exact Or.inr (by simp [withSelector])

theorem Step.callsInBounds (h : Step w s γ s' γ') (hc : s.CallsInBounds) : s'.CallsInBounds := by
  have hg := h.grows
  cases h with
  | linkClass name =>
    obtain ⟨h, c, p, heq, -⟩ := s.linkClass_frame name
    rw [heq] at hg ⊢
    exact hc.keep hg rfl rfl rfl
  | recordMethod hm hd hf hclass =>
    refine hc.extend hg (fun hsel hsite => Or.inl ⟨_, _, hsel, hsite⟩) (fun {id r key k} hr hk => ?_) Or.inl
    rcases getElem?_push_cases hr with hold | ⟨_, rfl⟩
    · exact Or.inl ⟨id, r, hold, hk⟩
    · cases hk
  | aggregate ht =>
    rw [aggregate_of_none ht] at hg ⊢
    exact hc.keep hg rfl rfl rfl
  | pool hk =>
    rw [poolNode_of_none hk] at hg ⊢
    exact hc.keep hg rfl rfl rfl
  | newShared hk hp hb => exact hc.newSelector hg rfl rfl rfl
  | newPerSite hk hp hb hr hpr => exact hc.newSelector hg rfl rfl rfl
  | target hs hm hp =>
    refine hc.extend hg (fun {id sel site} hsel hsite => ?_) (fun hr hk => Or.inl ⟨_, _, hr, hk⟩) Or.inl
    rcases getElem?_modify_cases hsel with ⟨_, hold⟩ | ⟨_, old, hold, rfl⟩
    · exact Or.inl ⟨id, sel, hold, hsite⟩
    · exact Or.inl ⟨_, old, hold, hsite⟩
  | @site k sel receiver declared site caller hs hk hr hpr hn =>
    have hcaller : site.caller < s.methods.size := (Array.getElem?_eq_some_iff.1 hr).1
    have hselector : k < s.selectors.size := (Array.getElem?_eq_some_iff.1 hs).1
    refine hc.extend hg (fun {id sel' site'} hsel hsite => ?_) (fun {id r' key k'} hr' hk' => ?_) Or.inl
    · rcases getElem?_modify_cases hsel with ⟨_, hold⟩ | ⟨_, old, hold, rfl⟩
      · exact Or.inl ⟨id, sel', hold, hsite⟩
      · rcases List.mem_append.1 hsite with hsite | hsite
        · exact Or.inl ⟨_, old, hold, hsite⟩
        · rw [List.mem_singleton] at hsite
          subst hsite
          exact Or.inr (by simpa using hcaller)
    · rcases getElem?_modify_cases hr' with ⟨_, hold⟩ | ⟨_, old, hold, rfl⟩
      · exact Or.inl ⟨id, r', hold, hk'⟩
      · rcases MethodRecord.selectorsAt_noteCall_cases hk' with hk' | ⟨-, rfl⟩
        · exact Or.inl ⟨_, old, hold, hk'⟩
        · exact Or.inr (by simpa using hselector)
  | openBody hr hp hl hw =>
    refine hc.extend hg (fun hsel hsite => Or.inl ⟨_, _, hsel, hsite⟩) (fun {id r' key k} hr' hk => ?_) Or.inl
    rcases getElem?_modify_cases hr' with ⟨_, hold⟩ | ⟨_, old, hold, rfl⟩
    · exact Or.inl ⟨id, r', hold, hk⟩
    · exact Or.inl ⟨_, old, hold, hk⟩
  | observe hw hn =>
    refine hc.extend hg (fun hsel hsite => Or.inl ⟨_, _, hsel, hsite⟩) (fun hr hk => Or.inl ⟨_, _, hr, hk⟩)
      fun {l id} hlis => ?_
    rcases getElem?_push_cases hlis with hold | ⟨_, hnew⟩
    · exact Or.inl hold
    · cases hnew
  | _ => exact hc.keep hg rfl rfl rfl

theorem Moves.callsInBounds (h : Moves w s γ s' γ') (hc : s.CallsInBounds) : s'.CallsInBounds :=
  h.invariant (P := fun s _ => s.CallsInBounds) Step.callsInBounds hc

/-! ## Sessions -/

theorem callsInBounds_blank (settings : Settings) (h : Hierarchy)
    (entries : Table QualifiedMethod (List (Nat × ExactType)))
    (reseed : Bool) (generation : Nat) (observations : List (String × ExactType)) :
    (blank settings h entries reseed generation observations).CallsInBounds := by
  refine ⟨nofun, nofun, fun {l id} hl => ?_⟩
  have hl' : #[Listener.aggregation][l]? = some (.selector id) := hl
  obtain ⟨hlt, he⟩ := Array.getElem?_eq_some_iff.1 hl'
  have hzero : l = 0 := by simpa using hlt
  subst hzero
  cases he

theorem Sound.callsInBounds_history (h : s.Sound) (hc : s.CallsInBounds) (ops : List Op) :
    (s.history ops).CallsInBounds := by
  refine h.history_invariant (P := CallsInBounds) (fun _ hm hc => hm.callsInBounds hc)
    (fun _ hc => ⟨hc.callers, hc.calls, hc.selectors⟩) ?_ hc ops
  intro s names _
  exact callsInBounds_blank _ _ _ _ _ _

theorem RecordValid.place {r : MethodRecord} (h : s.RecordValid r) :
    ∃ i, r.place? = some i ∧ r.declaring.methods[i]? = some r.definition := by
  obtain ⟨hsig, i, hi, hdef, hbefore⟩ := List.find?_eq_some_iff_getElem.1 h.definition
  refine ⟨i, List.findIdx?_eq_some_iff_getElem.2 ⟨hi, ?_, ?_⟩, ?_⟩
  · rw [hdef]
    exact hsig
  · intro j hj
    simpa using hbefore j hj
  · rw [List.getElem?_eq_getElem hi, hdef]

theorem Valid.inBounds (hv : s.Valid) (hc : s.CallsInBounds) : s.InBounds where
  records hr n hn := by
    have hrecord := hv.methods.record hr
    simp only [MethodRecord.nodes, List.mem_append, List.mem_cons, List.not_mem_nil, or_false] at hn
    rcases hn with (hn | rfl | rfl) | hn
    · exact (hrecord.params n hn).1
    · exact hrecord.result.1
    · exact hrecord.thrown.1
    · obtain ⟨v, hv⟩ := Array.mem_iff_getElem?.1 (Array.mem_toList_iff.1 hn)
      exact (hrecord.locals hv).1
  fields hf := (hv.nodes.field hf).1.1
  aggregates ht := (hv.nodes.aggregate ht).1
  itemPools hk := (hv.nodes.itemPool hk).1
  sites hsel site hsite n hn := by
    obtain ⟨key, hk⟩ := hv.selectors.keyed hsel
    obtain ⟨sel, hsel', hvs⟩ := hv.selectors.selector hk
    cases hsel.symm.trans hsel'
    exact (hvs.sites site hsite n hn).1
  edges := hv.graph.out
  wires ht := (hv.nodes.aggregate (hv.queues.deferred _ ht)).1
  root := hv.root
  held := hv.graph.held
  pendingTypes d hd := by
    obtain ⟨n, -, ht⟩ := hv.graph.told d hd
    exact hv.graph.held ht
  listening hl := by
    obtain ⟨x, hx, -⟩ := hv.listeners.hears hl
    exact (Array.getElem?_eq_some_iff.1 hx).1
  pendingListeners d hd := by
    obtain ⟨n, hl, -⟩ := hv.graph.told d hd
    obtain ⟨x, hx, -⟩ := hv.listeners.hears hl
    exact (Array.getElem?_eq_some_iff.1 hx).1
  selectorListeners hsel := by
    obtain ⟨key, hk⟩ := hv.selectors.keyed hsel
    obtain ⟨sel, hsel', hvs⟩ := hv.selectors.selector hk
    cases hsel.symm.trans hsel'
    exact (Array.getElem?_eq_some_iff.1 hvs.listener).1
  calls := hc.calls
  selectors := hc.selectors
  keys hk := by
    obtain ⟨sel, hsel, -⟩ := hv.selectors.selector hk
    exact (Array.getElem?_eq_some_iff.1 hsel).1
  attaches ht := by
    obtain ⟨declared, hk, -⟩ := hv.queues.deferred _ ht
    obtain ⟨sel, hsel, -⟩ := hv.selectors.selector hk
    exact (Array.getElem?_eq_some_iff.1 hsel).1
  worklist id hid := by
    obtain ⟨r, hr, -⟩ := hv.queues.worklist id hid
    exact (Array.getElem?_eq_some_iff.1 hr).1
  aliases ha := by
    obtain ⟨r, hr, -⟩ := hv.methods.named ha
    exact (Array.getElem?_eq_some_iff.1 hr).1
  callers := hc.callers
  keyCallers hk := by
    obtain ⟨sel, -, hvs⟩ := hv.selectors.selector hk
    obtain ⟨-, r, hr, -⟩ := hvs.hearing
    exact (Array.getElem?_eq_some_iff.1 hr).1
  arity hr := (hv.methods.record hr).arity
  places hr := (hv.methods.record hr).place

end Analysis

end TypeFlow
