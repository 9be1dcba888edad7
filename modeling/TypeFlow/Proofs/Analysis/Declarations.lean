import Mathlib.Data.List.Nodup
import TypeFlow.Proofs.Analysis.Session

/-!
# One record for each declaration

References to a method through different classes lead to one record, that of
the class that declares it, and references to a field to one node. A number
that was handed out for a method stays that of the same record until the next
eviction. Each record waits once to be processed, and is processed once.
-/

namespace TypeFlow

theorem countP_modify {α : Type} {p : α → Bool} {a : Array α} {i : Nat} {x : α} (hx : a[i]? = some x) (f : α → α) :
    (a.modify i f).countP p + (if p x then 1 else 0) = a.countP p + if p (f x) then 1 else 0 := by
  obtain ⟨hi, rfl⟩ := Array.getElem?_eq_some_iff.1 hx
  have hset : a.modify i f = a.set i (f a[i]) hi := by
    refine Array.ext (by simp) fun j hj hj' => ?_
    rw [Array.getElem_modify, Array.getElem_set]
    split
    · next h =>
      subst h
      rfl
    · rfl
  have hle := a.boole_getElem_le_countP (p := p) hi
  rw [hset, Array.countP_set]
  omega

namespace Analysis

variable {w : Actor} {s s' : Analysis} {γ γ' : List Duty}

/-! ## Processed methods -/

def Tallied (s : Analysis) : Prop := s.tally.methodsProcessed = s.methods.countP MethodRecord.processed

theorem Step.tallied (h : Step w s γ s' γ') (ht : s.Tallied) : s'.Tallied := by
  cases h with
  | linkClass name =>
    obtain ⟨h, c, p, heq, -⟩ := s.linkClass_frame name
    rw [heq]
    exact ht
  | recordMethod hm hd hf hc => exact ht.trans (Array.countP_push_of_neg (by simp)).symm
  | aggregate hnone =>
    rw [aggregate_of_none hnone]
    exact ht
  | pool hnone =>
    rw [poolNode_of_none hnone]
    exact ht
  | @site k sel receiver declared site r hs hkey hr hpr hn hcalls =>
    have hcount := countP_modify (p := MethodRecord.processed) hr fun r =>
      r.noteCall ⟨receiver, declared.signature⟩ k
    have hsame : (r.noteCall ⟨receiver, declared.signature⟩ k).processed = r.processed := rfl
    rw [hsame] at hcount
    exact ht.trans (Nat.add_right_cancel hcount).symm
  | @openBody id r hr hp hl hw =>
    have hcount := countP_modify (p := MethodRecord.processed) hr fun r' =>
      { r' with processed := true, locals := (s.graph.newNodes r.localCount).1.toArray }
    simp only [hp, Bool.false_eq_true, if_false, if_true, Nat.add_zero] at hcount
    exact (congrArg (· + 1) ht).trans hcount.symm
  | note hsame o => exact hsame.trans ht
  | _ => exact ht

/-- The records that wait are those that are not processed. -/
theorem Sound.mem_worklist_iff (h : s.Sound) {id : MethodId} :
    id ∈ s.worklist ↔ ∃ r, s.methods[id]? = some r ∧ r.processed = false := by
  refine ⟨h.valid.queues.worklist id, ?_⟩
  rintro ⟨r, hr, hp⟩
  rcases h.covered (.body id) (Array.getElem?_eq_some_iff.1 hr).1 with hwaits | hhand | ⟨r', hr', hp', -⟩
  · exact hwaits
  · exact absurd hhand List.not_mem_nil
  · obtain rfl := Option.some.inj (hr.symm.trans hr')
    exact absurd (hp.symm.trans hp') nofun

theorem tallied_history (w : World) (settings : Settings) (ops : List Op) :
    ((new w settings).history ops).Tallied := by
  refine (sound_new w settings).history_invariant (P := Tallied) (fun _ hm ht => ?_) (fun _ ht => ht) ?_ rfl ops
  · exact hm.invariant (P := fun s _ => s.Tallied) Step.tallied ht
  · intro s names _
    rfl

/-! ## Nodes of fields -/

def FieldsDiffer (s : Analysis) : Prop :=
  ∀ ⦃f f' record record'⦄, s.fields.find? f = some record → s.fields.find? f' = some record' →
    record.node = record'.node → record.reference = record'.reference

theorem FieldsDiffer.keep (hd : s.FieldsDiffer)
    (h : ∀ {f record}, s'.fields.find? f = some record →
      ∃ f₀, s.fields.find? f₀ = some record) : s'.FieldsDiffer := by
  intro f f' record record' hf hf' hnode
  obtain ⟨f₀, hf₀⟩ := h hf
  obtain ⟨f₁, hf₁⟩ := h hf'
  exact hd hf₀ hf₁ hnode

theorem FieldsDiffer.aside (hd : s.FieldsDiffer) (h : s'.fields = s.fields) : s'.FieldsDiffer :=
  hd.keep fun hf => ⟨_, h ▸ hf⟩

theorem Step.fieldsDiffer (h : Step w s γ s' γ') (hv : s.Valid) (hd : s.FieldsDiffer) : s'.FieldsDiffer := by
  cases h with
  | linkClass name =>
    obtain ⟨h, c, p, heq, -⟩ := s.linkClass_frame name
    rw [heq]
    exact hd.aside rfl
  | aggregate hnone =>
    rw [aggregate_of_none hnone]
    exact hd.aside rfl
  | pool hnone =>
    rw [poolNode_of_none hnone]
    exact hd.aside rfl
  | fieldAlias hf hr hdec =>
    refine hd.keep fun {g record} hg => ?_
    rcases Table.find?_insert_cases hg with hg | ⟨-, rfl⟩
    · exact ⟨g, hg⟩
    · exact ⟨_, hr⟩
  | @newField f resolved hf hr hdec hself hc =>
    -- the new node is behind all nodes that are there
    have hcases : ∀ {g : QualifiedField} {record : FieldRecord},
        ((s.fields.insert resolved ⟨resolved, s.graph.newNode.1⟩).insert f ⟨resolved, s.graph.newNode.1⟩).find? g
          = some record →
        s.fields.find? g = some record ∧ record.node < s.graph.newNode.1 ∨
          record = ⟨resolved, s.graph.newNode.1⟩ := by
      intro g record hg
      rcases Table.find?_insert_cases hg with hg | ⟨-, rfl⟩
      · rcases Table.find?_insert_cases hg with hg | ⟨-, rfl⟩
        · exact Or.inl ⟨hg, (hv.nodes.field hg).1.1⟩
        · exact Or.inr rfl
      · exact Or.inr rfl
    intro g g' record record' hg hg' hnode
    rcases hcases hg with ⟨hg, hlt⟩ | rfl <;> rcases hcases hg' with ⟨hg', hlt'⟩ | rfl
    · exact hd hg hg' hnode
    · exact absurd hnode (Nat.ne_of_lt hlt)
    · exact absurd hnode.symm (Nat.ne_of_lt hlt')
    · rfl
  | _ => exact hd.aside rfl

theorem Moves.fieldsDiffer (h : Moves w s γ s' γ') (hv : s.Valid) (hd : s.FieldsDiffer) : s'.FieldsDiffer :=
  (h.invariant (P := fun s _ => s.Valid ∧ s.FieldsDiffer)
    (fun hstep hi => ⟨hstep.valid hi.1, hstep.fieldsDiffer hi.1 hi.2⟩) ⟨hv, hd⟩).2

theorem Sound.history_fieldsDiffer (h : s.Sound) (hd : s.FieldsDiffer) (ops : List Op) :
    (s.history ops).FieldsDiffer :=
  h.history_invariant (P := FieldsDiffer) (fun hsound hm hd => hm.fieldsDiffer hsound.valid hd)
    (fun _ hd => hd.aside rfl) (fun _ _ _ _ _ _ hf => nomatch hf) hd ops

theorem fieldsDiffer_history (w : World) (settings : Settings) (ops : List Op) :
    ((new w settings).history ops).FieldsDiffer :=
  (sound_new w settings).history_fieldsDiffer (fun _ _ _ _ hf => nomatch hf) ops

/-! ## Linked references -/

/-- Linking gives the record of the declaration that a reference resolves to, and
nothing if it resolves to nothing. -/
theorem linkMethod_spec (hv : s.Valid) (m : QualifiedMethod) :
    match (s.linkMethod m).1 with
    | some id => ∃ r, (s.linkMethod m).2.methods[id]? = some r ∧ (s.hierarchy.resolveMethod m).1 = some r.reference
    | none => (s.hierarchy.resolveMethod m).1 = none := by
  obtain ⟨hlink, hnames⟩ := moves_linkMethod (w := .client) hv [] m
  have hview : (s.hierarchy.resolveMethod m).1 = (s.linkMethod m).2.hierarchy.view.resolveMethod m :=
    (hv.hierarchy.resolveMethod m).1.trans (Catalog.resolveMethod_congr hlink.learns.answer m).symm
  cases hid : (s.linkMethod m).1 with
  | some id =>
    rw [hid] at hnames
    obtain ⟨r, hr, hd⟩ := hnames
    exact ⟨r, hr, hview.trans hd.view⟩
  | none =>
    rw [hid] at hnames
    exact hview.trans hnames.view

theorem isSome_linkMethod (hv : s.Valid) (m : QualifiedMethod) :
    (s.linkMethod m).1.isSome = (s.hierarchy.resolveMethod m).1.isSome := by
  have hspec := linkMethod_spec hv m
  cases hid : (s.linkMethod m).1 with
  | some id =>
    rw [hid] at hspec
    obtain ⟨r, -, hres⟩ := hspec
    rw [hres]
    rfl
  | none =>
    rw [show (s.hierarchy.resolveMethod m).1 = none by rwa [hid] at hspec]
    rfl

theorem linkMethod_of_unresolved (hv : s.Valid) {m : QualifiedMethod}
    (h : s.hierarchy.view.resolveMethod m = none) : (s.linkMethod m).1 = none := by
  have hnone := isSome_linkMethod hv m
  rw [(hv.hierarchy.resolveMethod m).1, h] at hnone
  exact Option.isNone_iff_eq_none.1 (by simpa using hnone)

/-- Linking a field that resolves gives the node of the record of what it resolves to, for as long as that lasts. -/
theorem find?_of_linkField (hv : s.Valid) {f target : QualifiedField} (hg : (s.linkField f).2.Grows s')
    (h : s'.hierarchy.view.resolveField f = some target) :
    s'.fields.find? target = some ⟨target, (s.linkField f).1⟩ := by
  obtain ⟨hlink, found?, hd, hnode⟩ := moves_linkField (w := .client) hv [] f
  obtain rfl : found? = some target := (hg.decides hd).view.symm.trans h
  obtain ⟨record, hrecord, hnode⟩ := hnode
  obtain ⟨-, -, hself⟩ := (hlink.valid hv).nodes.field hrecord
  have href : target = record.reference :=
    Option.some.inj ((Catalog.resolveField_idem h).symm.trans (hg.decides hself).view)
  rw [hg.fields _ _ hrecord, ← hnode, href]

/-! ## Listed fields -/

theorem mem_reachableFields_iff {f : QualifiedField} :
    f ∈ s.reachableFields ↔ ∃ record, s.fields.find? f = some record ∧ record.reference = f := by
  unfold reachableFields
  constructor
  · intro hf
    obtain ⟨⟨g, record⟩, he, hg⟩ := List.mem_filterMap.1 hf
    obtain ⟨heq, hgf⟩ := Option.ite_none_right_eq_some.1 hg
    cases hgf
    exact ⟨record, Table.find?_eq_some_iff.2 he, heq.symm⟩
  · rintro ⟨record, hrecord, href⟩
    exact List.mem_filterMap.2 ⟨_, Table.find?_eq_some_iff.1 hrecord, if_pos href.symm⟩

theorem nodup_reachableFields (s : Analysis) : s.reachableFields.Nodup := by
  have hsub : ∀ l : List (QualifiedField × FieldRecord),
      (l.filterMap fun e => if e.1 = e.2.reference then some e.1 else none).Sublist (l.map Prod.fst) := by
    intro l
    induction l with
    | nil => exact .refl _
    | cons e l ih =>
      rw [List.filterMap_cons]
      split
      · exact ih.cons _
      · next f hf =>
        obtain ⟨-, hf⟩ := Option.ite_none_right_eq_some.1 hf
        exact Option.some.inj hf ▸ ih.cons_cons _
  exact s.fields.nodup.sublist (hsub _)

/-! ## All references at once -/

def Lasting (ops : List Op) : Prop := ∀ names, .command (.evict names) ∉ ops

/-- Whether references to methods lead to the record of the declaration that they resolve to, which lasts and is
processed once. -/
structure LinksMethods (s : Analysis) : Prop where
  resolves : ∀ m, (s.linkMethod m).1.isSome = (s.hierarchy.resolveMethod m).1.isSome
  declares : ∀ m id, (s.linkMethod m).1 = some id →
    ∃ r, (s.linkMethod m).2.methods[id]? = some r ∧ (s.hierarchy.resolveMethod m).1 = some r.reference
  identifies : ∀ m m' id id' later, Lasting later → (s.linkMethod m).1 = some id →
    (((s.linkMethod m).2.history later).linkMethod m').1 = some id' →
    (id = id' ↔ (((s.linkMethod m).2.history later).hierarchy.resolveMethod m).1
      = (((s.linkMethod m).2.history later).hierarchy.resolveMethod m').1)
  -- until the next eviction a number is that of one record
  lasts : ∀ (id : Nat) r later, Lasting later → s.methods[id]? = some r →
    ∃ r', (s.history later).methods[id]? = some r' ∧ r.Grows r'
  -- a record waits once or is processed, and none was processed twice
  waits : ∀ (id : Nat) r, s.methods[id]? = some r → s.worklist.count id = if r.processed then 0 else 1
  waiting : ∀ id ∈ s.worklist, id < s.methods.size
  processed : s.tally.methodsProcessed = s.methods.countP MethodRecord.processed

/-- Whether references to fields lead to the node of the declaration that they resolve to, which is listed once. -/
structure LinksFields (s : Analysis) : Prop where
  identifies : ∀ f f' target target' later, Lasting later →
    (((s.linkField f).2.history later).hierarchy.resolveField f).1 = some target →
    (((s.linkField f).2.history later).hierarchy.resolveField f').1 = some target' →
    ((s.linkField f).1 = (((s.linkField f).2.history later).linkField f').1 ↔ target = target')
  lists : ∀ f target, (s.hierarchy.resolveField f).1 = some target →
    (s.linkField f).2.reachableFields.count target = 1
  records : ∀ f record, s.fields.find? f = some record → s.reachableFields.count record.reference = 1
  listed : ∀ f ∈ s.reachableFields, ∃ record, s.fields.find? f = some record ∧ record.reference = f

theorem Sound.identifies_method (h : s.Sound) {m m' : QualifiedMethod} {id id' : MethodId} {later : List Op}
    (hlater : Lasting later) (hid : (s.linkMethod m).1 = some id)
    (hid' : (((s.linkMethod m).2.history later).linkMethod m').1 = some id') :
    id = id' ↔ (((s.linkMethod m).2.history later).hierarchy.resolveMethod m).1
      = (((s.linkMethod m).2.history later).hierarchy.resolveMethod m').1 := by
  obtain ⟨hlink, hnames⟩ := moves_linkMethod (w := .client) h.valid [] m
  have hlinked : (s.linkMethod m).2.Sound := (h.apply (.linkMethod m)).1
  have hgrows := hlinked.history_grows hlater
  have hv := (hlinked.history later).1.valid
  rw [hid] at hnames
  obtain ⟨r, hr, hd⟩ := hnames
  generalize (s.linkMethod m).2.history later = t at *
  obtain ⟨r₁, hr₁, hg₁⟩ := hgrows.methods _ _ hr
  have hres : (t.hierarchy.resolveMethod m).1 = some r.reference :=
    (hv.hierarchy.resolveMethod m).1.trans (hgrows.decides hd).view
  -- both records are there after the second reference is linked
  have hlink' := (moves_linkMethod (w := .client) hv [] m').1
  obtain ⟨r₂, hr₂, hg₂⟩ := hlink'.grows.methods _ _ hr₁
  have hspec := linkMethod_spec hv m'
  rw [hid'] at hspec
  obtain ⟨r', hr', hres'⟩ := hspec
  have href : r₂.reference = r.reference := hg₂.reference.trans hg₁.reference
  rw [hres, hres', Option.some.injEq]
  constructor
  · rintro rfl
    obtain rfl := Option.some.inj (hr₂.symm.trans hr')
    exact href.symm
  · intro he
    exact (hlink'.valid hv).methods.unique hr₂ hr' (href.trans he)

theorem Sound.identifies_field (h : s.Sound) (hd : s.FieldsDiffer) {f f' target target' : QualifiedField}
    {later : List Op} (hlater : Lasting later)
    (hres : (((s.linkField f).2.history later).hierarchy.resolveField f).1 = some target)
    (hres' : (((s.linkField f).2.history later).hierarchy.resolveField f').1 = some target') :
    (s.linkField f).1 = (((s.linkField f).2.history later).linkField f').1 ↔ target = target' := by
  obtain ⟨hlink, -⟩ := moves_linkField (w := .client) h.valid [] f
  have hlinked : (s.linkField f).2.Sound := (h.apply (.linkField f)).1
  have hgrows := hlinked.history_grows hlater
  have hsound := (hlinked.history later).1
  have hdiffer : ((s.linkField f).2.history later).FieldsDiffer :=
    hlinked.history_fieldsDiffer (hlink.fieldsDiffer h.valid hd) later
  generalize (s.linkField f).2.history later = t at *
  -- both records are there after the second reference is linked
  have hlink' := (moves_linkField (w := .client) hsound.valid [] f').1
  have hview : ∀ g, (t.hierarchy.resolveField g).1 = (t.linkField f').2.hierarchy.view.resolveField g := fun g =>
    (hsound.valid.hierarchy.resolveField g).1.trans (Catalog.resolveField_congr hlink'.learns.answer g).symm
  have hfind := find?_of_linkField h.valid (hgrows.trans hlink'.grows) ((hview f).symm.trans hres)
  have hfind' := find?_of_linkField hsound.valid (.refl _) ((hview f').symm.trans hres')
  constructor
  · intro hnode
    exact (hlink'.fieldsDiffer hsound.valid hdiffer) hfind hfind' hnode
  · rintro rfl
    exact congrArg FieldRecord.node (Option.some.inj (hfind.symm.trans hfind'))

/-! ## Sessions -/

theorem Sound.linksMethods (h : s.Sound) (ht : s.Tallied) : s.LinksMethods where
  resolves := isSome_linkMethod h.valid
  declares m id hid := by
    have hspec := linkMethod_spec h.valid m
    rwa [hid] at hspec
  identifies m m' id id' later hlater hid hid' := h.identifies_method hlater hid hid'
  lasts id r later hlater hr := (h.history_grows hlater).methods id r hr
  waits id r hr := by
    cases hp : r.processed with
    | true =>
      refine List.count_eq_zero.2 fun hmem => ?_
      obtain ⟨r', hr', hp'⟩ := h.mem_worklist_iff.1 hmem
      obtain rfl := Option.some.inj (hr.symm.trans hr')
      exact absurd (hp.symm.trans hp') nofun
    | false => exact List.count_eq_one_of_mem h.valid.queues.nodup (h.mem_worklist_iff.2 ⟨r, hr, hp⟩)
  waiting id hid := by
    obtain ⟨r, hr, -⟩ := h.mem_worklist_iff.1 hid
    exact (Array.getElem?_eq_some_iff.1 hr).1
  processed := ht

theorem count_reachableFields {f : QualifiedField} {record : FieldRecord} (hf : s.fields.find? f = some record)
    (href : record.reference = f) : s.reachableFields.count f = 1 :=
  List.count_eq_one_of_mem s.nodup_reachableFields (mem_reachableFields_iff.2 ⟨record, hf, href⟩)

theorem Sound.linksFields (h : s.Sound) (hd : s.FieldsDiffer) : s.LinksFields where
  identifies f f' target target' later hlater hres hres' := h.identifies_field hd hlater hres hres'
  lists f target hres := by
    have hlink := (moves_linkField (w := .client) h.valid [] f).1
    have hview : (s.linkField f).2.hierarchy.view.resolveField f = some target :=
      (Catalog.resolveField_congr hlink.learns.answer f).trans
        ((h.valid.hierarchy.resolveField f).1.symm.trans hres)
    exact count_reachableFields (find?_of_linkField h.valid (.refl _) hview) rfl
  records f record hf := count_reachableFields (h.valid.nodes.field hf).2.1 rfl
  listed f hf := mem_reachableFields_iff.1 hf

/-- After whatever was asked, references lead to one record or node for each declaration. -/
theorem links_history (w : World) (settings : Settings) (ops : List Op) :
    ((new w settings).history ops).LinksMethods ∧ ((new w settings).history ops).LinksFields := by
  have hsound := ((sound_new w settings).history ops).1
  exact ⟨hsound.linksMethods (tallied_history w settings ops),
    hsound.linksFields (fieldsDiffer_history w settings ops)⟩

end Analysis

end TypeFlow
