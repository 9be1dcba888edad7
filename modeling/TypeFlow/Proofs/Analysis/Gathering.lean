import TypeFlow.Proofs.Analysis.Aggregation
import TypeFlow.Proofs.FlowGraph.Exact

/-!
# What an aggregate holds exactly

As long as nobody outside adds types or edges, edges lead to an aggregate only
from those of its direct subtypes, and every type gets in at the aggregate of
its own declared type. So an aggregate holds nothing but what lies below its
type; once the analysis has settled it holds all of that.
-/

namespace TypeFlow

/-! ## Types below a type -/

/-- Whether instances of `t` are instances of `top` by inheritance, with as many dimensions. -/
def Catalog.Below (c : Catalog) (t top : DeclType) : Prop :=
  t.dims = top.dims ∧
    (t.base = top.base ∨ ∃ a b, t.base = .object a ∧ top.base = .object b ∧ c.Inherits a b)

section
variable {c : Catalog} {t sub super : DeclType}

theorem Catalog.Below.refl (c : Catalog) (t : DeclType) : c.Below t t := ⟨rfl, Or.inl rfl⟩

theorem Catalog.Below.rise (h : c.Below t sub) (hs : super ∈ Analysis.directSupertypes c.find? sub) :
    c.Below t super := by
  obtain ⟨hdims, hbase⟩ := h
  unfold Analysis.directSupertypes at hs
  split at hs
  · next name hname =>
    split at hs
    · cases hs
    · next hne =>
      split at hs
      · next d hd =>
        obtain ⟨n, hn, rfl⟩ := List.mem_map.1 hs
        have hup : c.Inherits name n := .step hne hd hn (.self n)
        refine ⟨by rw [DeclType.dims_wrap, hdims]; exact (Nat.zero_add _).symm, Or.inr ?_⟩
        rw [DeclType.base_wrap]
        rcases hbase with hbase | ⟨a, b, ha, hb, hinh⟩
        · exact ⟨name, n, hbase.trans hname, rfl, hup⟩
        · obtain rfl : b = name := DeclType.object.inj (hb.symm.trans hname)
          exact ⟨a, n, ha, rfl, hinh.trans hup⟩
      · cases hs
  · cases hs

end

namespace Analysis

variable {w : Actor} {s s' : Analysis} {γ γ' : List Duty}

/-! ## Nothing gets in from aside -/

structure Sealed (s : Analysis) : Prop where
  single : ∀ {t u n}, s.aggregates.find? t = some n → s.aggregates.find? u = some n → t = u
  into : ∀ {a top n}, s.aggregates.find? top = some n → n ∈ s.graph.out a → s.Rises a n
  below : ∀ {top n t}, s.aggregates.find? top = some n → t ∈ s.graph.typesAt n →
    ∀ c, s.hierarchy.Fits c → c.Below t.toDecl top

theorem Grows.rises (h : s.Grows s') {a b : NodeId} (hr : s.Rises a b) : s'.Rises a b := by
  obtain ⟨sub, supers, super, hsub, hd, hmem, hsuper⟩ := hr
  exact ⟨sub, supers, super, h.aggregates _ _ hsub, h.decides hd, hmem, h.aggregate? hsuper⟩

theorem Grows.fits (h : s.Grows s') {c : Catalog} (hc : s'.hierarchy.Fits c) : s.hierarchy.Fits c :=
  fun n found hn => hc n found (h.hierarchy n found hn)

theorem Sealed.grow (h : s.Sealed) (hg : s.Grows s') (ha : s'.aggregates = s.aggregates)
    (hinto : ∀ {a top n}, s.aggregates.find? top = some n → n ∈ s'.graph.out a → s.Rises a n)
    (hbelow : ∀ {top n t}, s.aggregates.find? top = some n → t ∈ s'.graph.typesAt n →
      t ∈ s.graph.typesAt n ∨ ∀ c, s.hierarchy.Fits c → c.Below t.toDecl top) : s'.Sealed where
  single ht hu := h.single (ha ▸ ht) (ha ▸ hu)
  into ht hn := hg.rises (hinto (ha ▸ ht) hn)
  below ht htypes c hc := by
    rw [ha] at ht
    rcases hbelow ht htypes with hold | hnew
    · exact h.below ht hold c (hg.fits hc)
    · exact hnew c (hg.fits hc)

theorem Valid.typesAt_of_held (hv : s.Valid) (hg : s.Grows s') {n : NodeId} (hh : s'.graph.held n = s.graph.held n)
    {t : ExactType} (ht : t ∈ s'.graph.typesAt n) : t ∈ s.graph.typesAt n := by
  obtain ⟨i, hi, hit⟩ := FlowGraph.mem_typesAt.1 ht
  rw [hh] at hi
  obtain ⟨u, hu⟩ := FlowGraph.exists_type? (hv.graph.held hi)
  obtain rfl := Option.some.inj ((hg.graph.type? hu).symm.trans hit)
  exact FlowGraph.mem_typesAt.2 ⟨i, hi, hu⟩

theorem Sealed.same (h : s.Sealed) (hv : s.Valid) (hg : s.Grows s') (ha : s'.aggregates = s.aggregates)
    (hout : ∀ n, s'.graph.out n = s.graph.out n) (hheld : ∀ n, s'.graph.held n = s.graph.held n) : s'.Sealed :=
  h.grow hg ha (fun ht hn => h.into ht (hout _ ▸ hn)) fun _ ht => Or.inl (hv.typesAt_of_held hg (hheld _) ht)

theorem find?_of_aggregate? {t : DeclType} {n : NodeId} (ht : s.aggregate? t = some n)
    (hne : t.isRoot = true → n ≠ root) : s.aggregates.find? t = some n := by
  unfold aggregate? at ht
  split at ht
  · next hroot =>
    cases ht
    exact absurd rfl (hne hroot)
  · exact ht

theorem Valid.ne_root (hv : s.Valid) {t : DeclType} {n : NodeId} (hn : s.aggregates.find? t = some n) :
    n ≠ Analysis.root :=
  fun heq => hv.nodes.root.2 t (heq ▸ hn)

/-- A path that ends at an aggregate runs through aggregates of subtypes. -/
theorem Sealed.path (h : s.Sealed) (hv : s.Valid) {g : FlowGraph}
    (hinto : ∀ {a top n}, s.aggregates.find? top = some n → n ∈ g.out a → s.Rises a n)
    {a n : NodeId} {top : DeclType} (hreach : g.Reaches a n) (hn : s.aggregates.find? top = some n) :
    ∃ sub, s.aggregates.find? sub = some a ∧
      ∀ c, s.hierarchy.Fits c → ∀ t, c.Below t sub → c.Below t top := by
  induction hreach using Relation.ReflTransGen.head_induction_on with
  | refl => exact ⟨top, hn, fun _ _ _ ht => ht⟩
  | @head x y hedge _ ih =>
    obtain ⟨mid, hmid, hup⟩ := ih
    obtain ⟨sub, supers, super, hsub, hd, hmem, hsuper⟩ := hinto hmid hedge
    refine ⟨sub, hsub, fun c hc t ht => hup c hc t ?_⟩
    have hsupers : directSupertypes c.find? sub = supers := hd c hc
    obtain rfl := h.single (find?_of_aggregate? hsuper fun _ => hv.ne_root hmid) hmid
    exact ht.rise (hsupers ▸ hmem)

theorem sealed_connect (h : s.Sealed) (hv : s.Valid) {a b : Nat} (ha : a < s.graph.nodes.size)
    (hk : s.Plain b ∨ s.Rises a b) : Sealed { s with graph := s.graph.connect a b } := by
  have hinto : ∀ {x top n}, s.aggregates.find? top = some n → n ∈ (s.graph.connect a b).out x → s.Rises x n := by
    intro x top n hn hout
    rcases (FlowGraph.mem_out_connect ha).1 hout with hout | ⟨-, rfl, rfl⟩
    · exact h.into hn hout
    · exact hk.resolve_left fun hplain => hplain.2 top hn
  refine h.grow (.withGraph s (FlowGraph.grows_connect _ _ _)) rfl hinto fun {top n t} hn ht => ?_
  rcases FlowGraph.arrived_typesAt_connect ht with hold | ⟨ht, hreach⟩
  · exact Or.inl hold
  · obtain ⟨sub, hsub, hup⟩ := h.path hv hinto hreach hn
    exact Or.inr fun c hc => hup c hc _ (h.below hsub ht c hc)

theorem sealed_instantiate (h : s.Sealed) (hv : s.Valid) {n : Nat} (hn : s.Plain n) (t : ExactType) :
    (s.withType t [n, root]).Sealed := by
  have hout : ∀ m, (s.withType t [n, root]).graph.out m = s.graph.out m := fun m =>
    (FlowGraph.out_addAll _ _ _ m).trans (s.graph.out_intern t m)
  refine h.grow (s.grows_withType t _) rfl (fun hm hmem => h.into hm (hout _ ▸ hmem)) fun {top m u} hm hu => ?_
  rcases FlowGraph.arrived_typesAt_addType hv.graph hu with hold | ⟨-, k, hk, hreach⟩
  · exact Or.inl hold
  · obtain ⟨sub, hsub, -⟩ := h.path hv h.into hreach hm
    have hplain : s.Plain k := by
      rcases List.mem_cons.1 hk with rfl | hk
      · exact hn
      · exact List.mem_singleton.1 hk ▸ hv.nodes.root
    exact absurd hsub (hplain.2 sub)

theorem sealed_gather (h : s.Sealed) (hv : s.Valid) {n i : Nat} {t : ExactType} (ht : s.graph.type? i = some t)
    (hn : s.aggregate? t.toDecl = some n) : Sealed { s with graph := (s.graph.add n i).2 } := by
  refine h.grow (.withGraph s (FlowGraph.grows_add _ _ _)) rfl
    (fun hm hmem => h.into hm (s.graph.out_add n i _ ▸ hmem)) fun {top m u} hm hu => ?_
  rcases FlowGraph.arrived_typesAt_add ht hu with hold | ⟨rfl, hreach⟩
  · exact Or.inl hold
  · obtain ⟨sub, hsub, hup⟩ := h.path hv h.into hreach hm
    refine Or.inr fun c hc => hup c hc _ ?_
    obtain rfl := h.single (find?_of_aggregate? hn fun _ => hv.ne_root hsub) hsub
    exact .refl c _

theorem sealed_aggregate (h : s.Sealed) (hv : s.Valid) {t : DeclType} (ht : s.aggregate? t = none)
    (hg : s.Grows (s.aggregate t).2) : (s.aggregate t).2.Sealed := by
  have hnew : ∀ {u n}, (s.aggregate t).2.aggregates.find? u = some n →
      s.aggregates.find? u = some n ∨ u = t ∧ n = s.graph.nodes.size := by
    rw [aggregate_of_none ht]
    exact Table.find?_insert_cases
  have hout : ∀ n, (s.aggregate t).2.graph.out n = s.graph.out n := by
    rw [aggregate_of_none ht]
    exact FlowGraph.out_newNode s.graph
  have hheld : ∀ n, (s.aggregate t).2.graph.held n = s.graph.held n := by
    rw [aggregate_of_none ht]
    exact FlowGraph.held_newNode s.graph
  have hlt : ∀ {u n}, s.aggregates.find? u = some n → n ≠ s.graph.nodes.size :=
    fun hn => Nat.ne_of_lt (hv.nodes.aggregate hn).1
  -- the new node holds nothing yet, and no edge leads to it
  refine ⟨fun hu hu' => ?_, fun {a top n} hn hmem => ?_, fun {top n u} hn hu c hc => ?_⟩
  · rcases hnew hu with hold | ⟨rfl, rfl⟩ <;> rcases hnew hu' with hold' | ⟨rfl, hsize⟩
    · exact h.single hold hold'
    · exact absurd hsize (hlt hold)
    · exact absurd rfl (hlt hold')
    · rfl
  · rw [hout] at hmem
    rcases hnew hn with hn | ⟨-, rfl⟩
    · exact hg.rises (h.into hn hmem)
    · exact absurd (hv.graph.out hmem) (Nat.lt_irrefl _)
  · have hold := hv.typesAt_of_held hg (hheld n) hu
    rcases hnew hn with hn | ⟨-, rfl⟩
    · exact h.below hn hold c (hg.fits hc)
    · exact absurd (FlowGraph.lt_size_of_mem_typesAt hold) (Nat.lt_irrefl _)

theorem Step.sealed (hstep : Step w s γ s' γ') (hw : w ≠ .client) (hv : s.Valid) (h : s.Sealed) : s'.Sealed := by
  have hg := hstep.grows
  cases hstep with
  | connect ha hb hk => exact sealed_connect h hv ha (hk.resolve_left hw)
  | instantiate hn hk hb => exact sealed_instantiate h hv (hk.resolve_left hw) _
  | gather hi ht hn => exact sealed_gather h hv ht hn
  | aggregate ht ha => exact sealed_aggregate h hv ht hg
  | linkClass name =>
    obtain ⟨_, _, _, heq, -⟩ := s.linkClass_frame name
    rw [heq] at hg ⊢
    exact h.same hv hg rfl (fun _ => rfl) fun _ => rfl
  | recordMethod =>
    refine h.same hv hg (by rw [recordMethod_eq]) (fun n => ?_) fun n => ?_
    · rw [recordMethod_eq]
      simp only [FlowGraph.out_newNode, FlowGraph.out_newNodes]
    · rw [recordMethod_eq]
      simp only [FlowGraph.held_newNode, FlowGraph.held_newNodes]
  | newField => exact h.same hv hg rfl (FlowGraph.out_newNode _) (FlowGraph.held_newNode _)
  | pool hk =>
    rw [poolNode_of_none hk] at hg ⊢
    exact h.same hv hg rfl (FlowGraph.out_newNode _) (FlowGraph.held_newNode _)
  | newPerSite =>
    refine h.same hv hg rfl (fun n => ?_) fun n => ?_
    · dsimp only
      split
      · exact FlowGraph.out_listen n
      · rfl
    · dsimp only
      split
      · exact FlowGraph.held_listen n
      · rfl
  | attach => exact h.same hv hg rfl FlowGraph.out_listen FlowGraph.held_listen
  | takeNotice hd =>
    obtain ⟨rest, -, rfl⟩ := FlowGraph.takeNotice_some hd
    exact h.same hv hg rfl (fun _ => rfl) fun _ => rfl
  | openBody => exact h.same hv hg rfl (FlowGraph.out_newNodes _ _) (FlowGraph.held_newNodes _ _)
  | newNode hc => exact absurd hc hw
  | addType hc => exact absurd hc hw
  | observe hc => exact absurd hc hw
  | _ => exact h.same hv hg rfl (fun _ => rfl) fun _ => rfl

theorem Moves.sealed (h : Moves w s γ s' γ') (hw : w ≠ .client) (hv : s.Valid) (hs : s.Sealed) : s'.Sealed :=
  (h.invariant (P := fun s _ => s.Valid ∧ s.Sealed)
    (fun hstep hp => ⟨hstep.valid hp.1, hstep.sealed hw hp.1 hp.2⟩) ⟨hv, hs⟩).2

/-! ## Sessions without types and edges from outside -/

def Op.intrudes : Op → Bool
  | .addType _ _ => true
  | .connect _ _ => true
  | _ => false

structure Enclosed (s : Analysis) : Prop where
  rooted : s.Rooted
  closed : s.Sealed

theorem Enclosed.moves (h : s.Enclosed) (hv : s.Valid) (hm : Moves w s γ s' γ') (hw : w ≠ .client) : s'.Enclosed :=
  ⟨hm.rooted hw hv h.rooted, hm.sealed hw hv h.closed⟩

theorem Enclosed.same (h : s.Enclosed) (hv : s.Valid) (hg : s.Grows s') (ha : s'.aggregates = s.aggregates)
    (hout : ∀ n, s'.graph.out n = s.graph.out n) (hheld : ∀ n, s'.graph.held n = s.graph.held n) : s'.Enclosed :=
  ⟨h.rooted.of_same hheld, h.closed.same hv hg ha hout hheld⟩

theorem enclosed_blank (settings : Settings) (h : Hierarchy)
    (entries : Table QualifiedMethod (List (Nat × ExactType)))
    (reseed : Bool) (generation : Nat) (observations : List (String × ExactType)) :
    (blank settings h entries reseed generation observations).Enclosed :=
  ⟨rooted_blank _ _ _ _ _ _, nofun, nofun, nofun⟩

theorem Enclosed.command (he : s.Enclosed) (h : s.Sound) (c : Command) : (s.command c).Enclosed := by
  rcases h.command_cases c with hm | ⟨w, rfl⟩ | ⟨names, rfl⟩
  · exact he.moves h.valid hm nofun
  · exact he.same h.valid (.withHierarchy s (s.hierarchy.retains_setWorld w)) rfl (fun _ => rfl) fun _ => rfl
  · exact enclosed_blank _ _ _ _ _ _

theorem Enclosed.apply (he : s.Enclosed) (h : s.Sound) {op : Op} (hop : op.intrudes = false) :
    (s.apply op).Enclosed := by
  have hv := h.valid
  have hw : Actor.driver ≠ .client := nofun
  cases op with
  | command c => exact he.command h c
  | linkClass name => exact he.moves hv (moves_linkClass (w := .driver) s [] name) hw
  | linkMethod m => exact he.moves hv (moves_linkMethod (w := .driver) hv [] m).1 hw
  | linkField f => exact he.moves hv (moves_linkField (w := .driver) hv [] f).1 hw
  | newNode =>
    exact he.same hv (.withGraph s (FlowGraph.grows_newNode _)) rfl (FlowGraph.out_newNode _)
      (FlowGraph.held_newNode _)
  | aggregate t =>
    have hmoves := (moves_aggregate (w := .client) (t := t) (s := s) (Or.inl rfl) []).1
    refine ⟨?_, ?_⟩
    · cases ht : s.aggregate? t with
      | some n =>
        simp only [Analysis.apply, aggregate_of_some ht]
        exact he.rooted
      | none =>
        refine he.rooted.of_same fun n => ?_
        simp only [Analysis.apply, aggregate_of_none ht]
        exact FlowGraph.held_newNode _ n
    · cases ht : s.aggregate? t with
      | some n =>
        simp only [Analysis.apply, aggregate_of_some ht]
        exact he.closed
      | none => exact sealed_aggregate he.closed hv ht hmoves.grows
  | addType => cases hop
  | connect => cases hop
  | observe n label =>
    simp only [Analysis.apply]
    split
    · next hn =>
      have hstep : Step .client s [] { s with
          graph := s.graph.listen n s.listeners.size
          listeners := s.listeners.push (.observer label) } [] := .observe rfl (FlowGraph.hasNode_iff.1 hn)
      have hv₁ := hstep.valid hv
      have hlisten := he.same hv hstep.grows rfl FlowGraph.out_listen FlowGraph.held_listen
      exact hlisten.moves hv₁ (moves_drain (w := .driver) hv₁ []) hw
    · exact he
  | takeObservations => exact he.same hv { Grows.refl s with } rfl (fun _ => rfl) fun _ => rfl

theorem Enclosed.history (he : s.Enclosed) (h : s.Sound) {ops : List Op} (hops : ∀ op ∈ ops, op.intrudes = false) :
    (s.history ops).Enclosed := by
  induction ops generalizing s with
  | nil => exact he
  | cons op ops ih =>
    exact ih (he.apply h (hops op List.mem_cons_self)) (h.apply op).1 fun op' hop =>
      hops op' (List.mem_cons_of_mem _ hop)

/-! ## Settled analyses -/

/-- Whether every aggregate holds just what lies below its type among the types at the root, which is the aggregate
of the top class. -/
structure Gathered (s : Analysis) : Prop where
  top : s.aggregate (.object objectClass) = (root, s)
  holds : ∀ {top n}, top ≠ .object objectClass → s.aggregate? top = some n →
    ∀ t, t ∈ s.graph.typesAt n ↔ t ∈ s.graph.typesAt root ∧ s.hierarchy.view.Below t.toDecl top

/-- In a settled analysis the types of an aggregate go on to those of all types above. -/
theorem Sound.mem_held_of_below (h : s.Sound) (hs : s.isSettled) {sub top : DeclType} {n : NodeId} {i : TypeId}
    (hb : s.hierarchy.view.Below sub top) (hn : s.aggregate? sub = some n) (hi : i ∈ s.graph.held n) :
    ∃ m, s.aggregate? top = some m ∧ i ∈ s.graph.held m := by
  obtain ⟨hdims, hbase | ⟨a, b, ha, hb, hinh⟩⟩ := hb
  · have heq : sub = top := by rw [← sub.wrap_base, ← top.wrap_base, hdims, hbase]
    exact ⟨n, heq ▸ hn, hi⟩
  · rw [← sub.wrap_base, ha, hdims] at hn
    rw [← top.wrap_base, hb]
    exact h.mem_arrays_of_inherits hs hinh hn hi

theorem Sound.mem_aggregate_of_below (h : s.Sound) (hs : s.isSettled) {top : DeclType} {n : NodeId} {t : ExactType}
    (hn : s.aggregate? top = some n) (ht : t ∈ s.graph.typesAt root) (hb : s.hierarchy.view.Below t.toDecl top) :
    t ∈ s.graph.typesAt n := by
  obtain ⟨i, hi, hit⟩ := FlowGraph.mem_typesAt.1 ht
  obtain ⟨k, hk, hik⟩ := h.mem_own_aggregate hi hit
  obtain ⟨m, hm, him⟩ := h.mem_held_of_below hs hb hk hik
  obtain rfl := Option.some.inj (hm.symm.trans hn)
  exact FlowGraph.mem_typesAt.2 ⟨i, him, hit⟩

theorem Enclosed.gathered (he : s.Enclosed) (h : s.Sound) (hs : s.isSettled) : s.Gathered where
  top := rfl
  holds {top n} htop hn t := by
    constructor
    · intro ht
      have hfind := find?_of_aggregate? hn fun hroot => absurd (of_decide_eq_true hroot) htop
      obtain ⟨i, hi, hit⟩ := FlowGraph.mem_typesAt.1 ht
      exact ⟨FlowGraph.mem_typesAt.2 ⟨i, he.rooted n i hi, hit⟩, he.closed.below hfind ht _ s.hierarchy.fits_view⟩
    · exact fun ht => h.mem_aggregate_of_below hs hn ht.1 ht.2

/-- In a settled session in which nobody outside put types or edges into the graph,
aggregates hold what they should. -/
theorem gathered_of_settled (w : World) (settings : Settings) (ops : List Op)
    (hops : ∀ op ∈ ops, op.intrudes = false)
    (hs : ((Analysis.new w settings).history ops).isSettled) :
    ((Analysis.new w settings).history ops).Gathered := by
  have hsound := ((sound_new w settings).history ops).1
  have hblank : (Analysis.new w settings).Enclosed := enclosed_blank settings { world := w } ∅ false 0 []
  exact (hblank.history (sound_new w settings) hops).gathered hsound hs

/-! Two classes that extend each other, a missing interface, and an array. -/

def sampleLoop : QualifiedMethod := ⟨"A", ⟨"main", [], .void⟩⟩

def sampleCycle : World where
  classes := [
    ⟨"A", some "B", [], [], [],
      [⟨sampleLoop.signature, [.static], some ⟨1, [⟨[.new 0 "A", .newArray 0 (.object "A") 0], []⟩]⟩⟩]⟩,
    ⟨"B", some "A", ["I"], [], [], []⟩]
  nodup := by decide

def sampleOps : List Op :=
  [.aggregate (.object "I"), .newNode, .command (.entry sampleLoop), .command .settle,
    .aggregate (.array (.object "I")), .command .settle]

set_option maxRecDepth 100000 in
theorem gathered_sampleCycle :
    (∀ op ∈ sampleOps, op.intrudes = false) ∧ ((Analysis.new sampleCycle {}).history sampleOps).isSettled ∧
      ((Analysis.new sampleCycle {}).history sampleOps).Gathered ∧
      (((Analysis.new sampleCycle {}).history sampleOps).aggregate? (.object "I")).map
        ((Analysis.new sampleCycle {}).history sampleOps).graph.typesAt = some [.ofClass "A"] := by
  have hops : ∀ op ∈ sampleOps, op.intrudes = false := by decide
  have hs : ((Analysis.new sampleCycle {}).history sampleOps).isSettled = true := by decide +kernel
  exact ⟨hops, hs, gathered_of_settled sampleCycle {} sampleOps hops hs, by decide +kernel⟩

end Analysis

end TypeFlow
