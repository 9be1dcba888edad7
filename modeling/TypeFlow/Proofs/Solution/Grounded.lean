import TypeFlow.Proofs.FlowGraph.Exact
import TypeFlow.Proofs.Hierarchy.Shows
import TypeFlow.Proofs.Solution.Reading

/-!
# Grounded analyses

An analysis is grounded in a closed set of facts when everything in it comes
from a fact of the set, and when every fact that it has brought its
consequences along, except where a body or a task is still to be run. `Γ` are
the facts whose consequences an operation is busy with.

The nodes are labelled with what they stand for. A label makes it possible to
say that each type and each edge comes from a fact, whichever node it is at.
-/

namespace TypeFlow

namespace FlowGraph

/-- New nodes are numbered on from those that are there. -/
theorem getElem?_newNodes {g : FlowGraph} {k i n : Nat} (h : (g.newNodes k).1[i]? = some n) :
    i < k ∧ n = g.nodes.size + i := by
  induction k generalizing g i with
  | zero => cases h
  | succ k ih =>
    rw [newNodes_succ] at h
    cases i with
    | zero =>
      cases h
      exact ⟨Nat.succ_pos k, rfl⟩
    | succ i =>
      obtain ⟨hi, hn⟩ := ih h
      rw [size_newNode] at hn
      omega

theorem newNodes_getElem? {g : FlowGraph} {k i : Nat} (hi : i < k) :
    (g.newNodes k).1[i]? = some (g.nodes.size + i) := by
  obtain ⟨n, hn⟩ : ∃ n, (g.newNodes k).1[i]? = some n :=
    ⟨_, List.getElem?_eq_getElem (by rwa [length_newNodes])⟩
  rw [hn, (getElem?_newNodes hn).2]

end FlowGraph

theorem CallSite.slots_congr {L L' : NodeId → Slot} {site : CallSite} (h : ∀ n ∈ site.nodes, L n = L' n) :
    site.slots L = site.slots L' := by
  simp only [nodes, List.mem_append, Option.mem_toList, List.mem_flatMap, List.mem_singleton] at h
  have hopt : ∀ {n? : Option NodeId}, (∀ n ∈ n?, L n = L' n) → n?.map L = n?.map L' := by
    intro n? hn
    cases n? with
    | none => rfl
    | some n => exact congrArg some (hn n rfl)
  unfold slots
  rw [hopt fun n hn => h n (Or.inl (Or.inl (Or.inl hn))), hopt fun n hn => h n (Or.inl (Or.inr hn)),
    h site.thrown (Or.inr rfl), List.map_congr_left fun n? hn? => hopt fun n hn =>
      h n (Or.inl (Or.inl (Or.inr ⟨n?, hn?, hn⟩)))]

namespace Analysis

/-- Work that still brings the consequences of a fact, in a queue or in hand. -/
def Waits (s : Analysis) (Γ : List Fact) : Fact → Prop
  | .method m => (∃ id ∈ s.worklist, ∃ r, s.methods[id]? = some r ∧ r.reference = m) ∨ .method m ∈ Γ
  | .aggregate t => (∃ n, .wire t n ∈ s.deferred) ∨ .aggregate t ∈ Γ
  | .initialized n => .initialized n ∈ Γ
  | .pool k => .pool k ∈ Γ
  | _ => False

structure Sourced (w : World) (K : Fact → Prop) (s : Analysis) : Prop where
  classes : ∀ {n r}, s.classes.find? n = some r → K (.cls n) ∧ (r.initialized = true → K (.initialized n)) ∧
    r.missing = (w.find? n).isNone
  problems : ∀ {p}, p ∈ s.problems → K (.problem p)
  methods : ∀ {id : Nat} {r}, s.methods[id]? = some r → K (.method r.reference) ∧ K (.named r.reference) ∧
    (r.processed = true → r.locals.size = r.localCount)
  aliases : ∀ {m}, m ∈ s.aliases.keys → K (.named m)
  fields : ∀ {f r}, s.fields.find? f = some r → K (.field r.reference)
  aggregates : ∀ {t}, t ∈ s.aggregates.keys → K (.aggregate t)
  pools : ∀ {k}, k ∈ s.itemPools.keys → K (.pool k)
  selectors : ∀ {id : Nat} {sel κ}, s.Answers id κ → s.selectors[id]? = some sel →
    (∃ σ, K (.serves κ σ)) ∧ ∀ m ∈ sel.targets, K (.target κ m)
  noted : ∀ {id : Nat} {r key} {k : Nat}, s.methods[id]? = some r → k ∈ r.selectorsAt key → k < s.selectors.size
  calls : ∀ {id : Nat} {r key k κ}, s.methods[id]? = some r → k ∈ r.selectorsAt key → s.Answers k κ →
    K (.calls r.reference key κ)

/-- `L` names what each node stands for; every type, edge and site comes from a fact. -/
structure Labelled (K : Fact → Prop) (L : NodeId → Slot) (s : Analysis) : Prop where
  slot : ∀ {n : Nat}, n < s.graph.nodes.size → s.StandsFor n (L n)
  only : ∀ {n x}, s.StandsFor n x → L n = x
  holds : ∀ {n t}, t ∈ s.graph.typesAt n → K (.holds (L n) t)
  flows : ∀ {a b : Nat}, b ∈ s.graph.out a → K (.flow (L a) (L b))
  serves : ∀ {id : Nat} {sel κ site}, s.Answers id κ → s.selectors[id]? = some sel → site ∈ sel.sites →
    K (.serves κ (site.slots L))

structure Grounded (w : World) (o : Settings) (K : Fact → Prop) (Γ : List Fact) (s : Analysis) : Prop where
  valid : s.Valid
  shows : s.hierarchy.Shows w
  settings : s.settings = o
  fresh : s.reseed = false
  sourced : s.Sourced w K
  kept : ∀ φ, s.Has φ → s.Waits Γ φ ∨ ∀ ψ ∈ w.catalog.consequences o φ, s.Has ψ
  labelled : ∃ L, s.Labelled K L

variable {w : World} {o : Settings} {K : Fact → Prop} {Γ Γ' : List Fact} {s s' s'' : Analysis} {L : NodeId → Slot}

theorem Valid.standsFor_lt (hv : s.Valid) {n : Nat} {x : Slot} (hx : s.StandsFor n x) : n < s.graph.nodes.size := by
  cases x with
  | root => exact hx ▸ hv.root
  | param m i =>
    obtain ⟨r, ⟨-, id, hr⟩, hn⟩ := hx
    exact ((hv.methods.record hr).params n (List.mem_of_getElem? hn)).1
  | result m =>
    obtain ⟨r, ⟨-, id, hr⟩, rfl⟩ := hx
    exact (hv.methods.record hr).result.1
  | thrown m =>
    obtain ⟨r, ⟨-, id, hr⟩, rfl⟩ := hx
    exact (hv.methods.record hr).thrown.1
  | var m v =>
    obtain ⟨r, ⟨-, id, hr⟩, hn⟩ := hx
    exact ((hv.methods.record hr).locals hn).1
  | field f => exact (hv.nodes.field hx).1.1
  | aggregate t => exact (hv.nodes.aggregate hx).1
  | pool k => exact (hv.nodes.itemPool hx).1

theorem Waits.grow {φ : Fact} (h : s.Waits Γ φ) (hg : s.Grows s') (hw : s.worklist ⊆ s'.worklist)
    (hd : s.deferred ⊆ s'.deferred) (hΓ : Γ ⊆ Γ') : s'.Waits Γ' φ := by
  cases φ with
  | method m =>
    refine h.imp ?_ fun hm => hΓ hm
    rintro ⟨id, hid, r, hr, hm⟩
    obtain ⟨r', hr', hgr⟩ := hg.methods id r hr
    exact ⟨id, hw hid, r', hr', hgr.reference.trans hm⟩
  | aggregate t => exact h.imp (fun ⟨n, hn⟩ => ⟨n, hd hn⟩) fun ht => hΓ ht
  | initialized n => exact hΓ h
  | pool k => exact hΓ h
  | _ => exact h

theorem Waits.same {φ : Fact} (h : s.Waits Γ φ) (hg : s.Grows s') (hw : s'.worklist = s.worklist)
    (hd : s'.deferred = s.deferred) : s'.Waits Γ φ :=
  h.grow hg (hw ▸ List.Subset.refl _) (hd ▸ List.Subset.refl _) (List.Subset.refl _)

theorem Waits.of_cons {φ χ : Fact} (h : s.Waits (χ :: Γ) φ) : s.Waits Γ φ ∨ φ = χ := by
  cases φ with
  | method m =>
    rcases h with h | h
    · exact Or.inl (Or.inl h)
    · exact (List.mem_cons.1 h).symm.imp_left Or.inr
  | aggregate t =>
    rcases h with h | h
    · exact Or.inl (Or.inl h)
    · exact (List.mem_cons.1 h).symm.imp_left Or.inr
  | initialized n => exact (List.mem_cons.1 h).symm
  | pool k => exact (List.mem_cons.1 h).symm
  | _ => exact Or.inl h

/-! ## Labels -/

/-- New nodes get labels of their own. -/
theorem Labelled.extend (h : s.Labelled K L) (hv : s.Valid) (hg : s.Grows s')
    (hk : s'.selectorKeys = s.selectorKeys) (hsel : s'.selectors = s.selectors)
    (hheld : ∀ n, s'.graph.typesAt n = s.graph.typesAt n) (hout : ∀ n, s'.graph.out n = s.graph.out n)
    (L₁ : NodeId → Slot)
    (hnew : ∀ {n : Nat}, s.graph.nodes.size ≤ n → n < s'.graph.nodes.size → s'.StandsFor n (L₁ n))
    (hold : ∀ {n x}, s'.StandsFor n x → s.StandsFor n x ∨ s.graph.nodes.size ≤ n ∧ L₁ n = x) :
    s'.Labelled K fun n => if n < s.graph.nodes.size then L n else L₁ n where
  slot {n} hn := by
    split
    · next hlt => exact hg.standsFor (h.slot hlt)
    · next hle => exact hnew (Nat.le_of_not_lt hle) hn
  only {n x} hx := by
    rcases hold hx with hx | ⟨hle, hx⟩
    · rw [if_pos (hv.standsFor_lt hx)]
      exact h.only hx
    · rw [if_neg (Nat.not_lt.2 hle)]
      exact hx
  holds {n t} ht := by
    rw [hheld] at ht
    rw [if_pos (FlowGraph.lt_size_of_mem_typesAt ht)]
    exact h.holds ht
  flows {a b} hb := by
    rw [hout] at hb
    rw [if_pos (FlowGraph.lt_size_of_mem_out hb), if_pos (hv.graph.out hb)]
    exact h.flows hb
  serves {id sel κ site} hκ hs hsite := by
    rw [hsel] at hs
    have hκ := hv.answers_of_same hg hk hκ
    have hnodes := hv.site_plain hκ hs hsite
    have heq : site.slots L = site.slots fun n => if n < s.graph.nodes.size then L n else L₁ n :=
      CallSite.slots_congr fun n hn => (if_pos (hnodes n hn).1).symm
    exact heq ▸ h.serves hκ hs hsite

/-- One new node gets the label `x`. -/
theorem Labelled.withNode (h : s.Labelled K L) (hv : s.Valid) (hg : s.Grows s')
    (hgraph : s'.graph = s.graph.newNode.2)
    (hk : s'.selectorKeys = s.selectorKeys) (hsel : s'.selectors = s.selectors) {x : Slot}
    (hnew : s'.StandsFor s.graph.nodes.size x)
    (hold : ∀ {n : Nat} {y}, s'.StandsFor n y → s.StandsFor n y ∨ n = s.graph.nodes.size ∧ y = x) :
    ∃ L', s'.Labelled K L' := by
  refine ⟨_, h.extend hv hg hk hsel (fun n => ?_) (fun n => ?_) (fun _ => x) (fun {n} hle hlt => ?_) fun hy => ?_⟩
  · rw [hgraph]
    exact FlowGraph.typesAt_congr (FlowGraph.held_newNode _ n) rfl
  · rw [hgraph]
    exact FlowGraph.out_newNode _ n
  · rw [hgraph, FlowGraph.size_newNode] at hlt
    obtain rfl : n = s.graph.nodes.size := by omega
    exact hnew
  · exact (hold hy).imp_right fun ⟨hn, hy⟩ => ⟨Nat.le_of_eq hn.symm, hy.symm⟩

theorem Labelled.opt {n? : Option NodeId} {x? : Option Slot} (h : s.Labelled K L)
    (hx : Option.Rel s.StandsFor n? x?) : n?.map L = x? := by
  cases hx with
  | some hx => exact congrArg some (h.only hx)
  | none => rfl

theorem Labelled.slots (h : s.Labelled K L) {site : CallSite} {σ : SlotSite} (hσ : s.SiteAt site σ) :
    site.slots L = σ := by
  have hargs : site.args.map (Option.map L) = σ.args := by
    have := hσ.args
    generalize site.args = args at this ⊢
    generalize σ.args = args' at this ⊢
    induction this with
    | nil => rfl
    | cons hx _ ih => exact congrArg₂ List.cons (h.opt hx) ih
  unfold CallSite.slots
  rw [h.opt hσ.receiver?, h.opt hσ.result?, hargs, h.only hσ.thrown]

/-! ## Steps -/

/-- A fact is out of hand when its consequences are there. -/
theorem Grounded.release {φ : Fact} (h : Grounded w o K (φ :: Γ) s)
    (hφ : ∀ ψ ∈ w.catalog.consequences o φ, s.Has ψ) : Grounded w o K Γ s := by
  refine { h with kept := fun χ hχ => ?_ }
  rcases h.kept χ hχ with hw | hc
  · rcases hw.of_cons with hw | rfl
    · exact Or.inl hw
    · exact Or.inr hφ
  · exact Or.inr hc

variable {γ γ' : List Duty} {actor : Actor}

/-- A step keeps an analysis grounded when what is new comes from facts and
brings its consequences, or leaves them to work that waits. -/
theorem Grounded.advance (h : Grounded w o K Γ s) (hstep : Step actor s γ s' γ') (hl : s.Leads s')
    (hfresh : s'.reseed = s.reseed) (hs : s'.Sourced w K)
    (hnew : ∀ φ, w.catalog.consequences o φ ≠ [] → s'.Has φ →
      s.Has φ ∨ s'.Waits Γ' φ ∨ ∀ ψ ∈ w.catalog.consequences o φ, s'.Has ψ)
    (hwait : ∀ φ, s.Waits Γ φ → s'.Waits Γ' φ) (hlab : ∃ L, s'.Labelled K L) :
    Grounded w o K Γ' s' where
  valid := hstep.valid h.valid
  shows := h.shows.learns hstep.learns
  settings := hl.grows.settings.trans h.settings
  fresh := hfresh.trans h.fresh
  sourced := hs
  kept φ hφ := by
    by_cases hnone : w.catalog.consequences o φ = []
    · exact Or.inr fun ψ hψ => absurd (hnone ▸ hψ) List.not_mem_nil
    rcases hnew φ hnone hφ with hold | hnew
    · exact (h.kept φ hold).imp (hwait φ) fun hc ψ hψ => hl.has (hc ψ hψ)
    · exact hnew
  labelled := hlab

/-- A step that adds none of the facts from which others follow. -/
theorem Grounded.aside (h : Grounded w o K Γ s) (hstep : Step actor s γ s' γ') (hl : s.Leads s')
    (hfresh : s'.reseed = s.reseed) (hs : s'.Sourced w K) (hc : s'.classes = s.classes)
    (hm : ∀ {m}, s'.Has (.method m) → s.Has (.method m)) (ha : s'.aliases = s.aliases) (hf : s'.fields = s.fields)
    (hg : s'.aggregates = s.aggregates) (hi : s'.itemPools = s.itemPools)
    (hwait : ∀ φ, s.Waits Γ φ → s'.Waits Γ' φ) (hlab : ∃ L, s'.Labelled K L) :
    Grounded w o K Γ' s' := by
  refine h.advance hstep hl hfresh hs (fun φ hne hφ => ?_) hwait hlab
  cases φ with
  | cls n => exact Or.inl (show n ∈ s.classes.keys from hc ▸ hφ)
  | initialized n =>
    obtain ⟨r, hr, hi⟩ := hφ
    exact Or.inl ⟨r, hc ▸ hr, hi⟩
  | method m => exact Or.inl (hm hφ)
  | named m => exact Or.inl (hφ.imp hm fun hk => ha ▸ hk)
  | field f =>
    obtain ⟨n, hn⟩ := hφ
    exact Or.inl ⟨n, hf ▸ hn⟩
  | aggregate t => exact Or.inl (show t ∈ s.aggregates.keys from hg ▸ hφ)
  | pool k => exact Or.inl (show k ∈ s.itemPools.keys from hi ▸ hφ)
  | _ => exact absurd rfl hne

/-- A step that changes nothing but the graph, and there neither nodes nor edges nor types. -/
theorem Grounded.withGraph (h : Grounded w o K Γ s) {g : FlowGraph}
    (hstep : Step .client s γ { s with graph := g } γ') (hlab : ∀ {L}, s.Labelled K L →
      (∀ {n t}, t ∈ g.typesAt n → K (.holds (L n) t)) ∧ (∀ {a b : Nat}, b ∈ g.out a → K (.flow (L a) (L b))) ∧
        g.nodes.size = s.graph.nodes.size) : Grounded w o K Γ { s with graph := g } := by
  obtain ⟨L, hL⟩ := h.labelled
  obtain ⟨hholds, hflows, hsize⟩ := hlab hL
  exact h.aside hstep (.of_grows hstep.grows) rfl { h.sourced with } rfl id rfl rfl rfl rfl
    (fun _ hφ => hφ.same hstep.grows rfl rfl)
    ⟨L, { hL with
      slot := fun hn => hL.slot (lt_of_lt_of_eq hn hsize)
      holds := hholds
      flows := hflows }⟩

/-! ## Operations -/

/-- An operation leaves the analysis grounded and brings the facts `Φ`. -/
structure Brings (w : World) (o : Settings) (K : Fact → Prop) (Γ Φ : List Fact) (s s' : Analysis) : Prop where
  grounded : Grounded w o K Γ s'
  leads : s.Leads s'
  has : ∀ φ ∈ Φ, s'.Has φ

namespace Brings

variable {Φ Ψ : List Fact}

theorem of_leads (h : Grounded w o K Γ s') (hl : s.Leads s') : Brings w o K Γ [] s s' :=
  ⟨h, hl, fun _ hφ => absurd hφ List.not_mem_nil⟩

theorem refl (h : Grounded w o K Γ s) : Brings w o K Γ [] s s := of_leads h (.refl s)

theorem of_has (h : Grounded w o K Γ s) (hΦ : ∀ φ ∈ Φ, s.Has φ) : Brings w o K Γ Φ s s := ⟨h, .refl s, hΦ⟩

/-- What an operation brings need not be told. -/
theorem forget (h : Brings w o K Γ Φ s s') : Brings w o K Γ [] s s' := of_leads h.grounded h.leads

theorem append (h : Brings w o K Γ Φ s s') (h' : Brings w o K Γ' Ψ s' s'') : Brings w o K Γ' (Φ ++ Ψ) s s'' where
  grounded := h'.grounded
  leads := h.leads.trans h'.leads
  has φ hφ := (List.mem_append.1 hφ).elim (fun hφ => h'.leads.has (h.has φ hφ)) (h'.has φ)

/-- What comes first may bring anything. -/
theorem after (h : s.Leads s') (h' : Brings w o K Γ Φ s' s'') : Brings w o K Γ Φ s s'' :=
  ⟨h'.grounded, h.trans h'.leads, h'.has⟩

theorem before (h : Brings w o K Γ Φ s s') (h' : Brings w o K Γ' Ψ s' s'') : Brings w o K Γ' Φ s s'' :=
  ⟨h'.grounded, h.leads.trans h'.leads, fun φ hφ => h'.leads.has (h.has φ hφ)⟩

theorem mono (h : Brings w o K Γ Φ s s') (hΨ : ∀ φ ∈ Ψ, s'.Has φ) : Brings w o K Γ Ψ s s' :=
  ⟨h.grounded, h.leads, hΨ⟩

/-- Operations one after another, while something that lasts holds. -/
theorem foldl {α : Type} {op : Analysis → α → Analysis} {facts : α → List Fact} {P : Analysis → Prop}
    (hP : ∀ {s s'}, s.Leads s' → P s → P s') (l : List α) (h : Grounded w o K Γ s) (hs : P s)
    (hop : ∀ {s a}, a ∈ l → Grounded w o K Γ s → P s → Brings w o K Γ (facts a) s (op s a)) :
    Brings w o K Γ (l.flatMap facts) s (l.foldl op s) := by
  induction l generalizing s with
  | nil => exact refl h
  | cons a l ih =>
    have hfirst := hop List.mem_cons_self h hs
    rw [List.flatMap_cons]
    exact hfirst.append (ih hfirst.grounded (hP hfirst.leads hs) fun hmem => hop (List.mem_cons_of_mem _ hmem))

end Brings

/-- A step that touches nothing that facts are about. -/
theorem Grounded.unseen (h : Grounded w o K Γ s) {hierarchy : Hierarchy} {worklist : List MethodId}
    {deferred : List Task} {entries : Table QualifiedMethod (List (Nat × ExactType))} {tally : AnalysisTally}
    {observations : List (String × ExactType)}
    (hstep : Step actor s γ { s with hierarchy, worklist, deferred, entries, tally, observations } γ')
    (hwait : ∀ φ, s.Waits Γ φ → Waits { s with hierarchy, worklist, deferred, entries, tally, observations } Γ' φ) :
    Brings w o K Γ' [] s { s with hierarchy, worklist, deferred, entries, tally, observations } := by
  have hleads := Leads.of_grows hstep.grows
  obtain ⟨L, hL⟩ := h.labelled
  exact .of_leads (h.aside hstep hleads rfl { h.sourced with } rfl id rfl rfl rfl rfl hwait ⟨L, { hL with }⟩) hleads

end Analysis

end TypeFlow
