import Mathlib.Logic.Relation
import TypeFlow.Proofs.FlowGraph.Closure

/-!
# What a flow graph holds exactly

After any operations on a new graph a node holds the types that were added at
some node from which edges lead to it, and no others. A flood may run at every
operation, over a graph with cycles that changes between two floods; it keeps
this because what arrives comes along edges from the work of the flood, and
because the graph is closed along its edges when the flood ends.
-/

namespace TypeFlow

namespace FlowGraph

inductive Op where
  | newNode
  | intern (t : ExactType)
  | add (n : NodeId) (t : TypeId)
  | connect (source target : NodeId)
  | listen (n : NodeId) (l : ListenerId)
  | takeNotice
  deriving DecidableEq

def perform (g : FlowGraph) : Op → FlowGraph
  | .newNode => g.newNode.2
  | .intern t => (g.intern t).2
  | .add n t => (g.add n t).2
  | .connect source target => g.connect source target
  | .listen n l => g.listen n l
  | .takeNotice =>
    match g.takeNotice with
    | some (_, g) => g
    | none => g

def admits (g : FlowGraph) : Op → Bool
  | .add n t => g.hasNode n && t < g.types.size
  | .connect source target => g.hasNode source && g.hasNode target
  | .listen n _ => g.hasNode n
  | _ => true

def after (g : FlowGraph) (ops : List Op) : FlowGraph := ops.foldl perform g

/-- Whether each operation names only what is there when its turn comes. -/
def admitsAll (g : FlowGraph) : List Op → Bool
  | [] => true
  | op :: ops => g.admits op && (g.perform op).admitsAll ops

def Reaches (g : FlowGraph) : NodeId → NodeId → Prop := Relation.ReflTransGen fun a b => b ∈ g.out a

variable {g g' : FlowGraph} {ops : List Op}

/-! ## Paths -/

theorem Reaches.mono {a b : NodeId} (h : g.Reaches a b) (hout : ∀ {n m : Nat}, m ∈ g.out n → m ∈ g'.out n) :
    g'.Reaches a b :=
  Relation.ReflTransGen.mono (fun _ _ => hout) _ _ h

theorem Grows.reaches (hg : g.Grows g') {a b : NodeId} (h : g.Reaches a b) : g'.Reaches a b := h.mono hg.mem_out

theorem Valid.mem_held_of_reaches (hv : g.Valid) {a b : NodeId} (h : g.Reaches a b)
    {t : TypeId} (ht : t ∈ g.held a) : t ∈ g.held b := by
  induction h with
  | refl => exact ht
  | tail _ hedge ih => exact hv.closed hedge ih

/-! ## What arrives comes along a path -/

theorem arrived_flood_along (g : FlowGraph) (work : List (Nat × Nat)) {n t : Nat} (h : t ∈ (g.flood work).held n) :
    t ∈ g.held n ∨ ∃ m, (m, t) ∈ work ∧ g.Reaches m n := by
  fun_induction flood g work with
  | case1 => exact Or.inl h
  | case2 g m u work hlack ih =>
    have hpath : ∀ {a b}, (g.put m u).Reaches a b → g.Reaches a b := fun h => h.mono fun hb => out_put g m u _ ▸ hb
    rcases ih h with hold | ⟨k, hk, hreach⟩
    · rcases (mem_held_put hlack).1 hold with hold | ⟨rfl, rfl⟩
      · exact Or.inl hold
      · exact Or.inr ⟨n, List.mem_cons_self, .refl⟩
    · rcases List.mem_append.1 hk with hk | hk
      · obtain ⟨b, hb, heq⟩ := List.mem_map.1 (List.mem_reverse.1 hk)
        cases heq
        exact Or.inr ⟨m, List.mem_cons_self, .head hb (hpath hreach)⟩
      · exact Or.inr ⟨k, List.mem_cons_of_mem _ hk, hpath hreach⟩
  | case3 g m u work hlack ih =>
    rcases ih h with hold | ⟨k, hk, hreach⟩
    · exact Or.inl hold
    · exact Or.inr ⟨k, List.mem_cons_of_mem _ hk, hreach⟩

theorem arrived_add_along {n t m i : Nat} (hi : i ∈ (g.add n t).2.held m) :
    i ∈ g.held m ∨ i = t ∧ g.Reaches n m := by
  unfold add at hi
  split at hi
  · rcases arrived_flood_along g _ hi with hi | ⟨k, hk, hreach⟩
    · exact Or.inl hi
    · rw [List.mem_singleton] at hk
      cases hk
      exact Or.inr ⟨rfl, hreach⟩
  · exact Or.inl hi

theorem arrived_connect_along {a b m i : Nat} (hi : i ∈ (g.connect a b).held m) :
    i ∈ g.held m ∨ i ∈ g.held a ∧ (g.connect a b).Reaches a m := by
  by_cases hj : g.Joinable a b
  · rw [connect_of_joinable hj] at hi ⊢
    rcases arrived_flood_along _ _ hi with hi | ⟨k, hk, hreach⟩
    · exact Or.inl (held_withEdge g a b m ▸ hi)
    · obtain ⟨t, ht, heq⟩ := List.mem_map.1 (List.mem_reverse.1 hk)
      cases heq
      have hedge : b ∈ (g.withEdge a b).out a := by
        rw [out_withEdge hj, if_pos rfl]
        exact List.mem_append_right _ List.mem_cons_self
      have hpath : (g.withEdge a b).Reaches a m := .head hedge hreach
      exact Or.inr ⟨ht, hpath.mono fun h => (out_flood (g.withEdge a b) _ _).symm ▸ h⟩
  · rw [connect_of_not_joinable hj] at hi
    exact Or.inl hi

theorem mem_out_connect {a b n m : Nat} (ha : a < g.nodes.size) :
    m ∈ (g.connect a b).out n ↔ m ∈ g.out n ∨ a ≠ b ∧ n = a ∧ m = b := by
  by_cases hj : g.Joinable a b
  · rw [connect_of_joinable hj, out_flood, out_withEdge hj]
    by_cases hn : n = a
    · subst hn
      simp [hj.2.1]
    · simp [hn]
  · rw [connect_of_not_joinable hj]
    refine ⟨Or.inl, fun h => h.elim id ?_⟩
    rintro ⟨hne, rfl, rfl⟩
    exact Classical.byContradiction fun hout => hj ⟨ha, hne, hout⟩

/-! ## Several nodes and types by name -/

theorem size_flood (g : FlowGraph) (work : List (Nat × Nat)) : (g.flood work).nodes.size = g.nodes.size :=
  flood_keeps g work (fun g => g.nodes.size) fun g n t => size_put g n t

theorem size_add (g : FlowGraph) (n t : Nat) : (g.add n t).2.nodes.size = g.nodes.size := by
  unfold add
  split
  · exact size_flood g _
  · rfl

theorem out_add (g : FlowGraph) (n t m : Nat) : (g.add n t).2.out m = g.out m := by
  unfold add
  split
  · exact out_flood g _ m
  · rfl

theorem addAll_keeps {α : Type} (F : FlowGraph → α) (hF : ∀ g n t, F (add g n t).2 = F g) (g : FlowGraph)
    (nodes : List NodeId) (t : TypeId) : F (g.addAll nodes t) = F g := by
  induction nodes generalizing g with
  | nil => rfl
  | cons n nodes ih => exact (ih _).trans (hF g n t)

theorem size_addAll (g : FlowGraph) (nodes : List NodeId) (t : TypeId) :
    (g.addAll nodes t).nodes.size = g.nodes.size := addAll_keeps (fun g => g.nodes.size) size_add g nodes t

theorem out_addAll (g : FlowGraph) (nodes : List NodeId) (t : TypeId) (m : NodeId) :
    (g.addAll nodes t).out m = g.out m := addAll_keeps (fun g => g.out m) (fun g n t => out_add g n t m) g nodes t

theorem size_connect (g : FlowGraph) (a b : NodeId) : (g.connect a b).nodes.size = g.nodes.size := by
  by_cases hj : g.Joinable a b
  · rw [connect_of_joinable hj, size_flood, size_withEdge]
  · rw [connect_of_not_joinable hj]

theorem arrived_addAll_along {nodes : List NodeId} {t m i : Nat} (hi : i ∈ (g.addAll nodes t).held m) :
    i ∈ g.held m ∨ i = t ∧ ∃ n ∈ nodes, g.Reaches n m := by
  induction nodes generalizing g with
  | nil => exact Or.inl hi
  | cons n nodes ih =>
    have hback : ∀ {a b : NodeId}, (g.add n t).2.Reaches a b → g.Reaches a b :=
      fun hreach => hreach.mono fun {k j} hj => out_add g n t k ▸ hj
    rcases ih hi with hi | ⟨rfl, k, hk, hreach⟩
    · exact (arrived_add_along hi).imp_right fun ⟨he, hreach⟩ => ⟨he, n, List.mem_cons_self, hreach⟩
    · exact Or.inr ⟨rfl, k, List.mem_cons_of_mem _ hk, hback hreach⟩

theorem arrived_typesAt_connect {a b m : NodeId} {t : ExactType} (ht : t ∈ (g.connect a b).typesAt m) :
    t ∈ g.typesAt m ∨ t ∈ g.typesAt a ∧ (g.connect a b).Reaches a m := by
  obtain ⟨i, hi, ht⟩ := mem_typesAt.1 ht
  have ht : g.type? i = some t := by
    unfold type? at ht ⊢
    rwa [types_connect] at ht
  exact (arrived_connect_along hi).imp (fun hi => mem_typesAt.2 ⟨i, hi, ht⟩) fun ⟨hi, hreach⟩ =>
    ⟨mem_typesAt.2 ⟨i, hi, ht⟩, hreach⟩

theorem arrived_typesAt_add {n i m : Nat} {t u : ExactType} (hu : g.type? i = some u)
    (ht : t ∈ (g.add n i).2.typesAt m) : t ∈ g.typesAt m ∨ t = u ∧ g.Reaches n m := by
  obtain ⟨j, hj, hnew⟩ := mem_typesAt.1 ht
  have hold : g.type? j = some t := by
    unfold type? at hnew ⊢
    rwa [types_add] at hnew
  rcases arrived_add_along hj with hj | ⟨rfl, hreach⟩
  · exact Or.inl (mem_typesAt.2 ⟨j, hj, hold⟩)
  · exact Or.inr ⟨Option.some.inj (hold.symm.trans hu), hreach⟩

theorem arrived_typesAt_addType (hv : g.Valid) {nodes : List NodeId} {m : NodeId} {t u : ExactType}
    (ht : t ∈ ((g.intern u).2.addAll nodes (g.intern u).1).typesAt m) :
    t ∈ g.typesAt m ∨ t = u ∧ ∃ n ∈ nodes, g.Reaches n m := by
  obtain ⟨i, hi, ht⟩ := mem_typesAt.1 ht
  have hgrows := (grows_intern g u).trans (grows_addAll (g.intern u).2 nodes (g.intern u).1)
  have hback : ∀ {a b : NodeId}, (g.intern u).2.Reaches a b → g.Reaches a b :=
    fun hreach => hreach.mono fun {k j} hj => out_intern g u k ▸ hj
  rcases arrived_addAll_along hi with hi | ⟨rfl, n, hn, hreach⟩
  · rw [held_intern] at hi
    obtain ⟨t', ht'⟩ := exists_type? (hv.held hi)
    obtain rfl := Option.some.inj ((hgrows.type? ht').symm.trans ht)
    exact Or.inl (mem_typesAt.2 ⟨i, hi, ht'⟩)
  · have hu := (grows_addAll (g.intern u).2 nodes (g.intern u).1).type? (type?_intern g u)
    exact Or.inr ⟨Option.some.inj (ht.symm.trans hu), n, hn, hback hreach⟩

/-! ## One operation -/

structure Made (ops : List Op) (g : FlowGraph) : Prop where
  valid : g.Valid
  out : ∀ {a b : NodeId}, b ∈ g.out a ↔ a ≠ b ∧ .connect a b ∈ ops
  added : ∀ {n : NodeId} {t : TypeId}, .add n t ∈ ops → t ∈ g.held n
  sound : ∀ {n : NodeId} {t : TypeId}, t ∈ g.held n → ∃ m, .add m t ∈ ops ∧ g.Reaches m n

theorem made_empty : Made [] {} where
  valid := ⟨fun h => (nomatch h), fun h => (nomatch h), fun h => (nomatch h), fun _ h => (nomatch h)⟩
  out := ⟨fun h => (nomatch h), fun h => (nomatch h.2)⟩
  added h := nomatch h
  sound h := nomatch h

theorem perform_takeNotice (g : FlowGraph) :
    (g.perform .takeNotice).nodes = g.nodes ∧ (g.perform .takeNotice).types = g.types := by
  simp only [perform, takeNotice]
  cases g.pending with
  | nil => exact ⟨rfl, rfl⟩
  | cons d rest => exact ⟨rfl, rfl⟩

theorem grows_perform (g : FlowGraph) (op : Op) : g.Grows (g.perform op) := by
  cases op with
  | newNode => exact grows_newNode g
  | intern t => exact grows_intern g t
  | add n t => exact grows_add g n t
  | connect a b => exact grows_connect g a b
  | listen n l => exact grows_listen
  | takeNotice =>
    obtain ⟨hnodes, htypes⟩ := g.perform_takeNotice
    have hheld : ∀ n, (g.perform .takeNotice).held n = g.held n := fun n => by simp only [held, hnodes]
    have hout : ∀ n, (g.perform .takeNotice).out n = g.out n := fun n => by simp only [out, hnodes]
    have hlisteners : ∀ n, (g.perform .takeNotice).listeners n = g.listeners n := fun n => by
      simp only [listeners, hnodes]
    exact ⟨Nat.le_of_eq (congrArg Array.size hnodes).symm, fun n => hheld n ▸ List.prefix_rfl,
      fun n => hout n ▸ List.prefix_rfl, fun n => hlisteners n ▸ List.prefix_rfl, htypes ▸ List.prefix_rfl⟩

/-- An operation that leaves types and edges where they are. -/
theorem Made.aside {op : Op} (h : Made ops g) (hv : g'.Valid) (hheld : ∀ n, g'.held n = g.held n)
    (hout : ∀ n, g'.out n = g.out n) (hadd : ∀ n t, op ≠ .add n t) (hconnect : ∀ a b, op ≠ .connect a b) :
    Made (ops ++ [op]) g' where
  valid := hv
  out {a b} := by
    rw [hout, h.out, List.mem_append, List.mem_singleton, or_iff_left (hconnect a b).symm]
  added {n t} ht := by
    rw [List.mem_append, List.mem_singleton, or_iff_left (hadd n t).symm] at ht
    rw [hheld]
    exact h.added ht
  sound ht := by
    obtain ⟨m, hm, hreach⟩ := h.sound (hheld _ ▸ ht)
    exact ⟨m, List.mem_append_left _ hm, hreach.mono fun hb => (hout _).symm ▸ hb⟩

theorem Made.add (h : Made ops g) {n : NodeId} {t : TypeId} (hn : n < g.nodes.size) (ht : t < g.types.size) :
    Made (ops ++ [.add n t]) (g.add n t).2 where
  valid := h.valid.add hn ht
  out {a b} := by
    have hout : (g.add n t).2.out a = g.out a := by
      unfold FlowGraph.add
      split
      · exact out_flood g _ a
      · rfl
    rw [hout, h.out, List.mem_append, List.mem_singleton, or_iff_left nofun]
  added {m i} hi := by
    rcases List.mem_append.1 hi with hi | hi
    · exact (grows_add g n t).mem_held (h.added hi)
    · cases List.mem_singleton.1 hi
      exact mem_held_add h.valid hn ht
  sound {m i} hi := by
    have hgrows := grows_add g n t
    rcases arrived_add_along hi with hi | ⟨rfl, hreach⟩
    · obtain ⟨k, hk, hreach⟩ := h.sound hi
      exact ⟨k, List.mem_append_left _ hk, hgrows.reaches hreach⟩
    · exact ⟨n, List.mem_append_right _ List.mem_cons_self, hgrows.reaches hreach⟩

theorem Made.connect (h : Made ops g) {a b : NodeId} (ha : a < g.nodes.size) (hb : b < g.nodes.size) :
    Made (ops ++ [.connect a b]) (g.connect a b) where
  valid := h.valid.connect hb
  out {n m} := by
    rw [mem_out_connect ha, h.out, List.mem_append, List.mem_singleton, Op.connect.injEq]
    grind
  added {m i} hi := by
    rw [List.mem_append, List.mem_singleton, or_iff_left nofun] at hi
    exact (grows_connect g a b).mem_held (h.added hi)
  sound {m i} hi := by
    have hgrows := grows_connect g a b
    rcases arrived_connect_along hi with hi | ⟨hi, hreach⟩
    · obtain ⟨k, hk, hreach⟩ := h.sound hi
      exact ⟨k, List.mem_append_left _ hk, hgrows.reaches hreach⟩
    · obtain ⟨k, hk, hreach'⟩ := h.sound hi
      exact ⟨k, List.mem_append_left _ hk, (hgrows.reaches hreach').trans hreach⟩

theorem Made.perform (h : Made ops g) {op : Op} (hop : g.admits op) : Made (ops ++ [op]) (g.perform op) := by
  cases op with
  | newNode => exact h.aside h.valid.newNode (held_newNode g) (out_newNode g) nofun nofun
  | intern t => exact h.aside (h.valid.intern t) (held_intern g t) (out_intern g t) nofun nofun
  | add n t =>
    simp only [admits, Bool.and_eq_true, decide_eq_true_eq] at hop
    exact h.add (hasNode_iff.1 hop.1) hop.2
  | connect a b =>
    simp only [admits, Bool.and_eq_true] at hop
    exact h.connect (hasNode_iff.1 hop.1) (hasNode_iff.1 hop.2)
  | listen n l => exact h.aside h.valid.listen held_listen out_listen nofun nofun
  | takeNotice =>
    obtain ⟨hnodes, -⟩ := g.perform_takeNotice
    have hv : (g.perform .takeNotice).Valid := by
      simp only [FlowGraph.perform]
      split
      · next hd => exact (h.valid.takeNotice hd).1
      · exact h.valid
    refine h.aside hv (fun n => ?_) (fun n => ?_) nofun nofun
    · simp only [held, hnodes]
    · simp only [FlowGraph.out, hnodes]

/-! ## Any operations -/

theorem Made.after {later : List Op} (h : Made ops g) (hops : g.admitsAll later) :
    Made (ops ++ later) (g.after later) := by
  induction later generalizing ops g with
  | nil => exact (List.append_nil ops).symm ▸ h
  | cons op later ih =>
    unfold admitsAll at hops
    rw [Bool.and_eq_true] at hops
    have hnext := ih (h.perform hops.1) hops.2
    rw [List.append_assoc] at hnext
    exact hnext

theorem grows_after (g : FlowGraph) (ops : List Op) : g.Grows (g.after ops) := by
  induction ops generalizing g with
  | nil => exact .refl g
  | cons op ops ih => exact (grows_perform g op).trans (ih _)

theorem flood_of_held {work : List (Nat × Nat)} (h : ∀ p ∈ work, p.2 ∈ g.held p.1) : g.flood work = g := by
  induction work with
  | nil =>
    unfold flood
    rfl
  | cons p work ih =>
    have hlack : ¬ g.lacks p.1 p.2 := fun hl => (lacks_iff.1 hl).2.2 (h p List.mem_cons_self)
    unfold flood
    rw [dif_neg hlack]
    exact ih fun q hq => h q (List.mem_cons_of_mem _ hq)

/-- An edge along which there is a path already brings nothing. -/
theorem Valid.held_connect_of_reaches (hv : g.Valid) {a b : NodeId} (h : g.Reaches a b) (n : NodeId) :
    (g.connect a b).held n = g.held n := by
  by_cases hj : g.Joinable a b
  · rw [connect_of_joinable hj, flood_of_held, held_withEdge]
    intro p hp
    obtain ⟨t, ht, rfl⟩ := List.mem_map.1 (List.mem_reverse.1 hp)
    rw [held_withEdge]
    exact hv.mem_held_of_reaches h ht
  · rw [connect_of_not_joinable hj]

theorem nodup_held (g : FlowGraph) (n : NodeId) : (g.held n).Nodup := by
  unfold held
  split
  · exact OrderedSet.nodup _
  · exact List.nodup_nil

def Added (ops : List Op) (g : FlowGraph) (n : NodeId) (t : ExactType) : Prop :=
  ∃ i, .add n i ∈ ops ∧ g.type? i = some t

theorem Made.mem_typesAt (h : Made ops g) {n : NodeId} {t : ExactType} :
    t ∈ g.typesAt n ↔ ∃ m, Added ops g m t ∧ g.Reaches m n := by
  rw [FlowGraph.mem_typesAt]
  constructor
  · rintro ⟨i, hi, hit⟩
    obtain ⟨m, hm, hreach⟩ := h.sound hi
    exact ⟨m, ⟨i, hm, hit⟩, hreach⟩
  · rintro ⟨m, ⟨i, hi, hit⟩, hreach⟩
    exact ⟨i, h.valid.mem_held_of_reaches hreach (h.added hi), hit⟩

structure Exact (ops : List Op) (g : FlowGraph) : Prop where
  /-- A node holds what was added where edges lead from to it. -/
  held : ∀ n t, t ∈ g.held n ↔ ∃ m, .add m t ∈ ops ∧ g.Reaches m n
  /-- The edges are those asked for, without those from a node to itself. -/
  out : ∀ a b, b ∈ g.out a ↔ a ≠ b ∧ .connect a b ∈ ops
  /-- Operations that add the same types and edges in another order give every node the same types. -/
  order : ∀ ops', ({} : FlowGraph).admitsAll ops' →
    (∀ n t, Added ops' (({} : FlowGraph).after ops') n t ↔ Added ops g n t) →
    (∀ a b, .connect a b ∈ ops' ↔ .connect a b ∈ ops) →
    ∀ n t, t ∈ (({} : FlowGraph).after ops').typesAt n ↔ t ∈ g.typesAt n
  /-- What the source of an edge holds, its target holds. -/
  history : ∀ a b, b ∈ g.out a → g.held a ⊆ g.held b
  /-- A type that comes to a node again, round a cycle, is held once. -/
  once : ∀ n, (g.held n).Nodup
  /-- An edge from a node to itself, or along a path that is there, brings nothing. -/
  redundant : ∀ a b, g.Reaches a b → ∀ n, (g.connect a b).held n = g.held n
  /-- What a node held before stays in front, in the order in which it arrived. -/
  arrival : ∀ before later, ops = before ++ later → ∀ n, (({} : FlowGraph).after before).held n <+: g.held n

theorem Made.reaches_iff {ops' : List Op} (h : Made ops g) (h' : Made ops' g')
    (hops : ∀ a b, .connect a b ∈ ops' ↔ .connect a b ∈ ops) {a b : NodeId} : g'.Reaches a b ↔ g.Reaches a b := by
  have hout : ∀ {n m : Nat}, m ∈ g'.out n ↔ m ∈ g.out n := by
    intro n m
    rw [h.out, h'.out, hops]
  exact ⟨fun hr => hr.mono hout.1, fun hr => hr.mono hout.2⟩

/-- After any operations whose nodes and types are there when they are named, a new
graph holds exactly what it should. -/
theorem exact_after (ops : List Op) (hops : ({} : FlowGraph).admitsAll ops) :
    Exact ops (({} : FlowGraph).after ops) := by
  have hmade : Made ops (({} : FlowGraph).after ops) := made_empty.after hops
  refine ⟨fun n t => ⟨hmade.sound, ?_⟩, fun _ _ => hmade.out, fun ops' hops' hadds hconnects n t => ?_,
    fun _ _ hb _ ht => hmade.valid.closed hb ht, nodup_held _, fun _ _ h =>
      hmade.valid.held_connect_of_reaches h, ?_⟩
  · rintro ⟨m, hm, hreach⟩
    exact hmade.valid.mem_held_of_reaches hreach (hmade.added hm)
  · have hmade' : Made ops' (({} : FlowGraph).after ops') := made_empty.after hops'
    rw [hmade.mem_typesAt, hmade'.mem_typesAt]
    exact exists_congr fun m => and_congr (hadds m t) (hmade.reaches_iff hmade' hconnects)
  · rintro before later rfl n
    have happend : ({} : FlowGraph).after (before ++ later) = (({} : FlowGraph).after before).after later :=
      List.foldl_append
    rw [happend]
    exact (grows_after _ later).held n

/-! Three nodes on a cycle, one of them with an edge to itself, and a type that comes before the cycle is closed. -/

def sampleOps : List Op :=
  [.newNode, .newNode, .newNode, .intern (.ofClass "A"), .connect 0 1, .add 1 0, .connect 1 1, .listen 2 7,
    .connect 1 2, .takeNotice, .connect 2 0]

theorem exact_after_sampleOps : ({} : FlowGraph).admitsAll sampleOps ∧
    Exact sampleOps (({} : FlowGraph).after sampleOps) ∧ 0 ∈ (({} : FlowGraph).after sampleOps).held 0 := by
  have hops : ({} : FlowGraph).admitsAll sampleOps = true := by decide +kernel
  have hexact := exact_after sampleOps hops
  refine ⟨hops, hexact, (hexact.held 0 0).2 ⟨1, by decide, ?_⟩⟩
  have h12 : 2 ∈ (({} : FlowGraph).after sampleOps).out 1 := (hexact.out 1 2).2 ⟨by decide, by decide⟩
  have h20 : 0 ∈ (({} : FlowGraph).after sampleOps).out 2 := (hexact.out 2 0).2 ⟨by decide, by decide⟩
  exact .head h12 (.single h20)

end FlowGraph

end TypeFlow
