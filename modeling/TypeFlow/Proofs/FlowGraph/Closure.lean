import TypeFlow.Proofs.FlowGraph.Growth

/-!
# Closure of flow graphs

In a valid graph every edge has already carried everything: what a node holds
is held at the end of each of its edges. A flood restores this after a type or
an edge was added, and every new meeting of a listener and a type is announced
by a notice (`Announces`).
-/

namespace TypeFlow

namespace FlowGraph

structure Valid (g : FlowGraph) : Prop where
  held : ∀ {n t : Nat}, t ∈ g.held n → t < g.types.size
  out : ∀ {n m : Nat}, m ∈ g.out n → m < g.nodes.size
  closed : ∀ {n m t : Nat}, m ∈ g.out n → t ∈ g.held n → t ∈ g.held m
  told : ∀ d ∈ g.pending, ∃ n, d.listener ∈ g.listeners n ∧ d.type ∈ g.held n

/-- The second graph came from the first by changes that queue a notice for
every listener that meets a type for the first time. -/
structure Announces (g g' : FlowGraph) : Prop where
  pending : g.pending ⊆ g'.pending
  fresh : ∀ {n l t : Nat}, l ∈ g'.listeners n → t ∈ g'.held n →
    (l ∈ g.listeners n ∧ t ∈ g.held n) ∨ (⟨l, t⟩ : Notice) ∈ g'.pending

namespace Announces

variable {g g' g'' : FlowGraph}

theorem refl (g : FlowGraph) : g.Announces g := ⟨fun _ h => h, fun hl ht => Or.inl ⟨hl, ht⟩⟩

theorem trans (h : g.Announces g') (h' : g'.Announces g'') : g.Announces g'' := by
  refine ⟨fun _ hd => h'.pending (h.pending hd), fun hl ht => ?_⟩
  rcases h'.fresh hl ht with ⟨hl, ht⟩ | hd
  · rcases h.fresh hl ht with hold | hd
    · exact Or.inl hold
    · exact Or.inr (h'.pending hd)
  · exact Or.inr hd

end Announces

theorem announces_of_same {g g' : FlowGraph} (hp : g'.pending = g.pending) (hh : ∀ n, g'.held n = g.held n)
    (hl : ∀ n, g'.listeners n = g.listeners n) : g.Announces g' :=
  ⟨fun _ h => hp ▸ h, fun h h' => Or.inl ⟨hl _ ▸ h, hh _ ▸ h'⟩⟩

/-! ## What a flood does -/

/-- What flows in comes from the work, and every listener that it meets is told. -/
theorem arrived_flood (g : FlowGraph) (work : List (Nat × Nat)) {n t : Nat} (h : t ∈ (g.flood work).held n) :
    t ∈ g.held n ∨ (∃ m, (m, t) ∈ work) ∧ ∀ l ∈ g.listeners n, (⟨l, t⟩ : Notice) ∈ (g.flood work).pending := by
  fun_induction flood g work with
  | case1 => exact Or.inl h
  | case2 g m u work hlack ih =>
    rcases ih h with hold | ⟨⟨k, hk⟩, htold⟩
    · rcases (mem_held_put hlack).1 hold with hold | ⟨rfl, rfl⟩
      · exact Or.inl hold
      · refine Or.inr ⟨⟨n, List.mem_cons_self⟩, fun l hl => (pending_flood _ _).subset ?_⟩
        exact List.mem_append_right _ (List.mem_map.2 ⟨l, hl, rfl⟩)
    · refine Or.inr ⟨?_, fun l hl => htold l ((listeners_put g m u n).symm ▸ hl)⟩
      rcases List.mem_append.1 hk with hk | hk
      · obtain ⟨b, _, hb⟩ := List.mem_map.1 (List.mem_reverse.1 hk)
        cases hb
        exact ⟨m, List.mem_cons_self⟩
      · exact ⟨k, List.mem_cons_of_mem _ hk⟩
  | case3 g m u work hlack ih =>
    rcases ih h with hold | ⟨⟨k, hk⟩, htold⟩
    · exact Or.inl hold
    · exact Or.inr ⟨⟨k, List.mem_cons_of_mem _ hk⟩, htold⟩

theorem announces_flood (g : FlowGraph) (work : List (Nat × Nat)) : g.Announces (g.flood work) := by
  refine ⟨(pending_flood g work).subset, fun {n l t} hl ht => ?_⟩
  rw [listeners_flood] at hl
  rcases arrived_flood g work ht with hold | ⟨_, htold⟩
  · exact Or.inl ⟨hl, hold⟩
  · exact Or.inr (htold l hl)

/-- A graph with work still to be done: valid but for edges whose types wait in the work. -/
structure Flooding (g : FlowGraph) (work : List (Nat × Nat)) : Prop where
  held : ∀ {n t : Nat}, t ∈ g.held n → t < g.types.size
  out : ∀ {n m : Nat}, m ∈ g.out n → m < g.nodes.size
  closed : ∀ {n m t : Nat}, m ∈ g.out n → t ∈ g.held n → t ∈ g.held m ∨ (m, t) ∈ work
  told : ∀ d ∈ g.pending, ∃ n, d.listener ∈ g.listeners n ∧ d.type ∈ g.held n
  work : ∀ p ∈ work, p.1 < g.nodes.size ∧ p.2 < g.types.size

theorem Flooding.put {g : FlowGraph} {n t : Nat} {work : List (Nat × Nat)} (h : g.Flooding ((n, t) :: work))
    (hlack : g.lacks n t) :
    (g.put n t).Flooding (((g.out n).map fun m => (m, t)).reverse ++ work) where
  held := by
    intro k i hi
    rcases (mem_held_put hlack).1 hi with hi | ⟨_, rfl⟩
    · exact h.held hi
    · exact (lacks_iff.1 hlack).2.1
  out hm := by
    rw [out_put] at hm
    rw [size_put]
    exact h.out hm
  closed := by
    intro a b i hb hi
    rw [out_put] at hb
    rcases (mem_held_put hlack).1 hi with hi | ⟨rfl, rfl⟩
    · rcases h.closed hb hi with hi | hwork
      · exact Or.inl ((mem_held_put hlack).2 (Or.inl hi))
      · rcases List.mem_cons.1 hwork with heq | hwork
        · cases heq
          exact Or.inl ((mem_held_put hlack).2 (Or.inr ⟨rfl, rfl⟩))
        · exact Or.inr (List.mem_append_right _ hwork)
    · exact Or.inr (List.mem_append_left _ (List.mem_reverse.2 (List.mem_map.2 ⟨b, hb, rfl⟩)))
  told := by
    intro d hd
    rcases List.mem_append.1 hd with hd | hd
    · obtain ⟨k, hl, ht⟩ := h.told d hd
      exact ⟨k, (listeners_put g n t k).symm ▸ hl, (mem_held_put hlack).2 (Or.inl ht)⟩
    · obtain ⟨l, hl, rfl⟩ := List.mem_map.1 hd
      exact ⟨n, (listeners_put g n t n).symm ▸ hl, (mem_held_put hlack).2 (Or.inr ⟨rfl, rfl⟩)⟩
  work := by
    intro p hp
    rw [size_put]
    rcases List.mem_append.1 hp with hp | hp
    · obtain ⟨m, hm, rfl⟩ := List.mem_map.1 (List.mem_reverse.1 hp)
      exact ⟨h.out hm, (lacks_iff.1 hlack).2.1⟩
    · exact h.work p (List.mem_cons_of_mem _ hp)

theorem Flooding.drop {g : FlowGraph} {n t : Nat} {work : List (Nat × Nat)} (h : g.Flooding ((n, t) :: work))
    (hlack : ¬ g.lacks n t) : g.Flooding work ∧ t ∈ g.held n := by
  have hw := h.work (n, t) List.mem_cons_self
  have ht : t ∈ g.held n := Classical.byContradiction fun ht => hlack (lacks_iff.2 ⟨hw.1, hw.2, ht⟩)
  refine ⟨⟨h.held, h.out, fun hb hi => ?_, h.told, fun p hp => h.work p (List.mem_cons_of_mem _ hp)⟩, ht⟩
  rcases h.closed hb hi with hi | hwork
  · exact Or.inl hi
  · rcases List.mem_cons.1 hwork with heq | hwork
    · cases heq
      exact Or.inl ht
    · exact Or.inr hwork

theorem valid_flood {g : FlowGraph} {work : List (Nat × Nat)} (h : g.Flooding work) :
    (g.flood work).Valid ∧ ∀ p ∈ work, p.2 ∈ (g.flood work).held p.1 := by
  fun_induction flood g work with
  | case1 g =>
    refine ⟨⟨h.held, h.out, fun hb hi => ?_, h.told⟩, fun p hp => absurd hp List.not_mem_nil⟩
    exact (h.closed hb hi).resolve_right (List.not_mem_nil)
  | case2 g n t work hlack ih =>
    obtain ⟨hvalid, hwork⟩ := ih (h.put hlack)
    refine ⟨hvalid, fun p hp => ?_⟩
    rcases List.mem_cons.1 hp with rfl | hp
    · exact (grows_flood _ _).mem_held ((mem_held_put hlack).2 (Or.inr ⟨rfl, rfl⟩))
    · exact hwork p (List.mem_append_right _ hp)
  | case3 g n t work hlack ih =>
    obtain ⟨hrest, ht⟩ := h.drop hlack
    obtain ⟨hvalid, hwork⟩ := ih hrest
    refine ⟨hvalid, fun p hp => ?_⟩
    rcases List.mem_cons.1 hp with rfl | hp
    · exact (grows_flood _ _).mem_held ht
    · exact hwork p hp

/-! ## The operations on valid graphs -/

namespace Valid

variable {g : FlowGraph} (h : g.Valid)
include h

theorem flooding {work : List (Nat × Nat)} (hw : ∀ p ∈ work, p.1 < g.nodes.size ∧ p.2 < g.types.size) :
    g.Flooding work :=
  ⟨h.held, h.out, fun hb hi => Or.inl (h.closed hb hi), h.told, hw⟩

theorem newNode : g.newNode.2.Valid where
  held ht := h.held (held_newNode g _ ▸ ht)
  out hm := by
    have := h.out (out_newNode g _ ▸ hm)
    rw [size_newNode]
    omega
  closed hm ht := by
    rw [out_newNode] at hm
    rw [held_newNode] at ht ⊢
    exact h.closed hm ht
  told d hd := by
    obtain ⟨n, hl, ht⟩ := h.told d hd
    exact ⟨n, (listeners_newNode g n).symm ▸ hl, (held_newNode g n).symm ▸ ht⟩

theorem newNodes (k : Nat) : (g.newNodes k).2.Valid := by
  induction k generalizing g with
  | zero => exact h
  | succ k ih => exact ih h.newNode

theorem add {n t : Nat} (hn : n < g.nodes.size) (ht : t < g.types.size) : (g.add n t).2.Valid := by
  unfold FlowGraph.add
  split
  · refine (valid_flood (h.flooding fun p hp => ?_)).1
    rw [List.mem_singleton] at hp
    exact hp ▸ ⟨hn, ht⟩
  · exact h

theorem intern (t : ExactType) : (g.intern t).2.Valid where
  held hi := Nat.lt_of_lt_of_le (h.held (held_intern g t _ ▸ hi)) (grows_intern g t).types_size
  out hm := by
    rw [nodes_intern]
    exact h.out (out_intern g t _ ▸ hm)
  closed hm ht := by
    rw [out_intern] at hm
    rw [held_intern] at ht ⊢
    exact h.closed hm ht
  told d hd := by
    obtain ⟨n, hl, ht⟩ := h.told d (pending_intern g t ▸ hd)
    exact ⟨n, (listeners_intern g t n).symm ▸ hl, (held_intern g t n).symm ▸ ht⟩

theorem flooding_withEdge {a b : Nat} (hb : b < g.nodes.size) (hj : g.Joinable a b) :
    (g.withEdge a b).Flooding ((g.held a).map fun t => (b, t)).reverse where
  held ht := h.held (held_withEdge g a b _ ▸ ht)
  out {n m} hm := by
    rw [out_withEdge hj] at hm
    rw [size_withEdge]
    split at hm
    · rcases List.mem_append.1 hm with hm | hm
      · exact h.out hm
      · rw [List.mem_singleton] at hm
        exact hm ▸ hb
    · exact h.out hm
  closed {n m t} hm ht := by
    rw [held_withEdge] at ht ⊢
    rw [out_withEdge hj] at hm
    split at hm
    · next hn =>
      subst hn
      rcases List.mem_append.1 hm with hm | hm
      · exact Or.inl (h.closed hm ht)
      · rw [List.mem_singleton] at hm
        exact Or.inr (List.mem_reverse.2 (List.mem_map.2 ⟨t, ht, hm ▸ rfl⟩))
    · exact Or.inl (h.closed hm ht)
  told d hd := by
    obtain ⟨n, hl, ht⟩ := h.told d hd
    exact ⟨n, (listeners_withEdge g a b n).symm ▸ hl, (held_withEdge g a b n).symm ▸ ht⟩
  work p hp := by
    obtain ⟨t, ht, rfl⟩ := List.mem_map.1 (List.mem_reverse.1 hp)
    rw [size_withEdge]
    exact ⟨hb, h.held ht⟩

theorem connect {a b : Nat} (hb : b < g.nodes.size) : (g.connect a b).Valid := by
  by_cases hj : g.Joinable a b
  · rw [connect_of_joinable hj]
    exact (valid_flood (h.flooding_withEdge hb hj)).1
  · rw [connect_of_not_joinable hj]
    exact h

theorem listen {n : Nat} {l : ListenerId} : (g.listen n l).Valid where
  held ht := by
    rw [types_listen]
    exact h.held (held_listen (n := n) _ ▸ ht)
  out hm := by
    rw [size_listen]
    exact h.out (out_listen (n := n) _ ▸ hm)
  closed hm ht := by
    rw [out_listen] at hm
    rw [held_listen] at ht ⊢
    exact h.closed hm ht
  told d hd := by
    by_cases ho : g.Open n l
    · rw [listen_of_open ho] at hd
      rcases List.mem_append.1 hd with hd | hd
      · obtain ⟨m, hl, ht⟩ := h.told d hd
        exact ⟨m, grows_listen.mem_listeners hl, (held_listen m).symm ▸ ht⟩
      · obtain ⟨t, ht, rfl⟩ := List.mem_map.1 hd
        exact ⟨n, (mem_listeners_listen ho.1).2 (Or.inr ⟨rfl, rfl⟩), (held_listen n).symm ▸ ht⟩
    · rw [listen_of_not_open ho] at hd ⊢
      exact h.told d hd

theorem takeNotice {d : Notice} {g' : FlowGraph} (hd : g.takeNotice = some (d, g')) :
    g'.Valid ∧ ∃ n, d.listener ∈ g.listeners n ∧ d.type ∈ g.held n := by
  obtain ⟨rest, hp, rfl⟩ := takeNotice_some hd
  refine ⟨⟨h.held, h.out, h.closed, fun e he => h.told e (hp ▸ List.mem_cons_of_mem _ he)⟩, ?_⟩
  exact h.told d (hp ▸ List.mem_cons_self)

end Valid

/-! ## Announcements of the operations -/

theorem announces_newNodes (g : FlowGraph) (k : Nat) : g.Announces (g.newNodes k).2 :=
  announces_of_same (pending_newNodes g k) (held_newNodes g k) (listeners_newNodes g k)

theorem announces_newNode (g : FlowGraph) : g.Announces g.newNode.2 :=
  announces_of_same rfl (held_newNode g) (listeners_newNode g)

theorem announces_intern (g : FlowGraph) (t : ExactType) : g.Announces (g.intern t).2 :=
  announces_of_same (pending_intern g t) (held_intern g t) (listeners_intern g t)

theorem announces_add (g : FlowGraph) (n t : Nat) : g.Announces (g.add n t).2 := by
  unfold add
  split
  · exact announces_flood g _
  · exact .refl g

theorem announces_withEdge (g : FlowGraph) (a b : NodeId) : g.Announces (g.withEdge a b) :=
  announces_of_same rfl (held_withEdge g a b) (listeners_withEdge g a b)

theorem announces_connect (g : FlowGraph) (a b : NodeId) : g.Announces (g.connect a b) := by
  by_cases hj : g.Joinable a b
  · rw [connect_of_joinable hj]
    exact (announces_withEdge g a b).trans (announces_flood _ _)
  · rw [connect_of_not_joinable hj]
    exact .refl g

theorem announces_listen (g : FlowGraph) (n : NodeId) (l : ListenerId) : g.Announces (g.listen n l) := by
  refine ⟨pending_listen.subset, fun {m k t} hk ht => ?_⟩
  rw [held_listen] at ht
  by_cases ho : g.Open n l
  · rcases (mem_listeners_listen ho.1).1 hk with hk | ⟨rfl, rfl⟩
    · exact Or.inl ⟨hk, ht⟩
    · rw [listen_of_open ho]
      exact Or.inr (List.mem_append_right _ (List.mem_map.2 ⟨t, ht, rfl⟩))
  · rw [listen_of_not_open ho] at hk
    exact Or.inl ⟨hk, ht⟩

/-! ## What the operations achieve -/

theorem mem_held_add {g : FlowGraph} {n t : Nat} (h : g.Valid) (hn : n < g.nodes.size) (ht : t < g.types.size) :
    t ∈ (g.add n t).2.held n := by
  unfold add
  split
  · refine (valid_flood (h.flooding fun p hp => ?_)).2 (n, t) List.mem_cons_self
    rw [List.mem_singleton] at hp
    exact hp ▸ ⟨hn, ht⟩
  · next hlack => exact Classical.byContradiction fun hh => hlack (lacks_iff.2 ⟨hn, ht, hh⟩)

/-! ## One type at several nodes -/

def addAll (g : FlowGraph) (nodes : List NodeId) (t : TypeId) : FlowGraph :=
  nodes.foldl (fun g n => (g.add n t).2) g

theorem grows_addAll (g : FlowGraph) (nodes : List NodeId) (t : TypeId) : g.Grows (g.addAll nodes t) := by
  induction nodes generalizing g with
  | nil => exact .refl g
  | cons n nodes ih => exact (grows_add g n t).trans (ih _)

theorem announces_addAll (g : FlowGraph) (nodes : List NodeId) (t : TypeId) : g.Announces (g.addAll nodes t) := by
  induction nodes generalizing g with
  | nil => exact .refl g
  | cons n nodes ih => exact (announces_add g n t).trans (ih _)

theorem listeners_addAll (g : FlowGraph) (nodes : List NodeId) (t : TypeId) (m : NodeId) :
    (g.addAll nodes t).listeners m = g.listeners m := by
  induction nodes generalizing g with
  | nil => rfl
  | cons n nodes ih => exact (ih _).trans (listeners_add g n t m)

theorem types_addAll (g : FlowGraph) (nodes : List NodeId) (t : TypeId) : (g.addAll nodes t).types = g.types := by
  induction nodes generalizing g with
  | nil => rfl
  | cons n nodes ih => exact (ih _).trans (types_add g n t)

theorem valid_addAll {g : FlowGraph} (h : g.Valid) {nodes : List NodeId} {t : Nat} (ht : t < g.types.size)
    (hn : ∀ n ∈ nodes, n < g.nodes.size) :
    (g.addAll nodes t).Valid ∧ ∀ n ∈ nodes, t ∈ (g.addAll nodes t).held n := by
  induction nodes generalizing g with
  | nil => exact ⟨h, fun _ hmem => nomatch hmem⟩
  | cons n nodes ih =>
    have hgrow := grows_add g n t
    have hself := hn n List.mem_cons_self
    obtain ⟨hvalid, hmem⟩ := ih (h.add hself ht) (Nat.lt_of_lt_of_le ht hgrow.types_size)
      fun m hm => Nat.lt_of_lt_of_le (hn m (List.mem_cons_of_mem _ hm)) hgrow.size
    refine ⟨hvalid, fun m hm => ?_⟩
    rcases List.mem_cons.1 hm with rfl | hm
    · exact (grows_addAll (g.add m t).2 nodes t).mem_held (mem_held_add h hself ht)
    · exact hmem m hm

/-! ## Where types come from -/

/-- What arrives when a type is added is that type. -/
theorem arrived_add {g : FlowGraph} {n t m i : Nat} (hi : i ∈ (g.add n t).2.held m) : i ∈ g.held m ∨ i = t := by
  unfold add at hi
  split at hi
  · rcases arrived_flood g _ hi with hi | ⟨⟨k, hk⟩, _⟩
    · exact Or.inl hi
    · rw [List.mem_singleton] at hk
      cases hk
      exact Or.inr rfl
  · exact Or.inl hi

theorem arrived_addAll {g : FlowGraph} {nodes : List NodeId} {t m i : Nat} (hi : i ∈ (g.addAll nodes t).held m) :
    i ∈ g.held m ∨ i = t := by
  induction nodes generalizing g with
  | nil => exact Or.inl hi
  | cons n nodes ih => exact (ih hi).elim arrived_add Or.inr

/-- What arrives when an edge is added comes from its source. -/
theorem arrived_connect {g : FlowGraph} {a b m i : Nat} (hi : i ∈ (g.connect a b).held m) :
    i ∈ g.held m ∨ i ∈ g.held a := by
  by_cases hj : g.Joinable a b
  · rw [connect_of_joinable hj] at hi
    rcases arrived_flood _ _ hi with hi | ⟨⟨k, hk⟩, _⟩
    · exact Or.inl (held_withEdge g a b m ▸ hi)
    · obtain ⟨t, ht, heq⟩ := List.mem_map.1 (List.mem_reverse.1 hk)
      cases heq
      exact Or.inr ht
  · rw [connect_of_not_joinable hj] at hi
    exact Or.inl hi

/-- Either there is an edge from `a` to `b`, or there is no need of one. -/
def Flows (g : FlowGraph) (a b : NodeId) : Prop := a = b ∨ b ∈ g.out a

theorem flows_connect {g : FlowGraph} {a b : NodeId} (ha : a < g.nodes.size) : (g.connect a b).Flows a b := by
  by_cases hj : g.Joinable a b
  · rw [connect_of_joinable hj]
    refine Or.inr ?_
    rw [out_flood, out_withEdge hj, if_pos rfl]
    exact List.mem_append_right _ List.mem_cons_self
  · rw [connect_of_not_joinable hj]
    refine Classical.byContradiction fun hf => hj ⟨ha, fun heq => hf (Or.inl heq), fun hout => hf (Or.inr hout)⟩

theorem Grows.flows {g g' : FlowGraph} (h : g.Grows g') {a b : NodeId} (hf : g.Flows a b) : g'.Flows a b :=
  hf.imp id h.mem_out

theorem Valid.mem_held_of_flows {g : FlowGraph} (h : g.Valid) {a b t : Nat} (hf : g.Flows a b) (ht : t ∈ g.held a) :
    t ∈ g.held b := by
  rcases hf with rfl | hout
  · exact ht
  · exact h.closed hout ht

theorem Valid.typesAt_of_flows {g : FlowGraph} (h : g.Valid) {a b : NodeId} (hf : g.Flows a b) {t : ExactType}
    (ht : t ∈ g.typesAt a) : t ∈ g.typesAt b := by
  obtain ⟨i, hi, hit⟩ := mem_typesAt.1 ht
  exact mem_typesAt.2 ⟨i, h.mem_held_of_flows hf hi, hit⟩

end FlowGraph

end TypeFlow
