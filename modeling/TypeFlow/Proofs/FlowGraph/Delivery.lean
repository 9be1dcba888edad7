import Mathlib.Data.Finset.Card
import TypeFlow.Proofs.FlowGraph.Exact

/-!
# Every meeting is announced once

Notices are queued in two places, by a flood and by a listener that registers,
and any of them may be taken before the next operation. Taken and queued
together they always list each meeting of a listener and a type once for every
node where it happens, and for a listener at one node in the order of that
node's types.
-/

namespace TypeFlow

namespace FlowGraph

def takes (g : FlowGraph) : Op → List Notice
  | .takeNotice =>
    match g.takeNotice with
    | some (d, _) => [d]
    | none => []
  | _ => []

def taken (g : FlowGraph) : List Op → List Notice
  | [] => []
  | op :: ops => g.takes op ++ (g.perform op).taken ops

/-- The nodes at which a listener meets a type. -/
def meetings (g : FlowGraph) (l : ListenerId) (t : TypeId) : Finset NodeId :=
  (Finset.range g.nodeCount).filter fun n => l ∈ g.listeners n ∧ t ∈ g.held n

def heard (told : List Notice) (l : ListenerId) : List TypeId :=
  (told.filter fun d => d.listener = l).map Notice.type

variable {g g' : FlowGraph} {told news : List Notice} {l : ListenerId} {n m : NodeId} {t : TypeId}

/-! ## Reading off -/

theorem mem_meetings : n ∈ g.meetings l t ↔ l ∈ g.listeners n ∧ t ∈ g.held n := by
  rw [meetings, Finset.mem_filter, Finset.mem_range]
  exact and_iff_right_of_imp fun h => lt_size_of_mem_listeners h.1

theorem nodup_listeners (g : FlowGraph) (n : NodeId) : (g.listeners n).Nodup := by
  unfold listeners
  split
  · exact OrderedSet.nodup _
  · exact List.nodup_nil

theorem heard_append (told news : List Notice) (l : ListenerId) :
    heard (told ++ news) l = heard told l ++ heard news l := by
  simp only [heard, List.filter_append, List.map_append]

theorem heard_of_type {ls : List ListenerId} (hls : ls.Nodup) :
    heard (ls.map fun l => ⟨l, t⟩) l = if l ∈ ls then [t] else [] := by
  have hmap : heard (ls.map fun l => ⟨l, t⟩) l = (ls.filter (· = l)).map fun _ => t := by
    simp [heard, List.filter_map, Function.comp_def]
  rw [hmap, List.filter_eq, hls.count]
  split <;> rfl

theorem heard_of_listener (k : ListenerId) (ts : List TypeId) :
    heard (ts.map fun t => ⟨k, t⟩) l = if k = l then ts else [] := by
  unfold heard
  by_cases hk : k = l
  · rw [if_pos hk, List.filter_eq_self.2 (by simp [hk]), List.map_map]
    exact List.map_id ts
  · simp [hk]

/-! ## The account

What `told` lists is kept equal to what the nodes say. A step adds meetings at
one node only, and announces just those. -/

structure Accounts (told : List Notice) (g : FlowGraph) : Prop where
  count : ∀ l t, told.count ⟨l, t⟩ = (g.meetings l t).card
  order : ∀ l n, (∀ m, l ∈ g.listeners m → m = n) → heard told l = if l ∈ g.listeners n then g.held n else []

namespace Accounts

theorem empty : Accounts [] {} where
  count _ _ := rfl
  order _ _ _ := rfl

theorem aside (h : Accounts told g) (hheld : ∀ n, g'.held n = g.held n)
    (hlisteners : ∀ n, g'.listeners n = g.listeners n) : Accounts told g' where
  count l t := by
    have hsame : g'.meetings l t = g.meetings l t := by
      ext n
      rw [mem_meetings, mem_meetings, hheld, hlisteners]
    rw [hsame, h.count]
  order l n hn := by
    rw [hheld, hlisteners]
    exact h.order l n fun m hm => hn m (hlisteners m ▸ hm)

theorem count_append (h : Accounts told g) (hnews : news.Nodup)
    (hmeet : ∀ l t m, l ∈ g'.listeners m ∧ t ∈ g'.held m ↔
      (l ∈ g.listeners m ∧ t ∈ g.held m) ∨ m = n ∧ ⟨l, t⟩ ∈ news)
    (hfresh : ∀ d ∈ news, ¬ (d.listener ∈ g.listeners n ∧ d.type ∈ g.held n)) (l : ListenerId) (t : TypeId) :
    (told ++ news).count ⟨l, t⟩ = (g'.meetings l t).card := by
  rw [List.count_append, h.count, hnews.count]
  by_cases hd : ⟨l, t⟩ ∈ news
  · have hinsert : g'.meetings l t = insert n (g.meetings l t) := by
      ext m
      rw [Finset.mem_insert, mem_meetings, mem_meetings, hmeet, and_iff_left hd, or_comm]
    rw [if_pos hd, hinsert, Finset.card_insert_of_notMem]
    exact fun hmem => hfresh _ hd (mem_meetings.1 hmem)
  · have hsame : g'.meetings l t = g.meetings l t := by
      ext m
      rw [mem_meetings, mem_meetings, hmeet]
      exact or_iff_left fun hm => hd hm.2
    rw [if_neg hd, hsame, Nat.add_zero]

theorem put (h : Accounts told g) (hlack : g.lacks n t) :
    Accounts (told ++ (g.listeners n).map fun l => ⟨l, t⟩) (g.put n t) where
  count := by
    refine h.count_append (n := n) ?_ (fun l i m => ?_) fun d hd hmet => ?_
    · refine (nodup_listeners g n).map fun a b hab => ?_
      cases hab
      rfl
    · rw [listeners_put, mem_held_put hlack, List.mem_map]
      grind
    · obtain ⟨l, -, rfl⟩ := List.mem_map.1 hd
      exact (lacks_iff.1 hlack).2.2 hmet.2
  order l m hm := by
    have honly : ∀ k, l ∈ g.listeners k → k = m := fun k hk => hm k ((listeners_put g n t k).symm ▸ hk)
    rw [heard_append, h.order l m honly, heard_of_type (nodup_listeners g n), listeners_put, held_put hlack]
    by_cases hl : l ∈ g.listeners n
    · have hnm : n = m := honly n hl
      subst hnm
      simp [hl]
    · by_cases hmn : m = n
      · subst hmn
        simp [hl]
      · simp [hl, hmn]

theorem flood {work : List (Nat × Nat)} (h : Accounts (told ++ g.pending) g) :
    Accounts (told ++ (g.flood work).pending) (g.flood work) := by
  fun_induction FlowGraph.flood g work with
  | case1 => exact h
  | case2 g n t work hlack ih =>
    apply ih
    have hput := h.put hlack
    rw [List.append_assoc] at hput
    exact hput
  | case3 g n t work hlack ih => exact ih h

theorem add (h : Accounts (told ++ g.pending) g) : Accounts (told ++ (g.add n t).2.pending) (g.add n t).2 := by
  unfold FlowGraph.add
  split
  · exact h.flood
  · exact h

theorem connect (h : Accounts (told ++ g.pending) g) :
    Accounts (told ++ (g.connect n m).pending) (g.connect n m) := by
  by_cases hj : g.Joinable n m
  · rw [connect_of_joinable hj]
    exact flood (h.aside (held_withEdge g n m) (listeners_withEdge g n m))
  · rw [connect_of_not_joinable hj]
    exact h

theorem listen (h : Accounts (told ++ g.pending) g) : Accounts (told ++ (g.listen n l).pending) (g.listen n l) := by
  by_cases ho : g.Open n l
  · have hpending : (g.listen n l).pending = g.pending ++ (g.held n).map fun t => ⟨l, t⟩ := by
      rw [listen_of_open ho]
    rw [hpending, ← List.append_assoc]
    constructor
    · refine h.count_append (n := n) ?_ (fun k i m => ?_) fun d hd hmet => ?_
      · refine (nodup_held g n).map fun a b hab => ?_
        cases hab
        rfl
      · rw [held_listen, mem_listeners_listen ho.1, List.mem_map]
        grind
      · obtain ⟨i, -, rfl⟩ := List.mem_map.1 hd
        exact ho.2 hmet.1
    · intro k m hm
      have hbefore : ∀ j, k ∈ g.listeners j → j = m := fun j hj => hm j ((mem_listeners_listen ho.1).2 (Or.inl hj))
      rw [heard_append, h.order k m hbefore, heard_of_listener, held_listen]
      by_cases hk : l = k
      · subst hk
        have hnm : n = m := hm n ((mem_listeners_listen ho.1).2 (Or.inr ⟨rfl, rfl⟩))
        subst hnm
        simp [ho.2, mem_listeners_listen ho.1]
      · simp [mem_listeners_listen ho.1, hk, Ne.symm hk]
  · rw [listen_of_not_open ho]
    exact h

/-- A notice that is taken out of the queue is still to be told. -/
theorem take {d : Notice} (h : Accounts (told ++ g.pending) g) (hd : g.takeNotice = some (d, g')) :
    Accounts (told ++ d :: g'.pending) g' := by
  obtain ⟨rest, hp, rfl⟩ := takeNotice_some hd
  rw [hp] at h
  exact h.aside (fun _ => rfl) fun _ => rfl

theorem takeNotice (h : Accounts (told ++ g.pending) g) :
    Accounts (told ++ g.takes .takeNotice ++ (g.perform .takeNotice).pending) (g.perform .takeNotice) := by
  simp only [takes, FlowGraph.perform]
  cases hd : g.takeNotice with
  | none => simpa only [List.append_nil] using h
  | some taken =>
    obtain ⟨d, g'⟩ := taken
    rw [List.append_assoc]
    exact h.take hd

theorem perform (h : Accounts (told ++ g.pending) g) (op : Op) :
    Accounts (told ++ g.takes op ++ (g.perform op).pending) (g.perform op) := by
  cases op with
  | takeNotice => exact h.takeNotice
  | newNode =>
    simp only [takes, List.append_nil]
    exact h.aside (held_newNode g) (listeners_newNode g)
  | intern t =>
    simp only [takes, List.append_nil, FlowGraph.perform, pending_intern]
    exact h.aside (held_intern g t) (listeners_intern g t)
  | add n t =>
    simp only [takes, List.append_nil]
    exact h.add
  | connect a b =>
    simp only [takes, List.append_nil]
    exact h.connect
  | listen n l =>
    simp only [takes, List.append_nil]
    exact h.listen

theorem after {ops : List Op} (h : Accounts (told ++ g.pending) g) :
    Accounts (told ++ g.taken ops ++ (g.after ops).pending) (g.after ops) := by
  induction ops generalizing told g with
  | nil =>
    rw [taken, List.append_nil]
    exact h
  | cons op ops ih =>
    rw [taken, ← List.append_assoc]
    exact ih (h.perform op)

end Accounts

/-- After any operations on a new graph, what a listener was told and is still to be told is one notice for each
node where it meets a type, and in order what its node holds if it is at one node only. -/
theorem told_once (ops : List Op) (l : ListenerId) :
    (∀ t, (taken {} ops).count ⟨l, t⟩ + (({} : FlowGraph).after ops).pending.count ⟨l, t⟩ =
      ((({} : FlowGraph).after ops).meetings l t).card) ∧
    ∀ n, (∀ m, l ∈ (({} : FlowGraph).after ops).listeners m ↔ m = n) →
      heard (taken {} ops ++ (({} : FlowGraph).after ops).pending) l = (({} : FlowGraph).after ops).held n := by
  have hnew : Accounts ([] ++ ({} : FlowGraph).pending) {} := .empty
  have haccounts : Accounts (taken {} ops ++ (({} : FlowGraph).after ops).pending) (({} : FlowGraph).after ops) :=
    hnew.after
  constructor
  · intro t
    rw [← List.count_append, haccounts.count]
  · intro n hn
    rw [haccounts.order l n fun m => (hn m).1, if_pos ((hn n).2 rfl)]

/-! Listener 7 registers before its type arrives, listener 8 after, and the notices are taken at different times. -/

def sampleTold : List Op := sampleOps ++ [.listen 0 8, .intern (.ofClass "B"), .add 2 1, .takeNotice]

theorem told_once_sampleTold : (∀ m, 8 ∈ (({} : FlowGraph).after sampleTold).listeners m ↔ m = 0) ∧
    heard (taken {} sampleTold ++ (({} : FlowGraph).after sampleTold).pending) 8 =
      (({} : FlowGraph).after sampleTold).held 0 ∧
    (({} : FlowGraph).after sampleTold).held 0 = [0, 1] := by
  have hat : ∀ m, 8 ∈ (({} : FlowGraph).after sampleTold).listeners m ↔ m = 0 := by
    have hthree : (({} : FlowGraph).after sampleTold).nodes.size = 3 := by decide +kernel
    have hnodes : ∀ m < 3, 8 ∈ (({} : FlowGraph).after sampleTold).listeners m → m = 0 := by decide +kernel
    intro m
    constructor
    · intro hm
      exact hnodes m (hthree ▸ lt_size_of_mem_listeners hm) hm
    · rintro rfl
      decide +kernel
  exact ⟨hat, (told_once sampleTold 8).2 0 hat, by decide +kernel⟩

end FlowGraph

end TypeFlow
