import TypeFlow.Proofs.FlowGraph.Delivery
import TypeFlow.Proofs.Strict.Basic

/-!
# Strict service

In a valid analysis every lookup finds something. So strict operations give
what the operations of the analysis give, and keep an account of what was
told. Serving notices under the mark is draining the queue.
-/

namespace TypeFlow

open Analysis

namespace Analysis

def noted (s : Analysis) (told : List Notice) : List (String × ExactType) :=
  told.filterMap fun d : Notice =>
    match s.listeners[d.listener]?, s.graph.type? d.type with
    | some (.observer label), some t => some (label, t)
    | _, _ => none

end Analysis

namespace Strict

variable {α β : Type} {b : Bool} {s s' s'' : Analysis} {told news waiting : List Notice}
  {seen : List (String × ExactType)}

/-! ## What was told

What was told and what waits to be told are all the meetings of listeners and
types. From a moment on, at which `told` had been told and `seen` noted, there
were `news` as well, and observers noted them all. -/

structure Kept (told : List Notice) (seen : List (String × ExactType)) (s : Analysis) (news waiting : List Notice) :
    Prop where
  accounts : FlowGraph.Accounts (told ++ news ++ waiting) s.graph
  named : ∀ d ∈ news, ∃ x t, s.listeners[d.listener]? = some x ∧ s.graph.type? d.type = some t
  noted : s.observations = seen ++ s.noted news

namespace Kept

theorem start (h : FlowGraph.Accounts (told ++ waiting) s.graph) : Kept told s.observations s [] waiting where
  accounts := by
    rw [List.append_nil]
    exact h
  named := nofun
  noted := (List.append_nil _).symm

/-- Listeners and types that are there stay what they are, so the news keep their meaning. -/
theorem grow {waiting' : List Notice} (h : Kept told seen s news waiting) (hg : s.graph.Grows s'.graph)
    (hl : Pointwise Eq s.listeners s'.listeners) (ho : s'.observations = s.observations)
    (ha : FlowGraph.Accounts (told ++ news ++ waiting') s'.graph) : Kept told seen s' news waiting' := by
  have hsame : ∀ d ∈ news, s'.listeners[d.listener]? = s.listeners[d.listener]? ∧
      s'.graph.type? d.type = s.graph.type? d.type := by
    intro d hd
    obtain ⟨x, t, hx, ht⟩ := h.named d hd
    obtain ⟨x', hx', rfl⟩ := hl _ x hx
    exact ⟨hx'.trans hx.symm, (hg.type? ht).trans ht.symm⟩
  refine ⟨ha, fun d hd => ?_, ?_⟩
  · rw [(hsame d hd).1, (hsame d hd).2]
    exact h.named d hd
  · have hnoted : s'.noted news = s.noted news := by
      refine List.filterMap_congr fun d hd => ?_
      rw [(hsame d hd).1, (hsame d hd).2]
    rw [ho, hnoted]
    exact h.noted

theorem quiet (h : Kept told seen s news s.graph.pending) (hq : s.Quiet s') :
    Kept told seen s' news s'.graph.pending := by
  refine h.grow hq.graph.grows hq.listeners hq.observations ?_
  rw [hq.graph.pending]
  exact h.accounts.aside hq.graph.held hq.graph.listeners

/-- What is told next, an observer has to note. -/
theorem tell {d : Notice} {x : Listener} {t : ExactType} (h : Kept told seen s news (d :: waiting))
    (hx : s.listeners[d.listener]? = some x) (ht : s.graph.type? d.type = some t) :
    Kept told seen { s with observations := s.observations ++ s.noted [d] } (news ++ [d]) waiting where
  accounts := by
    have haccounts := h.accounts
    rw [List.append_cons] at haccounts
    rw [← List.append_assoc]
    exact haccounts
  named := by
    intro e he
    rcases List.mem_append.1 he with he | he
    · exact h.named e he
    · rw [List.mem_singleton] at he
      subst he
      exact ⟨x, t, hx, ht⟩
  noted := by
    show s.observations ++ s.noted [d] = seen ++ s.noted (news ++ [d])
    have happend : s.noted (news ++ [d]) = s.noted news ++ s.noted [d] := List.filterMap_append
    rw [happend, ← List.append_assoc, h.noted]

end Kept

/-- Whether `x` finds all that it looks up in `s`, gives `a` and `s'`, leaves the mark as it is and keeps the
account of what is told and noted. -/
def Gives (b : Bool) (x : Strict α) (s : Analysis) (a : α) (s' : Analysis) : Prop :=
  ∀ told seen news, Kept told seen s news s.graph.pending →
    ∃ news', x ⟨s, b, told ++ news⟩ = some (a, ⟨s', b, told ++ news'⟩) ∧ Kept told seen s' news' s'.graph.pending

/-! ## Rules -/

theorem bind_eq (x : Strict α) (f : α → Strict β) (y : Session) : (x >>= f) y = (x y).bind fun p => f p.1 p.2 := rfl

theorem Gives.pure (a : α) : Gives b (pure a) s a s := fun _ _ news h => ⟨news, rfl, h⟩

theorem Gives.bind {x : Strict α} {f : α → Strict β} {a : α} {c : β} (hx : Gives b x s a s')
    (hf : Gives b (f a) s' c s'') : Gives b (x >>= f) s c s'' := by
  intro told seen news h
  obtain ⟨news₁, hrun, h₁⟩ := hx told seen news h
  obtain ⟨news₂, hrest, h₂⟩ := hf told seen news₁ h₁
  refine ⟨news₂, ?_, h₂⟩
  rw [bind_eq, hrun]
  exact hrest

theorem gives_look (f : Analysis → α) : Gives b (look f) s (f s) s := fun _ _ news h => ⟨news, rfl, h⟩

theorem gives_find {f : Analysis → Option α} {a : α} (hf : f s = some a) : Gives b (find f) s a s := by
  intro told seen news h
  refine ⟨news, ?_, h⟩
  simp only [find, hf, Option.map_some]

theorem gives_run {f : Analysis → α × Analysis} (hq : s.Quiet (f s).2) : Gives b (run f) s (f s).1 (f s).2 :=
  fun _ _ news h => ⟨news, rfl, h.quiet hq⟩

theorem gives_change {f : Analysis → Analysis} (hq : s.Quiet (f s)) : Gives b (change f) s () (f s) :=
  fun _ _ news h => ⟨news, rfl, h.quiet hq⟩

/-- A change of what neither listeners nor observers see. -/
theorem gives_note {f : Analysis → Analysis} (hg : (f s).graph = s.graph) (hl : (f s).listeners = s.listeners)
    (ho : (f s).observations = s.observations) : Gives b (change f) s () (f s) :=
  gives_change (.aside (hg ▸ .refl _) hl ho)

theorem gives_newNodes (count : Nat) : Gives b (newNodes count) s (s.graph.newNodes count).1
    { s with graph := (s.graph.newNodes count).2 } :=
  gives_run (f := fun s => ((s.graph.newNodes count).1, { s with graph := (s.graph.newNodes count).2 }))
    (.aside (s.graph.quiet_newNodes count) rfl rfl)

theorem gives_onGraph {f : FlowGraph → Option FlowGraph} {g : FlowGraph} (hf : f s.graph = some g)
    (hgrows : s.graph.Grows g)
    (hg : ∀ told, FlowGraph.Accounts (told ++ s.graph.pending) s.graph → FlowGraph.Accounts (told ++ g.pending) g) :
    Gives b (onGraph f) s () { s with graph := g } := by
  intro told seen news h
  refine ⟨news, ?_, h.grow hgrows (.refl (fun _ => rfl) _) rfl (hg _ h.accounts)⟩
  simp only [onGraph, hf, Option.map_some]

/-- One after the other, as long as what each of them needs is kept. -/
theorem gives_forM {x : α → Strict Unit} {f : Analysis → α → Analysis} (I : Analysis → Prop) (l : List α)
    (hstep : ∀ a ∈ l, ∀ {s : Analysis}, I s → Gives b (x a) s () (f s a) ∧ I (f s a)) (hi : I s) :
    Gives b (l.forM x) s () (l.foldl f s) ∧ I (l.foldl f s) := by
  induction l generalizing s with
  | nil => exact ⟨.pure (), hi⟩
  | cons a l ih =>
    obtain ⟨hx, hi₁⟩ := hstep a List.mem_cons_self hi
    obtain ⟨hrest, hi₂⟩ := ih (fun a ha => hstep a (List.mem_cons_of_mem _ ha)) hi₁
    exact ⟨hx.bind hrest, hi₂⟩

/-! ## The graph -/

theorem gives_edge (hv : s.graph.Valid) {n m : Nat} (hn : n < s.graph.nodes.size) (hm : m < s.graph.nodes.size) :
    Gives b (onGraph fun g => g.strictConnect n m) s () { s with graph := s.graph.connect n m } :=
  gives_onGraph (FlowGraph.strictConnect_eq hv hn hm) (s.graph.grows_connect n m) fun _ h => h.connect

theorem gives_attach {n : Nat} (hn : n < s.graph.nodes.size) (l : ListenerId) :
    Gives b (onGraph fun g => g.strictListen n l) s () { s with graph := s.graph.listen n l } :=
  gives_onGraph (FlowGraph.strictListen_eq hn l) s.graph.grows_listen fun _ h => h.listen

theorem gives_add (hv : s.graph.Valid) {n i : Nat} (hn : n < s.graph.nodes.size) (hi : i < s.graph.types.size) :
    Gives b (onGraph fun g => g.strictAdd n i) s () { s with graph := (s.graph.add n i).2 } :=
  gives_onGraph (FlowGraph.strictAdd_eq hv hn hi) (s.graph.grows_add n i) fun _ h => h.add

theorem gives_connectEdges (hv : s.graph.Valid) {edges : List (NodeId × NodeId)}
    (he : ∀ e ∈ edges, e.1 < s.graph.nodes.size ∧ e.2 < s.graph.nodes.size) :
    Gives b (connectEdges edges) s () (s.connectAll edges) := by
  induction edges generalizing s with
  | nil => exact .pure ()
  | cons e edges ih =>
    obtain ⟨hn, hm⟩ := he e List.mem_cons_self
    refine (gives_edge hv hn hm).bind (ih (hv.connect hm) fun e' he' => ?_)
    have hsize := (FlowGraph.grows_connect s.graph e.1 e.2).size
    obtain ⟨hn', hm'⟩ := he e' (List.mem_cons_of_mem _ he')
    exact ⟨Nat.lt_of_lt_of_le hn' hsize, Nat.lt_of_lt_of_le hm' hsize⟩

theorem gives_addAll (hv : s.graph.Valid) {i : Nat} (hi : i < s.graph.types.size) {nodes : List NodeId}
    (hn : ∀ n ∈ nodes, n < s.graph.nodes.size) :
    Gives b (nodes.forM fun n => onGraph fun g => g.strictAdd n i) s ()
      { s with graph := s.graph.addAll nodes i } := by
  induction nodes generalizing s with
  | nil => exact .pure ()
  | cons n nodes ih =>
    have hn₁ := hn n List.mem_cons_self
    have hgrows := FlowGraph.grows_add s.graph n i
    refine (gives_add hv hn₁ hi).bind (ih (hv.add hn₁ hi) (Nat.lt_of_lt_of_le hi hgrows.types_size) fun m hm => ?_)
    exact Nat.lt_of_lt_of_le (hn m (List.mem_cons_of_mem _ hm)) hgrows.size

/-! ## Calls -/

theorem holder?_eq {r : MethodRecord} (hr : s.RecordValid r) : r.holder? = some r.definition := by
  obtain ⟨i, hplace, hdef⟩ := hr.place
  simp only [MethodRecord.holder?, hplace, Option.bind_eq_bind, Option.bind_some, hdef]

theorem callEdges?_eq {r : MethodRecord} (hr : s.RecordValid r) (site : CallSite) :
    callEdges? r site = some (callEdges r site) := by
  have harity := hr.arity
  unfold callEdges? callEdges
  cases hp : r.params with
  | nil => simp [hp] at harity
  | cons param params =>
    cases hstatic : r.definition.isStatic <;> cases hrec : site.receiver? <;>
      simp [holder?_eq hr, hstatic]

theorem gives_connectCall (hv : s.Valid) {callee : Nat} {r : MethodRecord} (hr : s.methods[callee]? = some r)
    {site : CallSite} (hn : ∀ n ∈ site.nodes, s.Plain n) {x : Strict Unit}
    (hx : Gives b x (s.connectCall site callee) () s') : Gives b (connectCall x site callee) s () s' := by
  have heq : s.connectCall site callee = s.connectAll (callEdges r site) := by
    unfold Analysis.connectCall
    rw [hr]
  have hvr := hv.methods.record hr
  rw [heq] at hx
  rw [connectCall]
  refine (gives_find hr).bind ((gives_find (callEdges?_eq hvr site)).bind ?_)
  refine (gives_connectEdges hv.graph fun e he => ?_).bind hx
  obtain ⟨ha, hb⟩ := callEdges_plain hvr hn e he
  exact ⟨ha.1, hb.1⟩

/-! ## Serving -/

theorem gives_leave : Gives true leave s () s := fun _ _ news h => ⟨news, rfl, h⟩

theorem gives_connectCalls (hv : s.Valid) {callee : Nat} {r : MethodRecord} (hr : s.methods[callee]? = some r)
    {sites : List CallSite} (hn : ∀ site ∈ sites, ∀ n ∈ site.nodes, s.Plain n) :
    Gives true (sites.forM fun site => connectCall leave site callee) s ()
      (sites.foldl (fun s site => s.connectCall site callee) s) := by
  refine (gives_forM (fun s' => Moves .client s [] s' []) sites (fun site hsite {s'} hmoves => ?_) (.refl s [])).1
  obtain ⟨r', hr', -⟩ := hmoves.grows.methods _ r hr
  have hn' : ∀ n ∈ site.nodes, s'.Plain n := fun n hmem => hmoves.grows.plain (hn site hsite n hmem)
  have hv' := hmoves.valid hv
  exact ⟨gives_connectCall hv' hr' hn' gives_leave, hmoves.trans (moves_connectCall hv' hr' hn' []).1⟩

theorem gives_serve (hv : s.Valid) {id : SelectorId} {n i : Nat} {t : ExactType} (hf : s.Feeds id n)
    (hi : i ∈ s.graph.held n) (ht : s.graph.type? i = some t) : Gives true (serve id t) s () (s.serve id t) := by
  have ⟨key, hk, _⟩ := hf
  obtain ⟨sel, hs, hvs⟩ := hv.selectors.selector hk
  obtain ⟨h, hpick, -⟩ := pick_spec hv.hierarchy sel t
  have hs₁ : (s.pick sel t).2.selectors[id]? = some sel := by
    rw [hpick]
    exact hs
  have hquiet : s.Quiet (s.pick sel t).2 := by
    rw [hpick]
    exact .aside (.refl _) rfl rfl
  rw [serve]
  refine (gives_find hs).bind ((gives_run (f := fun s => s.pick sel t) hquiet).bind ?_)
  cases hp : (s.pick sel t).1 with
  | none =>
    rw [serve_of_missing hs hp]
    exact .pure ()
  | some m =>
    refine (gives_find hs₁).bind ?_
    by_cases hm : m ∈ sel.targets
    · rw [serve_of_mem hs hp hm, if_pos hm]
      exact .pure ()
    · rw [if_neg hm]
      obtain ⟨htarget, hdec⟩ := moves_withTarget (w := .client) hv [] hs hf hi ht hp hm
      have hv₁ := htarget.valid hv
      obtain ⟨callee, r, hc, hr, -⟩ := linkMethod_of_self hv₁ fun c hfits => resolveMethod_of_pick (hdec c hfits)
      have hlink := (moves_linkMethod (w := .client) hv₁
        (.link m :: sel.sites.map (fun site => .join site m) ++ []) m).1
      -- the record of the selector is read a third time, with the new target
      have hs₂ : (((s.pick sel t).2.withTarget id m).linkMethod m).2.selectors[id]?
          = some { sel with targets := sel.targets.insert m } := by
        rw [selectors_linkMethod]
        exact getElem?_modify_self hs₁ _
      rw [serve_of_new hs hp hm hc]
      refine (gives_note (f := fun s => s.withTarget id m) rfl rfl rfl).bind ?_
      refine (gives_run (f := fun s => s.linkMethod m) (quiet_linkMethod _ m)).bind ?_
      rw [hc]
      refine (gives_find hs₂).bind ?_
      exact gives_connectCalls (hlink.valid hv₁) hr fun site hsite n hn =>
        (htarget.trans hlink).grows.plain (hvs.sites site hsite n hn)

theorem gives_notify (hv : s.Valid) {d : Notice} (ho : s.Owes (.notice d)) {x : Listener}
    (hx : s.listeners[d.listener]? = some x) (hobserver : ∀ label, x ≠ .observer label) :
    Gives true (notify x d.type) s () (s.deliver d) := by
  obtain ⟨n, hl, hi⟩ := ho
  obtain ⟨x', hx', hhears⟩ := hv.listeners.hears hl
  obtain rfl : x = x' := Option.some.inj (hx.symm.trans hx')
  obtain ⟨t, ht⟩ := FlowGraph.exists_type? (hv.graph.held hi)
  rw [notify]
  refine (gives_find ht).bind ?_
  unfold Analysis.deliver
  cases x with
  | observer label => exact absurd rfl (hobserver label)
  | selector id =>
    simp only [hx, ht]
    exact gives_serve hv hhears hi ht
  | aggregation =>
    simp only [hx, ht]
    obtain ⟨hmoves, hagg⟩ := moves_aggregate (w := .client) (s := s) (t := t.toDecl) (Or.inl rfl) []
    have hv₁ := hmoves.valid hv
    refine (gives_run (f := fun s => s.aggregate t.toDecl) (quiet_aggregate s t.toDecl)).bind ?_
    exact gives_add hv₁.graph (hv₁.aggregate?_lt hagg) (hv₁.graph.held (hmoves.grows.graph.mem_held hi))

theorem noted_singleton {d : Notice} {x : Listener} {t : ExactType} (hx : s.listeners[d.listener]? = some x)
    (ht : s.graph.type? d.type = some t) :
    s.noted [d] = match x with
      | .observer label => [(label, t)]
      | _ => [] := by
  unfold noted
  cases x <;> simp [hx, ht]

theorem deliver_gives (hv : s.Valid) {d : Notice} (ho : s.Owes (.notice d))
    (h : Kept told seen s news (d :: s.graph.pending)) :
    ∃ news', deliver d ⟨s, true, told ++ news⟩ = some ((), ⟨s.deliver d, true, told ++ news'⟩) ∧
      Kept told seen (s.deliver d) news' (s.deliver d).graph.pending := by
  have ⟨n, hl, hi⟩ := ho
  obtain ⟨x, hx, -⟩ := hv.listeners.hears hl
  obtain ⟨t, ht⟩ := FlowGraph.exists_type? (hv.graph.held hi)
  have htell := h.tell hx ht
  rw [noted_singleton hx ht] at htell
  rw [deliver, bind_eq, find, hx]
  show ∃ news', notify x d.type ⟨s, true, told ++ news ++ [d]⟩ = _ ∧ _
  rw [List.append_assoc]
  by_cases hobserver : ∃ label, x = .observer label
  · obtain ⟨label, rfl⟩ := hobserver
    have hdeliver : s.deliver d = { s with observations := s.observations ++ [(label, t)] } := by
      unfold Analysis.deliver
      simp only [hx, ht]
    rw [hdeliver]
    refine ⟨news ++ [d], ?_, htell⟩
    rw [notify, bind_eq, find, ht]
    rfl
  · have hquiet : Kept told seen s (news ++ [d]) s.graph.pending := by
      cases x with
      | observer label => exact absurd ⟨label, rfl⟩ hobserver
      | _ =>
        simp only [List.append_nil] at htell
        exact htell
    exact gives_notify hv ho hx (fun label he => hobserver ⟨label, he⟩) told seen _ hquiet

theorem gives_serveAll (hv : s.Valid) {turns : Nat} (hturns : s.graph.backlog < turns) :
    Gives true (serveAll turns) s () s.drain := by
  intro told seen news h
  fun_induction drain s generalizing turns news with
  | case1 s hnone =>
    obtain ⟨turns, rfl⟩ := Nat.exists_eq_add_one_of_ne_zero (Nat.ne_zero_of_lt hturns)
    refine ⟨news, ?_, h⟩
    rw [serveAll, bind_eq]
    simp only [takeNotice, run, hnone]
    rfl
  | case2 s d g hsome ih =>
    obtain ⟨turns, rfl⟩ := Nat.exists_eq_add_one_of_ne_zero (Nat.ne_zero_of_lt hturns)
    have htake : Moves .client s [] { s with graph := g } [.notice d] := (Step.takeNotice hsome).moves
    have hv₁ := htake.valid hv
    have ho := owes_of_takeNotice hv hsome
    have htaken : Kept told seen { s with graph := g } news (d :: g.pending) :=
      h.grow htake.grows.graph (.refl (fun _ => rfl) _) rfl (h.accounts.take hsome)
    -- a notice takes one from the backlog, and serving it adds none
    have hbacklog : ({ s with graph := g }.deliver d).graph.backlog < turns := by
      have htaken := FlowGraph.backlog_takeNotice hsome
      rw [backlog_deliver]
      show g.backlog < turns
      omega
    obtain ⟨news₁, hrun, h₁⟩ := deliver_gives hv₁ ho htaken
    obtain ⟨news₂, hrest, h₂⟩ := ih ((moves_deliver (w := .client) hv₁ [] ho).1.valid hv₁) hbacklog news₁ h₁
    refine ⟨news₂, ?_, h₂⟩
    rw [serveAll, bind_eq]
    simp only [takeNotice, run, hsome, Option.bind_some]
    rw [bind_eq, hrun]
    exact hrest

theorem gives_dispatch (hv : s.Valid) : Gives false dispatch s () s.drain := by
  intro told seen news h
  obtain ⟨news', hrun, h'⟩ := gives_serveAll hv (Nat.lt_succ_self _) told seen news h
  refine ⟨news', ?_, h'⟩
  rw [dispatch]
  show (serveAll (s.graph.backlog + 1) ⟨s, true, told ++ news⟩).bind _ = _
  rw [hrun]
  rfl

end Strict

end TypeFlow
