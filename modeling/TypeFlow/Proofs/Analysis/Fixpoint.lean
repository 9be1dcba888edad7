import TypeFlow.Proofs.Analysis.Session

/-!
# What a settled analysis satisfies

When nothing waits, everything that there was a reason for is done. Every
linked body has what it demands, and every dynamic call is connected to what
the types at its feed choose.
-/

namespace TypeFlow

namespace Analysis

variable {s : Analysis}

/-! ## Bodies -/

/-- When nothing waits, the body of a linked method was applied, with all that comes of it. -/
theorem Sound.applied (h : s.Sound) (hs : s.isSettled) {id : Nat} {r : MethodRecord} {body : Body}
    (hr : s.methods[id]? = some r) (hb : r.definition.body? = some body) :
    r.processed = true ∧ s.Obeys s.edges ⟨id, r.locals, r.result, r.thrown⟩ r.params body ∧
      (∀ x ∈ body.namings, s.Follows x) ∧ ∀ i ∈ body.instrs, s.Leaves i := by
  have howes : s.Owes (.body id) := (Array.getElem?_eq_some_iff.1 hr).1
  obtain ⟨r', hr', hp, ho⟩ := h.covered.done hs howes
  obtain rfl : r = r' := Option.some.inj (hr.symm.trans hr')
  exact ⟨hp, ho body hb⟩

theorem Sound.obeys (h : s.Sound) (hs : s.isSettled) {id : Nat} {r : MethodRecord} {body : Body}
    (hr : s.methods[id]? = some r) (hb : r.definition.body? = some body) :
    r.processed = true ∧ s.Obeys s.contents ⟨id, r.locals, r.result, r.thrown⟩ r.params body := by
  obtain ⟨hp, hobeys, -⟩ := h.applied hs hr hb
  exact ⟨hp, hobeys.mono (.refl s) (edges_imp_contents h.valid.graph)⟩

/-- When nothing waits, every linked method is processed. -/
theorem Sound.processed (h : s.Sound) (hs : s.isSettled) {m : QualifiedMethod}
    {r : MethodRecord} (hr : s.Linked m r) : r.processed = true := by
  obtain ⟨-, id, hget⟩ := hr
  obtain ⟨r', hr', hp, -⟩ := h.covered.done hs (d := .body id) (Array.getElem?_eq_some_iff.1 hget).1
  obtain rfl := Option.some.inj (hget.symm.trans hr')
  exact hp

/-- After a run every linked method that has a body is processed, and the types at
its nodes are as the body demands. -/
theorem obeys_after_settle (w : World) (settings : Settings) (commands : List Command) {id : MethodId}
    {r : MethodRecord} {body : Body}
    (hr : ((Analysis.new w settings).after commands).settle.methods[id]? = some r)
    (hb : r.definition.body? = some body) :
    r.processed = true ∧ ((Analysis.new w settings).after commands).settle.Obeys
      ((Analysis.new w settings).after commands).settle.contents
        ⟨id, r.locals, r.result, r.thrown⟩ r.params body := by
  have hsound := (sound_new w settings).after commands
  exact hsound.settle.1.obeys (isSettled_settle hsound) hr hb

/-! A class whose entry point makes an instance of it and calls a method on that. -/

def sampleMain : QualifiedMethod := ⟨"A", ⟨"main", [], .void⟩⟩

def sampleRun : QualifiedMethod := ⟨"A", ⟨"run", [], .void⟩⟩

def sampleBody : Body := ⟨1, [⟨[.new 0 "A", .call none (some 0) sampleRun [] (.virtual "A")], []⟩]⟩

def sampleWorld : World :=
  ⟨[⟨"A", none, [], [], [],
    [⟨sampleMain.signature, [.static], some sampleBody⟩, ⟨sampleRun.signature, [], some ⟨0, []⟩⟩]⟩],
    by decide⟩

set_option maxRecDepth 100000 in
theorem body_sampleMain :
    ((((Analysis.new sampleWorld {}).after [.entry sampleMain]).settle.methods[0]?).bind fun r =>
    r.definition.body?) = some sampleBody := by
  decide +kernel

theorem obeys_after_settle_sampleMain :
    ∃ r, ((Analysis.new sampleWorld {}).after [.entry sampleMain]).settle.methods[0]? = some r ∧
      r.definition.body? = some sampleBody ∧ r.processed = true ∧
      ((Analysis.new sampleWorld {}).after [.entry sampleMain]).settle.Obeys
        ((Analysis.new sampleWorld {}).after [.entry sampleMain]).settle.contents ⟨0, r.locals, r.result, r.thrown⟩
        r.params sampleBody := by
  obtain ⟨r, hr, hb⟩ := Option.bind_eq_some_iff.1 body_sampleMain
  exact ⟨r, hr, hb, obeys_after_settle sampleWorld {} [.entry sampleMain] hr hb⟩

/-! ## Selectors -/

theorem Sound.hears_feed (h : s.Sound) (hs : s.isSettled) {key : SelectorKey} {id : Nat}
    {sel : Selector} {n : NodeId}
    (hk : s.selectorKeys.find? key = some id) (hsel : s.selectors[id]? = some sel) (hn : s.feed? key = some n) :
    sel.listener ∈ s.graph.listeners n := by
  cases key with
  | shared declared =>
    have howes : s.Owes (.task (.attach id declared.owner)) := ⟨declared, hk, rfl⟩
    obtain ⟨sel', n', hsel', hn', hl⟩ := h.covered.done hs howes
    obtain rfl : sel = sel' := Option.some.inj (hsel.symm.trans hsel')
    obtain rfl : n = n' := Option.some.inj (hn.symm.trans hn')
    exact hl
  | perSite caller receiver declared =>
    obtain ⟨sel', hsel', hvs⟩ := h.valid.selectors.selector hk
    obtain rfl : sel = sel' := Option.some.inj (hsel.symm.trans hsel')
    obtain ⟨_, r, hr, _, hl⟩ := hvs.hearing
    obtain ⟨r', hr', hlocal⟩ := Option.bind_eq_some_iff.1 hn
    obtain rfl : r = r' := Option.some.inj (hr.symm.trans hr')
    exact hl n hlocal

/-- When nothing waits, the targets of a selector are what the types at its feed choose. -/
theorem Sound.mem_targets_iff (h : s.Sound) (hs : s.isSettled) {key : SelectorKey} {id : Nat} {sel : Selector}
    (hk : s.selectorKeys.find? key = some id) (hsel : s.selectors[id]? = some sel) {m : QualifiedMethod} :
    m ∈ sel.targets ↔ ∃ n, s.feed? key = some n ∧
      ∃ t ∈ s.graph.typesAt n, s.hierarchy.view.pick key.declared key.filter? t = some m := by
  obtain ⟨sel', hsel', hvs⟩ := h.valid.selectors.selector hk
  obtain rfl : sel = sel' := Option.some.inj (hsel.symm.trans hsel')
  constructor
  · intro hm
    obtain ⟨n, i, t, ⟨key', hk', hn⟩, hi, ht, hd⟩ := hvs.targets m hm
    obtain rfl := h.valid.selectors.key hk hk'
    refine ⟨n, hn, t, FlowGraph.mem_typesAt.2 ⟨i, hi, ht⟩, ?_⟩
    rw [← hvs.declared, ← hvs.filter?]
    exact hd.view
  · rintro ⟨n, hn, t, ht, hpick⟩
    obtain ⟨i, hi, hit⟩ := FlowGraph.mem_typesAt.1 ht
    have howes : s.Owes (.notice ⟨sel.listener, i⟩) := ⟨n, h.hears_feed hs hk hsel hn, hi⟩
    obtain ⟨l, t', hl, ht', hserved⟩ := h.covered.done hs howes
    obtain rfl : t = t' := Option.some.inj (hit.symm.trans ht')
    obtain rfl : .selector id = l := Option.some.inj (hvs.listener.symm.trans hl)
    obtain ⟨sel', answer, hsel', hd, hm⟩ := hserved
    obtain rfl : sel = sel' := Option.some.inj (hsel.symm.trans hsel')
    refine hm m (hd.view.symm.trans ?_)
    rw [hvs.declared, hvs.filter?]
    exact hpick

/-- When nothing waits, every target of a selector is linked, processed and
connected to all calls of the selector. -/
theorem Sound.joined (h : s.Sound) (hs : s.isSettled) {id : Nat} {sel : Selector}
    (hsel : s.selectors[id]? = some sel) {m : QualifiedMethod} (hm : m ∈ sel.targets) :
    ∃ r, s.Linked m r ∧ r.processed = true ∧
      ∀ site ∈ sel.sites, ∀ e ∈ callEdges r site, s.contents.flows e.1 e.2 := by
  have hlink : s.Owes (.link m) := ⟨id, sel, hsel, hm⟩
  obtain ⟨r, hr⟩ := h.covered.done hs hlink
  obtain ⟨rfl, k, hk⟩ := hr
  have hbody : s.Owes (.body k) := (Array.getElem?_eq_some_iff.1 hk).1
  obtain ⟨r', hr', hp, _⟩ := h.covered.done hs hbody
  obtain rfl : r = r' := Option.some.inj (hk.symm.trans hr')
  refine ⟨r, ⟨rfl, k, hk⟩, hp, fun site hsite e he => ?_⟩
  have hjoin : s.Owes (.join site r.reference) := ⟨id, sel, hsel, hsite, hm⟩
  obtain ⟨r', ⟨href, k', hk'⟩, hflows⟩ := h.covered.done hs hjoin
  obtain rfl := h.valid.methods.unique hk hk' href.symm
  obtain rfl : r = r' := Option.some.inj (hk.symm.trans hk')
  exact (edges_imp_contents h.valid.graph).flows (hflows e he)

/-! ## Dynamic calls -/

/-- The types that choose what a dynamic call on a local variable may run: those of the declared class when the
analysis is fast, and those of the variable that may be where the class is declared when it is precise. -/
def receiverTypes (s : Analysis) (r : MethodRecord) (receiver : Local) (owner : ClassName) : List ExactType :=
  match s.settings.precision with
  | .fast => ((s.aggregate? (.object owner)).map s.graph.typesAt).getD []
  | .precise =>
    ((r.locals[receiver]?.map s.graph.typesAt).getD []).filter fun t => s.hierarchy.view.isAssignable t owner

def dispatch (s : Analysis) (sig : Signature) (t : ExactType) : Option QualifiedMethod :=
  t.dispatchClass?.bind fun receiver => s.hierarchy.view.resolveImplementation receiver sig

/-- A dynamic call in a settled analysis: its own selector serves it, and its targets are the image of the receiver
types, all of them linked, processed and connected to every call that the selector serves. -/
structure Resolved (s : Analysis) (r : MethodRecord) (receiver : Local)
    (declared : QualifiedMethod) (site : CallSite) (sel : Selector) : Prop where
  site : site ∈ sel.sites
  feed : s.settings.precision = .fast → (s.aggregate? (.object declared.owner)).isSome
  targets : ∀ m, m ∈ sel.targets ↔ ∃ t ∈ s.receiverTypes r receiver declared.owner,
    s.dispatch declared.signature t = some m
  joined : ∀ m ∈ sel.targets, ∃ callee, s.Linked m callee ∧ callee.processed = true ∧
    callee.definition.isImplementation = true ∧
    ∀ site ∈ sel.sites, ∀ e ∈ callEdges callee site, s.contents.flows e.1 e.2

theorem pick_eq_some_iff {c : Catalog} {declared : QualifiedMethod} {filter? : Option ClassName} {t : ExactType}
    {m : QualifiedMethod} : c.pick declared filter? t = some m ↔ filter?.all (c.isAssignable t) = true ∧
      (t.dispatchClass?.bind fun receiver => c.resolveImplementation receiver declared.signature) = some m := by
  unfold Catalog.pick
  by_cases hf : filter?.all (c.isAssignable t) = true
  · rw [if_pos hf]
    exact ⟨fun h => ⟨hf, h⟩, And.right⟩
  · rw [if_neg hf]
    exact ⟨nofun, fun h => absurd h.1 hf⟩

theorem mem_receiverTypes_iff {id : Nat} {r : MethodRecord} (hr : s.methods[id]? = some r) (receiver : Local)
    (declared : QualifiedMethod) (m : QualifiedMethod) :
    (∃ n, s.feed? (s.selectorKey id receiver declared) = some n ∧ ∃ t ∈ s.graph.typesAt n,
      s.hierarchy.view.pick (s.selectorKey id receiver declared).declared
        (s.selectorKey id receiver declared).filter? t = some m) ↔
      ∃ t ∈ s.receiverTypes r receiver declared.owner, s.dispatch declared.signature t = some m := by
  unfold receiverTypes selectorKey dispatch
  cases s.settings.precision with
  | fast =>
    cases hn : s.aggregate? (.object declared.owner) with
    | none => simp [feed?, hn]
    | some n => simp [feed?, hn, SelectorKey.filter?, SelectorKey.declared, pick_eq_some_iff]
  | precise =>
    cases hn : r.locals[receiver]? with
    | none => simp [feed?, hr, hn]
    | some n => simp [feed?, hr, hn, SelectorKey.filter?, SelectorKey.declared, pick_eq_some_iff, and_assoc]

theorem Sound.resolved (h : s.Sound) (hs : s.isSettled) {id : Nat} {r : MethodRecord} (hr : s.methods[id]? = some r)
    {receiver : Local} {declared : QualifiedMethod} {site : CallSite} (hc : site.caller = id)
    (hreg : s.Registered receiver declared site) :
    ∃ k sel, s.selectorKeys.find? (s.selectorKey id receiver declared) = some k ∧ s.selectors[k]? = some sel ∧
      k ∈ r.selectorsAt ⟨receiver, declared.signature⟩ ∧ s.Resolved r receiver declared site sel := by
  subst hc
  obtain ⟨k, sel, r', hkey, hsel, hsite, hr', hk⟩ := hreg
  obtain rfl : r = r' := Option.some.inj (hr.symm.trans hr')
  refine ⟨k, sel, hkey, hsel, hk, hsite, fun hfast => ?_, fun m => ?_, fun m hm => ?_⟩
  · have hshared : s.selectorKey site.caller receiver declared = .shared declared := by
      unfold selectorKey
      rw [hfast]
    rw [hshared] at hkey
    have howes : s.Owes (.task (.attach k declared.owner)) := ⟨declared, hkey, rfl⟩
    obtain ⟨_, n, _, hn, _⟩ := h.covered.done hs howes
    exact Option.isSome_iff_exists.2 ⟨n, hn⟩
  · exact (h.mem_targets_iff hs hkey hsel).trans (mem_receiverTypes_iff hr receiver declared m)
  · obtain ⟨callee, hlinked, hp, hflows⟩ := h.joined hs hsel hm
    obtain ⟨t, _, hdispatch⟩ :=
      (mem_receiverTypes_iff hr receiver declared m).1 ((h.mem_targets_iff hs hkey hsel).1 hm)
    obtain ⟨c, _, himpl⟩ := Option.bind_eq_some_iff.1 hdispatch
    obtain ⟨_, d, f, hd, hf, hfimpl⟩ := Catalog.resolveImplementation_some himpl
    obtain ⟨href, i, hi⟩ := hlinked
    have hrec := h.valid.methods.record hi
    have hdeclaring : s.hierarchy.view.find? m.owner = some callee.declaring :=
      Hierarchy.lookup_of_find? (href ▸ hrec.declaring)
    obtain rfl : d = callee.declaring := Option.some.inj (hd.symm.trans hdeclaring)
    have hdefinition : f = callee.definition := Option.some.inj (hf.symm.trans (href ▸ hrec.definition))
    exact ⟨callee, ⟨href, i, hi⟩, hp, hdefinition ▸ hfimpl, hflows⟩

/-- In a settled analysis every dynamic call of a linked body is resolved exactly. -/
theorem resolved_of_settled (w : World) (settings : Settings) (commands : List Command)
    (hs : ((Analysis.new w settings).after commands).isSettled) {id : MethodId} {r : MethodRecord} {body : Body}
    (hr : ((Analysis.new w settings).after commands).methods[id]? = some r) (hb : r.definition.body? = some body)
    {dst? : Option Local} {receiver : Local} {callee : QualifiedMethod} {args : List Local} {binding : Binding}
    {owner : ClassName} (hi : .call dst? (some receiver) callee args binding ∈ body.instrs)
    (ho : binding.receiver? = some owner) :
    ∃ k sel, ((Analysis.new w settings).after commands).selectorKeys.find?
        (((Analysis.new w settings).after commands).selectorKey id receiver ⟨owner, callee.signature⟩) = some k ∧
      ((Analysis.new w settings).after commands).selectors[k]? = some sel ∧
      k ∈ r.selectorsAt ⟨receiver, callee.signature⟩ ∧
      ((Analysis.new w settings).after commands).Resolved r receiver ⟨owner, callee.signature⟩
        (Frame.site ⟨id, r.locals, r.result, r.thrown⟩ dst? (some receiver) args) sel := by
  have hsound := (sound_new w settings).after commands
  obtain ⟨_, hobeys⟩ := hsound.obeys hs hr hb
  have hdemands : Analysis.CallDemands _ _ callee binding.receiver? (some receiver) _ := hobeys.instrs _ hi
  rw [ho] at hdemands
  exact hsound.resolved hs hr rfl hdemands

set_option maxRecDepth 100000 in
theorem resolved_sampleRun :
    ∃ r sel, ((Analysis.new sampleWorld {}).after [.entry sampleMain, .settle]).methods[0]? = some r ∧
      ((Analysis.new sampleWorld {}).after [.entry sampleMain, .settle]).Resolved r 0 sampleRun
        (Frame.site ⟨0, r.locals, r.result, r.thrown⟩ none (some 0) []) sel := by
  have hs : ((Analysis.new sampleWorld {}).after [.entry sampleMain, .settle]).isSettled = true := by decide +kernel
  obtain ⟨r, hr, hb⟩ := Option.bind_eq_some_iff.1 body_sampleMain
  have hi : .call none (some 0) sampleRun [] (.virtual "A") ∈ sampleBody.instrs := by decide
  obtain ⟨_, sel, _, _, _, hresolved⟩ :=
    resolved_of_settled sampleWorld {} [.entry sampleMain, .settle] hs hr hb hi rfl
  exact ⟨r, sel, hr, hresolved⟩

end Analysis

end TypeFlow
