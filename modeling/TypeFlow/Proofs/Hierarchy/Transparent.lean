import TypeFlow.Proofs.Hierarchy.Coherence

/-!
# Remembering cannot be seen

Whatever a hierarchy was asked, given and told to forget, it answers from its
view alone, as a catalog does that remembers nothing. Only a new world and an
eviction change the view: a new world where nothing is remembered since the
last eviction of the name, an eviction at the names that it forgets.
-/

namespace TypeFlow

namespace Hierarchy

inductive Query where
  | get (name : ClassName)
  | resolveMethod (m : QualifiedMethod)
  | resolveImplementation (receiver : ClassName) (s : Signature)
  | resolveField (f : QualifiedField)
  | isSubclass (sub ancestor : ClassName)
  | isAssignable (t : ExactType) (declared : ClassName)

inductive Reply where
  | definition (d? : Option ClassDef)
  | method (m? : Option QualifiedMethod)
  | field (f? : Option QualifiedField)
  | truth (b : Bool)

inductive Op where
  | query (q : Query)
  | setWorld (w : World)
  | evict (stale : List ClassName)

def reply (h : Hierarchy) : Query → Reply × Hierarchy
  | .get name => ((h.get name).map .definition id)
  | .resolveMethod m => ((h.resolveMethod m).map .method id)
  | .resolveImplementation receiver s => ((h.resolveImplementation receiver s).map .method id)
  | .resolveField f => ((h.resolveField f).map .field id)
  | .isSubclass sub ancestor => ((h.isSubclass sub ancestor).map .truth id)
  | .isAssignable t declared => ((h.isAssignable t declared).map .truth id)

def perform (h : Hierarchy) : Op → Hierarchy
  | .query q => (h.reply q).2
  | .setWorld w => h.setWorld w
  | .evict stale => h.evict stale

def after (h : Hierarchy) (ops : List Op) : Hierarchy := ops.foldl perform h

end Hierarchy

def Catalog.reply (c : Catalog) : Hierarchy.Query → Hierarchy.Reply
  | .get name => .definition (c.find? name)
  | .resolveMethod m => .method (c.resolveMethod m)
  | .resolveImplementation receiver s => .method (c.resolveImplementation receiver s)
  | .resolveField f => .field (c.resolveField f)
  | .isSubclass sub ancestor => .truth (c.isSubclass sub ancestor)
  | .isAssignable t declared => .truth (c.isAssignable t declared)

namespace Hierarchy

variable {h : Hierarchy} {n : ClassName}

/-! ## One operation -/

theorem learns_reply (h : Hierarchy) (q : Query) : h.Learns (h.reply q).2 := by
  cases q with
  | get name => exact h.learns_remember name
  | resolveMethod m => exact h.learns_ask _
  | resolveImplementation receiver s => exact h.learns_ask _
  | resolveField f => exact h.learns_ask _
  | isSubclass sub ancestor => exact h.learns_isSubclass sub ancestor
  | isAssignable t declared => exact h.learns_isAssignable t declared

theorem Coherent.reply (hc : h.Coherent) (q : Query) : (h.reply q).1 = h.view.reply q := by
  cases q with
  | get name => rfl
  | resolveMethod m => exact congrArg Reply.method (hc.resolveMethod m).1
  | resolveImplementation receiver s => exact congrArg Reply.method (hc.resolveImplementation receiver s).1
  | resolveField f => exact congrArg Reply.field (hc.resolveField f).1
  | isSubclass sub ancestor => exact congrArg Reply.truth (hc.isSubclass sub ancestor).1
  | isAssignable t declared => exact congrArg Reply.truth (hc.isAssignable t declared).1

theorem Coherent.perform (hc : h.Coherent) (op : Op) : (h.perform op).Coherent := by
  cases op with
  | query q => exact (h.learns_reply q).coherent hc
  | setWorld w => exact coherent_setWorld hc w
  | evict stale => exact coherent_evict hc stale

/-- A remembered name is forgotten by an eviction only. -/
theorem mem_keys_perform (hn : n ∈ h.classes.keys) {op : Op} (hop : ∀ stale, op = .evict stale → n ∉ stale) :
    n ∈ (h.perform op).classes.keys := by
  cases op with
  | query q => exact mem_keys_of_retains (h.learns_reply q).retains hn
  | setWorld w => exact hn
  | evict stale =>
    apply Table.mem_keys_of_find? (v := h.lookup n)
    show (h.evict stale).classes.find? n = _
    rw [find?_evict, if_neg (hop stale rfl)]
    exact find?_of_mem_keys hn

theorem lookup_setWorld_of_mem {w : World} (hn : n ∈ h.classes.keys) : (h.setWorld w).lookup n = h.lookup n :=
  lookup_of_find? (h := h.setWorld w) (find?_of_mem_keys hn)

/-! ## Every sequence of operations -/

theorem Coherent.after (hc : h.Coherent) (ops : List Op) : (h.after ops).Coherent := by
  induction ops generalizing h with
  | nil => exact hc
  | cons op ops ih => exact ih (hc.perform op)

theorem mem_keys_after (hn : n ∈ h.classes.keys) {ops : List Op} (hops : ∀ stale, .evict stale ∈ ops → n ∉ stale) :
    n ∈ (h.after ops).classes.keys := by
  induction ops generalizing h with
  | nil => exact hn
  | cons op ops ih =>
    refine ih (mem_keys_perform hn fun stale hop => ?_) fun stale hmem => hops stale (List.mem_cons_of_mem _ hmem)
    exact hops stale (hop ▸ List.mem_cons_self)

theorem after_append (h : Hierarchy) (ops ops' : List Op) : h.after (ops ++ ops') = (h.after ops).after ops' :=
  List.foldl_append

structure Transparent (w : World) (ops : List Op) (h : Hierarchy) : Prop where
  /-- Every query gets the reply of the view. -/
  replies : ∀ q, (h.reply q).1 = h.view.reply q
  /-- No query changes the view. -/
  queries : ∀ q n, (h.reply q).2.lookup n = h.lookup n
  /-- A new world changes the view only where no class, present or missing, was ever remembered since the last
  eviction of its name. -/
  worlds : ∀ w' n, (h.setWorld w').lookup n ≠ h.lookup n → ∀ before later, ops = before ++ later →
    (∀ stale, .evict stale ∈ later → n ∉ stale) → n ∉ (({ world := w } : Hierarchy).after before).classes.keys
  /-- An eviction resets the view to the world at the stale names and changes it nowhere else. -/
  evictions : ∀ stale n, (h.evict stale).lookup n = if n ∈ stale then h.world.find? n else h.lookup n

theorem transparent_after (w : World) (ops : List Op) :
    Transparent w ops (({ world := w } : Hierarchy).after ops) where
  replies := ((coherent_new w).after ops).reply
  queries q := (learns_reply _ q).lookup
  worlds w' n hchange before later hops hkept hn := by
    refine hchange (lookup_setWorld_of_mem ?_)
    rw [hops, after_append]
    exact mem_keys_after hn hkept
  evictions := lookup_evict _

end Hierarchy

end TypeFlow
