import TypeFlow.Proofs.Analysis.Run

/-!
# What entry points change

Linking an entry point and giving types to its parameters is nothing but steps
that others take as well, and instances of the types that were asked for. What
is special is written down beside the graph: the table of entry points, and a
problem for one that is gone.
-/

namespace TypeFlow

namespace Analysis

/-- Whether `P` is kept by the steps of `w`, by instances of types that are `ok`, and by what is written down about
entry points only. -/
structure Driven (w : Actor) (ok : ExactType → Prop) (P : Analysis → Prop) : Prop where
  moves : ∀ {s s'}, s.Valid → Moves w s [] s' [] → P s → P s'
  instantiate : ∀ {s : Analysis} {n t}, s.Valid → s.Plain n → ok t → P s → P (s.instantiate n t)
  noted : ∀ {s : Analysis} (p : Problems) (e : Table QualifiedMethod (List (Nat × ExactType))) (r : Bool), P s →
    P { s with problems := p, entries := e, reseed := r }

namespace Driven

variable {w : Actor} {ok : ExactType → Prop} {P : Analysis → Prop} {s s' : Analysis} {m : QualifiedMethod}

theorem addEntry (h : Driven w ok P) (hv : s.Valid) (hp : P s) (m : QualifiedMethod) : P (s.addEntry m).2 := by
  have hlink := (moves_linkMethod (w := w) hv [] m).1
  have hlinked := h.moves hv hlink hp
  cases hid : (s.linkMethod m).1 with
  | none =>
    rw [addEntry_of_unresolved hid]
    exact hlinked
  | some id =>
    rw [addEntry_of_linked hid]
    have hvalid := hlink.valid hv
    exact h.noted _ _ _ (h.moves hvalid (moves_initializeOwner hvalid id []) hlinked)

theorem seedParam (h : Driven w ok P) (hv : s.Valid) (hp : P s) {index : Nat} {t : ExactType} (ht : ok t)
    (hs : s.seedParam m index t = .ok s') : P s' := by
  obtain ⟨r, n, hr, hn, rfl⟩ := seedParam_eq_ok_iff.1 hs
  exact h.noted _ _ _ (h.instantiate hv (hv.methods.param_plain hr hn) ht hp)

theorem reseedParam (h : Driven w ok P) (hv : s.Valid) (hp : P s) (m : QualifiedMethod) {seed : Nat × ExactType}
    (ht : ok seed.2) : P (s.reseedParam m seed) := by
  unfold Analysis.reseedParam
  split
  · next hok => exact h.seedParam hv hp ht hok
  · exact h.noted _ _ _ hp

theorem reseedParams (h : Driven w ok P) (hv : s.Valid) (hp : P s) (m : QualifiedMethod)
    {seeds : List (Nat × ExactType)} (hok : ∀ seed ∈ seeds, ok seed.2) :
    P (seeds.foldl (Analysis.reseedParam m) s) := by
  induction seeds generalizing s with
  | nil => exact hp
  | cons seed seeds ih =>
    have hfirst := h.reseedParam hv hp m (hok seed List.mem_cons_self)
    exact ih ((moves_reseedParam hv m seed []).valid hv) hfirst fun seed hseed =>
      hok seed (List.mem_cons_of_mem _ hseed)

theorem reseedEntry (h : Driven w ok P) (hv : s.Valid) (hp : P s) (m : QualifiedMethod)
    {seeds : List (Nat × ExactType)} (hok : ∀ seed ∈ seeds, ok seed.2) : P (s.reseedEntry m seeds) := by
  have hadded := h.addEntry hv hp m
  have hvalid := (moves_addEntry hv m []).valid hv
  cases hadd : s.addEntry m with
  | mk result t =>
    rw [hadd] at hadded hvalid
    cases result with
    | error e =>
      rw [reseedEntry_of_error hadd]
      exact h.noted (s := t) _ _ _ hadded
    | ok id =>
      rw [reseedEntry_of_ok hadd]
      exact h.reseedParams hvalid hadded m hok

theorem foldl_reseedEntry (h : Driven w ok P) (hv : s.Valid) (hp : P s)
    {l : List (QualifiedMethod × List (Nat × ExactType))} (hok : ∀ e ∈ l, ∀ seed ∈ e.2, ok seed.2) :
    P (l.foldl (fun s e => s.reseedEntry e.1 e.2) s) := by
  induction l generalizing s with
  | nil => exact hp
  | cons e l ih =>
    have hfirst := h.reseedEntry hv hp e.1 (hok e List.mem_cons_self)
    exact ih ((moves_reseedEntry hv e.1 e.2 []).valid hv) hfirst fun e he => hok e (List.mem_cons_of_mem _ he)

theorem reseedEntries (h : Driven w ok P) (hv : s.Valid) (hp : P s)
    (hok : ∀ e ∈ s.entries.entries, ∀ seed ∈ e.2, ok seed.2) : P s.reseedEntries := by
  unfold Analysis.reseedEntries
  split
  · exact h.foldl_reseedEntry ((moves_takeEntries s []).valid hv) (h.noted _ _ _ hp) hok
  · exact hp

end Driven

end Analysis

end TypeFlow
