import TypeFlow.Sum
import TypeFlow.World

/-!
# Catalogs

A catalog gives classes by name. It knows finitely many of them, which bounds
every walk along supertypes, whatever cycles or missing classes there are.

Two walks are used: the chain of superclasses of a class, and the traversal
of the names that a relation such as "direct supertype" leads to, either
nearest first (`Discipline.queue`) or deepest first (`Discipline.stack`).
-/

namespace TypeFlow

structure Catalog where
  find? : ClassName → Option ClassDef
  /-- All names at which there is a class, and perhaps others. -/
  names : List ClassName
  mem_names : ∀ {n c}, find? n = some c → n ∈ names

def World.catalog (w : World) : Catalog := ⟨w.find?, w.names, World.mem_names_of_find?⟩

/-- Which of the names that wait is taken next: the one that waited longest,
or the one that was found last. -/
inductive Discipline where
  | queue
  | stack
  deriving DecidableEq, Repr

/-- Lets newly found names wait; the head of the result is taken next. -/
def Discipline.add : Discipline → List ClassName → List ClassName → List ClassName
  | queue, waiting, found => waiting ++ found
  | stack, waiting, found => found.reverse ++ waiting

theorem Discipline.length_add (d : Discipline) (waiting found : List ClassName) :
    (d.add waiting found).length = waiting.length + found.length := by
  cases d <;> simp [add, Nat.add_comm]

namespace Catalog

/-- Known names that are not in `seen`. -/
def unseen (c : Catalog) (seen : List ClassName) : List ClassName :=
  c.names.filter fun n => n ∉ seen

theorem length_unseen_cons_lt {c : Catalog} {seen : List ClassName} {n : ClassName} {d : ClassDef}
    (hn : n ∉ seen) (hd : c.find? n = some d) :
    (c.unseen (n :: seen)).length < (c.unseen seen).length := by
  have := sumOver_filter_cons_le (fun _ => 1) hn (c.mem_names hd)
  simp only [sumOver_one] at this
  exact this

/-- The names from a class up its superclasses, to the first one that has no
superclass, is not known or, with its successors, would repeat. -/
def superclasses (c : Catalog) (seen : List ClassName) (name : ClassName) : List ClassName :=
  if _hn : name ∈ seen then []
  else
    match _hd : c.find? name with
    | none => [name]
    | some d =>
      match d.superclass? with
      | none => [name]
      | some parent => name :: c.superclasses (name :: seen) parent
termination_by (c.unseen seen).length
decreasing_by exact length_unseen_cons_lt _hn _hd

/-- The names that `next` leads to from a name; none from an unknown one. -/
def successors (c : Catalog) (next : ClassDef → List ClassName) (name : ClassName) : List ClassName :=
  match c.find? name with
  | some d => next d
  | none => []

/-- The names met on the way from `work` along `next`, each once and none of
`seen`, in the order in which they are met. -/
def traverse (c : Catalog) (d : Discipline) (next : ClassDef → List ClassName)
    (seen work : List ClassName) : List ClassName :=
  match work with
  | [] => []
  | n :: work =>
    if _hn : n ∈ seen then c.traverse d next seen work
    else n :: c.traverse d next (n :: seen) (d.add work (c.successors next n))
termination_by work.length + sumOver (fun n => (c.successors next n).length) (c.unseen seen)
decreasing_by
  · simp only [List.length_cons]
    omega
  · simp only [List.length_cons, Discipline.length_add]
    cases hd : c.find? n with
    | none =>
      have hs : c.successors next n = [] := by simp [successors, hd]
      have hle : sumOver (fun n => (c.successors next n).length) (c.unseen (n :: seen))
          ≤ sumOver (fun n => (c.successors next n).length) (c.unseen seen) := by
        by_cases hm : n ∈ c.names
        · have := sumOver_filter_cons_le (fun n => (c.successors next n).length) _hn hm
          simp only [unseen]
          omega
        · have : c.unseen (n :: seen) = c.unseen seen := by
            unfold unseen
            apply List.filter_congr
            intro m hmem
            have : m ≠ n := fun h => hm (h ▸ hmem)
            simp [this]
          exact Nat.le_of_eq (by rw [this])
      rw [hs, List.length_nil]
      omega
    | some d =>
      have := sumOver_filter_cons_le (fun n => (c.successors next n).length) _hn (c.mem_names hd)
      simp only [unseen]
      omega

/-- The names in which a member of `start` is looked for: the superclasses,
nearest first, and then the interfaces, breadth first from those of the
nearest class. -/
def searchOrder (c : Catalog) (start : ClassName) : List ClassName :=
  let chain := c.superclasses [] start
  chain ++ c.traverse .queue ClassDef.interfaces chain (chain.flatMap (c.successors ClassDef.interfaces))

end Catalog

end TypeFlow
