/-!
# Sums over lists

Whole-number weights added up over a list. The bounds on what is still to be
done are such sums, and so are the totals of a report.
-/

namespace TypeFlow

variable {α : Type}

def sumOver (f : α → Nat) : List α → Nat
  | [] => 0
  | x :: l => f x + sumOver f l

@[simp] theorem sumOver_nil (f : α → Nat) : sumOver f [] = 0 := rfl

@[simp] theorem sumOver_cons (f : α → Nat) (x : α) (l : List α) :
    sumOver f (x :: l) = f x + sumOver f l := rfl

@[simp] theorem sumOver_append (f : α → Nat) (l m : List α) :
    sumOver f (l ++ m) = sumOver f l + sumOver f m := by
  induction l with
  | nil => simp
  | cons x l ih => simp [ih, Nat.add_assoc]

theorem sumOver_one (l : List α) : sumOver (fun _ => 1) l = l.length := by
  induction l with
  | nil => rfl
  | cons x l ih => simp [ih, Nat.add_comm]

theorem sumOver_map {β : Type} (f : β → Nat) (g : α → β) (l : List α) :
    sumOver f (l.map g) = sumOver (fun x => f (g x)) l := by
  induction l with
  | nil => rfl
  | cons x l ih => rw [List.map_cons, sumOver_cons, sumOver_cons, ih]

theorem sumOver_flatMap {β : Type} (f : β → Nat) (g : α → List β) (l : List α) :
    sumOver f (l.flatMap g) = sumOver (fun x => sumOver f (g x)) l := by
  induction l with
  | nil => rfl
  | cons x l ih => rw [List.flatMap_cons, sumOver_append, sumOver_cons, ih]

theorem sumOver_modify_eq {w : α → Nat} {f : α → α} (h : ∀ x, w (f x) = w x) (l : List α) (n : Nat) :
    sumOver w (l.modify n f) = sumOver w l := by
  induction l generalizing n with
  | nil => simp
  | cons x l ih => cases n <;> simp [h, ih]

theorem sumOver_modify (w : α → Nat) (f : α → α) {l : List α} {n : Nat} {x : α} (h : l[n]? = some x) :
    sumOver w (l.modify n f) + w x = sumOver w l + w (f x) := by
  induction l generalizing n with
  | nil => simp at h
  | cons y l ih =>
    cases n with
    | zero =>
      simp only [List.getElem?_cons_zero, Option.some.injEq] at h
      subst h
      simp only [List.modify_zero_cons, sumOver_cons]
      omega
    | succ n =>
      simp only [List.getElem?_cons_succ] at h
      have := ih h
      simp only [List.modify_succ_cons, sumOver_cons]
      omega

theorem sumOver_filter_cons_le [DecidableEq α] (f : α → Nat) {x : α} {seen : List α} (hx : x ∉ seen)
    {l : List α} (hl : x ∈ l) :
    sumOver f (l.filter fun y => y ∉ x :: seen) + f x ≤ sumOver f (l.filter fun y => y ∉ seen) := by
  have hmono : ∀ l : List α, sumOver f (l.filter fun y => y ∉ x :: seen)
      ≤ sumOver f (l.filter fun y => y ∉ seen) := by
    intro l
    induction l with
    | nil => simp
    | cons y l ih =>
      by_cases hs : y ∈ seen
      · simpa [hs] using ih
      · by_cases hy : y = x
        · subst hy
          simp [hs] at ih ⊢
          omega
        · simp [hs, hy] at ih ⊢
          omega
  induction l with
  | nil => simp at hl
  | cons y l ih =>
    by_cases hy : y = x
    · subst hy
      have := hmono l
      simp [hx] at this ⊢
      omega
    · have := ih ((List.mem_cons.1 hl).resolve_left fun h => hy h.symm)
      by_cases hs : y ∈ seen
      · simpa [hs] using this
      · simp [hs, hy] at this ⊢
        omega

end TypeFlow
