import Mathlib.Data.List.TakeWhile
import TypeFlow.Signature

/-!
# The grammars of the textual forms

A form is a derivation of a text: its choices of letters, names and items. Of
forms there are only well-formed ones, so the grammars are

* `T ::= V | T'` and `T' ::= letter | L n ; | [ T'` (`TypeForm`, `ItemForm`),
* `name ( T' ... T' ) T` (`SignatureForm`),
* `class . signature` (`MethodForm`) and `class . name` (`FieldForm`).

A form is spelled in one way, and read as one value. No two forms are spelled
alike, even with something behind them: each part of a spelling tells where it
ends.
-/

namespace TypeFlow

structure ClassSpelling where
  chars : List Char
  chars_ne : chars ≠ []
  unclosed : ';' ∉ chars

inductive ItemForm where
  | primitive (p : Primitive)
  | object (name : ClassSpelling)
  | array (item : ItemForm)

inductive TypeForm where
  | void
  | item (t : ItemForm)

structure SignatureForm where
  name : List Char
  params : List ItemForm
  result : TypeForm
  name_ne : name ≠ []
  name_unopened : '(' ∉ name

structure MethodForm where
  owner : List Char
  signature : SignatureForm
  owner_ne : owner ≠ []
  owner_unopened : '(' ∉ owner
  name_undotted : '.' ∉ signature.name

structure FieldForm where
  owner : List Char
  name : List Char
  owner_ne : owner ≠ []
  name_ne : name ≠ []
  name_undotted : '.' ∉ name

/-! ## Spelling -/

def ItemForm.spell : ItemForm → List Char
  | primitive p => [p.letter]
  | object name => 'L' :: name.chars ++ [';']
  | array item => '[' :: item.spell

def TypeForm.spell : TypeForm → List Char
  | void => ['V']
  | item t => t.spell

def SignatureForm.spellTypes (f : SignatureForm) : List Char :=
  f.params.flatMap ItemForm.spell ++ ')' :: f.result.spell

def SignatureForm.spell (f : SignatureForm) : List Char := f.name ++ '(' :: f.spellTypes

def MethodForm.spell (f : MethodForm) : List Char := f.owner ++ '.' :: f.signature.spell

def FieldForm.spell (f : FieldForm) : List Char := f.owner ++ '.' :: f.name

/-! ## Values -/

def ClassSpelling.className (n : ClassSpelling) : ClassName :=
  String.ofList (n.chars.map fun c => if c = '/' then '.' else c)

def ItemForm.value : ItemForm → DeclType
  | primitive p => .primitive p
  | object name => .object name.className
  | array item => .array item.value

def TypeForm.value : TypeForm → DeclType
  | void => .void
  | item t => t.value

def SignatureForm.value (f : SignatureForm) : Signature :=
  ⟨String.ofList f.name, f.params.map ItemForm.value, f.result.value⟩

def MethodForm.value (f : MethodForm) : QualifiedMethod := ⟨String.ofList f.owner, f.signature.value⟩

def FieldForm.value (f : FieldForm) : QualifiedField := ⟨String.ofList f.owner, String.ofList f.name⟩

@[simp] theorem ItemForm.value_ne_void (f : ItemForm) : f.value ≠ .void := by
  cases f <;> simp [value]

/-! ## The first occurrence of a character -/

section
variable {c d : Char} {a b l r r' : List Char}

theorem forall_ne_of_not_mem (h : c ∉ a) : ∀ x ∈ a, decide (x ≠ c) = true := by
  intro x hx
  simp only [decide_eq_true_eq]
  rintro rfl
  exact h hx

theorem takeWhile_ne (h : c ∉ a) : (a ++ c :: r).takeWhile (· ≠ c) = a := by
  rw [List.takeWhile_append_of_pos (forall_ne_of_not_mem h)]
  simp

theorem dropWhile_ne (h : c ∉ a) : (a ++ c :: r).dropWhile (· ≠ c) = c :: r := by
  rw [List.dropWhile_append_of_pos (forall_ne_of_not_mem h)]
  simp

theorem dropWhile_of_not_mem (h : c ∉ l) : l.dropWhile (· ≠ c) = [] :=
  List.dropWhile_eq_nil_iff.2 (forall_ne_of_not_mem h)

theorem not_mem_takeWhile_ne (c : Char) (l : List Char) : c ∉ l.takeWhile (· ≠ c) := by
  intro hc
  simpa using List.mem_takeWhile_imp hc

/-- A text is what stands before its first `c`, and the rest from there on. -/
theorem eq_of_dropWhile_ne (h : l.dropWhile (· ≠ c) = d :: r) : l = l.takeWhile (· ≠ c) ++ c :: r := by
  have hd : d = c := by
    have := List.head?_dropWhile_not (· ≠ c) l
    rw [h] at this
    simpa using this
  subst hd
  rw [← h, List.takeWhile_append_dropWhile]

theorem append_cons_inj (ha : c ∉ a) (hb : c ∉ b) (h : a ++ c :: r = b ++ c :: r') : a = b ∧ r = r' := by
  have htake := congrArg (List.takeWhile (· ≠ c)) h
  have hdrop := congrArg (List.dropWhile (· ≠ c)) h
  rw [takeWhile_ne ha, takeWhile_ne hb] at htake
  rw [dropWhile_ne ha, dropWhile_ne hb] at hdrop
  exact ⟨htake, (List.cons.inj hdrop).2⟩

/-! ## The last occurrence of a character -/

theorem splitLast_of_not_mem (h : c ∉ l) : splitLast c l = none := by
  induction l with
  | nil => rfl
  | cons x l ih =>
    rw [List.mem_cons, not_or] at h
    simp [splitLast, ih h.2, Ne.symm h.1]

theorem splitLast_append (h : c ∉ b) : splitLast c (a ++ c :: b) = some (a, b) := by
  induction a with
  | nil => simp [splitLast, splitLast_of_not_mem h]
  | cons x a ih => simp [splitLast, ih]

theorem not_mem_of_splitLast (h : splitLast c l = none) : c ∉ l := by
  induction l with
  | nil => simp
  | cons x l ih =>
    rw [splitLast] at h
    split at h
    · cases h
    · next hl =>
      split at h
      · cases h
      · next hx => simp [ih hl, Ne.symm hx]

theorem eq_of_splitLast (h : splitLast c l = some (a, b)) : l = a ++ c :: b ∧ c ∉ b := by
  induction l generalizing a with
  | nil => cases h
  | cons x l ih =>
    rw [splitLast] at h
    split at h
    · next before after hl =>
      cases h
      obtain ⟨rfl, hb⟩ := ih hl
      exact ⟨rfl, hb⟩
    · next hl =>
      split at h
      · next hx =>
        cases h
        exact ⟨by rw [hx]; rfl, not_mem_of_splitLast hl⟩
      · cases h

theorem append_cons_inj_last (ha : c ∉ r) (hb : c ∉ r') (h : a ++ c :: r = b ++ c :: r') : a = b ∧ r = r' := by
  have := (splitLast_append ha).symm.trans ((congrArg (splitLast c) h).trans (splitLast_append hb))
  simpa using this

end

/-! ## One form for a spelling -/

namespace Primitive

theorem ofLetter?_letter (p : Primitive) : ofLetter? p.letter = some p := by cases p <;> rfl

theorem letter_of_ofLetter? {c : Char} {p : Primitive} (h : ofLetter? c = some p) : p.letter = c := by
  unfold ofLetter? at h
  split at h <;> cases h <;> rfl

theorem letter_inj {p q : Primitive} (h : p.letter = q.letter) : p = q :=
  Option.some.inj ((ofLetter?_letter p).symm.trans ((congrArg ofLetter? h).trans (ofLetter?_letter q)))

/-- No letter of a primitive begins any other type, or ends the parameters. -/
theorem letter_ne (p : Primitive) : p.letter ≠ 'V' ∧ p.letter ≠ '[' ∧ p.letter ≠ 'L' ∧ p.letter ≠ ')' := by
  cases p <;> decide

end Primitive

theorem ClassSpelling.eq_of_chars {n m : ClassSpelling} (h : n.chars = m.chars) : n = m := by
  cases n
  cases m
  cases h
  rfl

/-- What a spelled item begins with: neither of the two is an item. -/
theorem ItemForm.head_spell (f : ItemForm) : ∃ c r, f.spell = c :: r ∧ c ≠ 'V' ∧ c ≠ ')' := by
  cases f with
  | primitive p => exact ⟨p.letter, [], rfl, p.letter_ne.1, p.letter_ne.2.2.2⟩
  | object n => exact ⟨'L', n.chars ++ [';'], rfl, by decide, by decide⟩
  | array item => exact ⟨'[', item.spell, rfl, by decide, by decide⟩

theorem ItemForm.spell_append_inj {f g : ItemForm} {r r' : List Char} (h : f.spell ++ r = g.spell ++ r') :
    f = g ∧ r = r' := by
  induction f generalizing g with
  | primitive p =>
    obtain ⟨-, hopen, hclass, -⟩ := p.letter_ne
    cases g with
    | primitive q =>
      obtain ⟨hletter, hr⟩ := List.cons.inj h
      exact ⟨congrArg primitive (Primitive.letter_inj hletter), hr⟩
    | object n => exact absurd (List.cons.inj h).1 hclass
    | array item => exact absurd (List.cons.inj h).1 hopen
  | object n =>
    cases g with
    | primitive q => exact absurd (List.cons.inj h).1.symm q.letter_ne.2.2.1
    | object m =>
      simp only [spell, List.cons_append, List.append_assoc, List.cons.injEq, List.nil_append, true_and] at h
      obtain ⟨hchars, hr⟩ := append_cons_inj n.unclosed m.unclosed h
      exact ⟨congrArg object (ClassSpelling.eq_of_chars hchars), hr⟩
    | array item => simp [spell] at h
  | array item ih =>
    cases g with
    | primitive q => exact absurd (List.cons.inj h).1.symm q.letter_ne.2.1
    | object m => simp [spell] at h
    | array item' =>
      obtain ⟨rfl, hr⟩ := ih (List.cons.inj h).2
      exact ⟨rfl, hr⟩

theorem TypeForm.spell_append_inj {f g : TypeForm} {r r' : List Char} (h : f.spell ++ r = g.spell ++ r') :
    f = g ∧ r = r' := by
  have hvoid : ∀ {t : ItemForm} {r r'}, 'V' :: r = t.spell ++ r' → False := by
    intro t r r' h
    obtain ⟨c, rest, ht, hc, -⟩ := t.head_spell
    rw [ht] at h
    exact hc (List.cons.inj h).1.symm
  cases f with
  | void =>
    cases g with
    | void => exact ⟨rfl, (List.cons.inj h).2⟩
    | item t => exact (hvoid h).elim
  | item t =>
    cases g with
    | void => exact (hvoid h.symm).elim
    | item u =>
      obtain ⟨rfl, hr⟩ := ItemForm.spell_append_inj h
      exact ⟨rfl, hr⟩

/-- A parenthesis ends the parameters, since no item begins with one. -/
theorem spell_params_inj {fs gs : List ItemForm} {r r' : List Char}
    (h : fs.flatMap ItemForm.spell ++ ')' :: r = gs.flatMap ItemForm.spell ++ ')' :: r') : fs = gs ∧ r = r' := by
  have hclose : ∀ {f : ItemForm} {l r r'}, ')' :: r = f.spell ++ l ++ r' → False := by
    intro f l r r' h
    obtain ⟨c, rest, hf, -, hc⟩ := f.head_spell
    rw [hf] at h
    exact hc (List.cons.inj h).1.symm
  induction fs generalizing gs with
  | nil =>
    cases gs with
    | nil => exact ⟨rfl, (List.cons.inj h).2⟩
    | cons g gs => exact (hclose h).elim
  | cons f fs ih =>
    cases gs with
    | nil => exact (hclose h.symm).elim
    | cons g gs =>
      simp only [List.flatMap_cons, List.append_assoc] at h
      obtain ⟨rfl, hrest⟩ := ItemForm.spell_append_inj h
      obtain ⟨rfl, hr⟩ := ih hrest
      exact ⟨rfl, hr⟩

theorem TypeForm.spell_inj {f g : TypeForm} (h : f.spell = g.spell) : f = g :=
  (spell_append_inj (congrArg (· ++ []) h)).1

theorem SignatureForm.spell_inj {f g : SignatureForm} (h : f.spell = g.spell) : f = g := by
  obtain ⟨hname, htypes⟩ := append_cons_inj f.name_unopened g.name_unopened h
  obtain ⟨hparams, hresult⟩ := spell_params_inj htypes
  cases f
  cases g
  obtain rfl := TypeForm.spell_inj hresult
  cases hname
  cases hparams
  rfl

/-- The first parenthesis of a method opens its parameters. -/
theorem MethodForm.spell_eq (f : MethodForm) :
    f.spell = (f.owner ++ '.' :: f.signature.name) ++ '(' :: f.signature.spellTypes := by
  simp [spell, SignatureForm.spell]

theorem MethodForm.unopened (f : MethodForm) : '(' ∉ f.owner ++ '.' :: f.signature.name := by
  simp [f.owner_unopened, f.signature.name_unopened]

theorem MethodForm.spell_inj {f g : MethodForm} (h : f.spell = g.spell) : f = g := by
  rw [f.spell_eq, g.spell_eq] at h
  obtain ⟨hhead, htypes⟩ := append_cons_inj f.unopened g.unopened h
  obtain ⟨howner, hname⟩ := append_cons_inj_last f.name_undotted g.name_undotted hhead
  have hsignature : f.signature = g.signature := by
    apply SignatureForm.spell_inj
    rw [SignatureForm.spell, SignatureForm.spell, hname, htypes]
  cases f
  cases g
  cases howner
  cases hsignature
  rfl

theorem FieldForm.spell_inj {f g : FieldForm} (h : f.spell = g.spell) : f = g := by
  cases f with
  | mk owner name owner_ne name_ne name_undotted =>
    cases g with
    | mk owner' name' owner_ne' name_ne' name_undotted' =>
      obtain ⟨rfl, rfl⟩ := append_cons_inj_last name_undotted name_undotted' h
      rfl

end TypeFlow
