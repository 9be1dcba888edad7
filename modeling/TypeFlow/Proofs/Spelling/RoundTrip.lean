import TypeFlow.Proofs.Spelling.Recognition

/-!
# Printing and parsing

A value is printed as a form spells it exactly when it is well formed. So the
well-formed values are those that survive printing and parsing, and they are
the values that a parser gives. Printed again, an accepted text changes only
between an `L` and its `;`, where dots become slashes.
-/

namespace TypeFlow

/-! ## Well-formed values -/

def DeclType.WellFormed : DeclType → Prop
  | void => True
  | primitive _ => True
  | object name => name ≠ "" ∧ ';' ∉ name.toList ∧ '/' ∉ name.toList
  | array item => item ≠ void ∧ item.WellFormed

instance DeclType.decidableWellFormed : (t : DeclType) → Decidable t.WellFormed
  | void => inferInstanceAs (Decidable True)
  | primitive _ => inferInstanceAs (Decidable True)
  | object name => inferInstanceAs (Decidable (name ≠ "" ∧ ';' ∉ name.toList ∧ '/' ∉ name.toList))
  | array item =>
    have := decidableWellFormed item
    inferInstanceAs (Decidable (item ≠ void ∧ item.WellFormed))

def Signature.WellFormed (s : Signature) : Prop :=
  s.name ≠ "" ∧ '(' ∉ s.name.toList ∧ (∀ p ∈ s.params, p ≠ .void ∧ p.WellFormed) ∧ s.result.WellFormed

instance (s : Signature) : Decidable s.WellFormed :=
  inferInstanceAs (Decidable (s.name ≠ "" ∧ '(' ∉ s.name.toList ∧ (∀ p ∈ s.params, p ≠ .void ∧ p.WellFormed) ∧
    s.result.WellFormed))

def QualifiedMethod.WellFormed (m : QualifiedMethod) : Prop :=
  m.signature.WellFormed ∧ m.owner ≠ "" ∧ '(' ∉ m.owner.toList ∧ '.' ∉ m.name.toList

instance (m : QualifiedMethod) : Decidable m.WellFormed :=
  inferInstanceAs (Decidable (m.signature.WellFormed ∧ m.owner ≠ "" ∧ '(' ∉ m.owner.toList ∧ '.' ∉ m.name.toList))

def QualifiedField.WellFormed (f : QualifiedField) : Prop := f.owner ≠ "" ∧ f.name ≠ "" ∧ '.' ∉ f.name.toList

instance (f : QualifiedField) : Decidable f.WellFormed :=
  inferInstanceAs (Decidable (f.owner ≠ "" ∧ f.name ≠ "" ∧ '.' ∉ f.name.toList))

/-! ## Dots and slashes -/

/-- Replaces the dots between each `L` and the next `;`. The scan begins `inside` such a part or not. -/
def slashed (inside : Bool) : List Char → List Char
  | [] => []
  | c :: cs =>
    if inside then (if c = '.' then '/' else c) :: slashed (c ≠ ';') cs
    else c :: slashed (c = 'L') cs

/-- Only the types of a signature are scanned, never the names in front of them. -/
def slashedTypes (cs : List Char) : List Char := cs.takeWhile (· ≠ '(') ++ slashed false (cs.dropWhile (· ≠ '('))

theorem slashed_name {name : List Char} (rest : List Char) (h : ';' ∉ name) :
    slashed true (name ++ ';' :: rest) =
      (name.map fun c => if c = '.' then '/' else c) ++ ';' :: slashed false rest := by
  induction name with
  | nil => simp [slashed]
  | cons c name ih =>
    rw [List.mem_cons, not_or] at h
    simp [slashed, ih h.2, Ne.symm h.1]

/-- Slashes are read as dots and dots written as slashes, so both come out as slashes. -/
theorem slash_dot (c : Char) :
    (if (if c = '/' then '.' else c) = '.' then '/' else if c = '/' then '.' else c) =
      if c = '.' then '/' else c := by
  by_cases hslash : c = '/'
  · simp [hslash]
  · simp [hslash]

theorem dot_slash {c : Char} (h : c ≠ '/') :
    (if (if c = '.' then '/' else c) = '/' then '.' else if c = '.' then '/' else c) = c := by
  by_cases hdot : c = '.'
  · simp [hdot]
  · simp [hdot, h]

theorem ItemForm.slashed_spell (f : ItemForm) (rest : List Char) :
    slashed false (f.spell ++ rest) = f.value.print ++ slashed false rest := by
  induction f with
  | primitive p => simp [spell, value, DeclType.print, slashed, p.letter_ne.2.2.1]
  | object n =>
    have hname := slashed_name rest n.unclosed
    have hchars : (n.className.toList.map fun c => if c = '.' then '/' else c) =
        n.chars.map fun c => if c = '.' then '/' else c := by
      rw [ClassSpelling.className, String.toList_ofList, List.map_map]
      exact List.map_congr_left fun c _ => slash_dot c
    simp [spell, value, DeclType.print, slashed, hname, hchars]
  | array item ih => simp [spell, value, DeclType.print, slashed, ih]

theorem TypeForm.slashed_spell (f : TypeForm) : slashed false f.spell = f.value.print := by
  cases f with
  | void => simp [spell, value, DeclType.print, slashed]
  | item t => simpa [spell, value, slashed] using t.slashed_spell []

theorem slashed_params (fs : List ItemForm) (rest : List Char) :
    slashed false (fs.flatMap ItemForm.spell ++ rest) =
      (fs.map ItemForm.value).flatMap DeclType.print ++ slashed false rest := by
  induction fs with
  | nil => rfl
  | cons f fs ih => simp [f.slashed_spell, ih]

theorem SignatureForm.slashed_spellTypes (f : SignatureForm) :
    slashed false ('(' :: f.spellTypes) =
      '(' :: (f.params.map ItemForm.value).flatMap DeclType.print ++ ')' :: f.result.value.print := by
  simp [slashed, spellTypes, slashed_params, f.result.slashed_spell]

theorem SignatureForm.slashed_spell (f : SignatureForm) : slashedTypes f.spell = f.value.print := by
  rw [slashedTypes, spell, takeWhile_ne f.name_unopened, dropWhile_ne f.name_unopened, f.slashed_spellTypes]
  simp [value, Signature.print]

theorem MethodForm.slashed_spell (f : MethodForm) : slashedTypes f.spell = f.value.print := by
  rw [slashedTypes, f.spell_eq, takeWhile_ne f.unopened, dropWhile_ne f.unopened, f.signature.slashed_spellTypes]
  simp [value, QualifiedMethod.print, SignatureForm.value, Signature.print]

theorem FieldForm.print_value (f : FieldForm) : f.value.print = f.spell := by
  simp [value, QualifiedField.print, spell]

/-! ## The values of forms -/

theorem ItemForm.wellFormed (f : ItemForm) : f.value.WellFormed := by
  induction f with
  | primitive p => trivial
  | object n =>
    have hchars : n.className.toList = n.chars.map fun c => if c = '/' then '.' else c := String.toList_ofList
    refine ⟨by simp [ClassSpelling.className, n.chars_ne], ?_, ?_⟩
    · rw [hchars, List.mem_map]
      rintro ⟨c, hc, heq⟩
      split at heq
      · cases heq
      · exact n.unclosed (heq ▸ hc)
    · rw [hchars, List.mem_map]
      rintro ⟨c, -, heq⟩
      split at heq
      · cases heq
      · next h => exact h heq
  | array item ih => exact ⟨item.value_ne_void, ih⟩

theorem TypeForm.wellFormed (f : TypeForm) : f.value.WellFormed := by
  cases f with
  | void => trivial
  | item t => exact t.wellFormed

theorem SignatureForm.wellFormed (f : SignatureForm) : f.value.WellFormed := by
  refine ⟨by simp [value, f.name_ne], by simp [value, f.name_unopened], ?_, f.result.wellFormed⟩
  intro p hp
  obtain ⟨t, -, rfl⟩ := List.mem_map.1 hp
  exact ⟨t.value_ne_void, t.wellFormed⟩

theorem MethodForm.wellFormed (f : MethodForm) : f.value.WellFormed :=
  ⟨f.signature.wellFormed, by simp [value, f.owner_ne], by simp [value, f.owner_unopened],
    by simp [value, SignatureForm.value, QualifiedMethod.name, f.name_undotted]⟩

theorem FieldForm.wellFormed (f : FieldForm) : f.value.WellFormed :=
  ⟨by simp [value, f.owner_ne], by simp [value, f.name_ne], by simp [value, f.name_undotted]⟩

/-! ## The forms of values -/

theorem DeclType.WellFormed.exists_item {t : DeclType} (h : t.WellFormed) (hvoid : t ≠ .void) :
    ∃ f : ItemForm, f.spell = t.print ∧ f.value = t := by
  induction t with
  | void => exact absurd rfl hvoid
  | primitive p => exact ⟨.primitive p, rfl, rfl⟩
  | object name =>
    obtain ⟨hname, hclosed, hslash⟩ := h
    let n : ClassSpelling :=
      { chars := name.toList.map fun c => if c = '.' then '/' else c
        chars_ne := by simp [hname]
        unclosed := by
          rw [List.mem_map]
          rintro ⟨c, hc, heq⟩
          split at heq
          · cases heq
          · exact hclosed (heq ▸ hc) }
    have hdots : (n.chars.map fun c => if c = '/' then '.' else c) = name.toList := by
      rw [List.map_map]
      refine (List.map_congr_left fun c hc => ?_).trans (List.map_id _)
      exact dot_slash fun heq => hslash (heq ▸ hc)
    have hread : n.className = name := by rw [ClassSpelling.className, hdots, String.ofList_toList]
    exact ⟨.object n, rfl, congrArg DeclType.object hread⟩
  | array item ih =>
    obtain ⟨f, hspell, rfl⟩ := ih h.2 h.1
    exact ⟨.array f, by rw [ItemForm.spell, hspell]; rfl, rfl⟩

theorem DeclType.WellFormed.exists_form {t : DeclType} (h : t.WellFormed) :
    ∃ f : TypeForm, f.spell = t.print ∧ f.value = t := by
  by_cases hvoid : t = .void
  · exact ⟨.void, by rw [hvoid]; rfl, hvoid.symm⟩
  · obtain ⟨f, hf⟩ := h.exists_item hvoid
    exact ⟨.item f, hf⟩

theorem exists_params {params : List DeclType} (h : ∀ p ∈ params, p ≠ .void ∧ p.WellFormed) :
    ∃ fs : List ItemForm, fs.flatMap ItemForm.spell = params.flatMap DeclType.print ∧
      fs.map ItemForm.value = params := by
  induction params with
  | nil => exact ⟨[], rfl, rfl⟩
  | cons p params ih =>
    obtain ⟨hvoid, hp⟩ := h p List.mem_cons_self
    obtain ⟨f, hspell, hvalue⟩ := hp.exists_item hvoid
    obtain ⟨fs, hspells, hvalues⟩ := ih fun q hq => h q (List.mem_cons_of_mem p hq)
    exact ⟨f :: fs, by simp [hspell, hspells], by simp [hvalue, hvalues]⟩

theorem Signature.WellFormed.exists_form {s : Signature} (h : s.WellFormed) :
    ∃ f : SignatureForm, f.spell = s.print ∧ f.value = s := by
  obtain ⟨hname, hopen, hparams, hresult⟩ := h
  obtain ⟨fs, hspells, hvalues⟩ := exists_params hparams
  obtain ⟨f, hspell, hvalue⟩ := hresult.exists_form
  refine ⟨⟨s.name.toList, fs, f, by simp [hname], hopen⟩, ?_, ?_⟩
  · simp [SignatureForm.spell, SignatureForm.spellTypes, hspells, hspell, print]
  · simp [SignatureForm.value, hvalues, hvalue]

theorem QualifiedMethod.WellFormed.exists_form {m : QualifiedMethod} (h : m.WellFormed) :
    ∃ f : MethodForm, f.spell = m.print ∧ f.value = m := by
  obtain ⟨hsignature, howner, hopen, hdot⟩ := h
  obtain ⟨f, hspell, hvalue⟩ := hsignature.exists_form
  have hname : f.name = m.name.toList := by
    rw [name, ← hvalue, SignatureForm.value, String.toList_ofList]
  refine ⟨⟨m.owner.toList, f, by simp [howner], hopen, hname ▸ hdot⟩, ?_, ?_⟩
  · rw [MethodForm.spell, hspell, print]
  · simp [MethodForm.value, hvalue]

theorem QualifiedField.WellFormed.exists_form {f : QualifiedField} (h : f.WellFormed) :
    ∃ g : FieldForm, g.spell = f.print ∧ g.value = f := by
  obtain ⟨howner, hname, hdot⟩ := h
  exact ⟨⟨f.owner.toList, f.name.toList, by simp [howner], by simp [hname], hdot⟩, rfl, by simp [FieldForm.value]⟩

/-! ## Round trips -/

/-- The well-formed values are those that survive printing and parsing, and those that parsing gives. Printing the
value of a text gives the text again, `rewritten`. -/
structure RoundTrips {Value : Type} (WellFormed : Value → Prop) (text : Value → String)
    (parse : String → Except Malformed Value) (rewritten : List Char → List Char) : Prop where
  survives : ∀ x, parse (text x) = .ok x ↔ WellFormed x
  wellFormed : ∀ s x, parse s = .ok x → WellFormed x
  rewrites : ∀ s x, parse s = .ok x → (text x).toList = rewritten s.toList

theorem Recognizes.roundTrips {Form Value : Type} {spell : Form → List Char} {value : Form → Value}
    {refusal : String → Malformed} {parse : String → Except Malformed Value}
    {sliced : String → Option (Except Malformed Value)} {WellFormed : Value → Prop} {print : Value → List Char}
    {rewritten : List Char → List Char} (h : Recognizes spell value refusal parse sliced)
    (hvalue : ∀ f, WellFormed (value f)) (hform : ∀ x, WellFormed x → ∃ f, spell f = print x ∧ value f = x)
    (hprint : ∀ f, rewritten (spell f) = print (value f)) :
    RoundTrips WellFormed (fun x => String.ofList (print x)) parse rewritten where
  survives x := by
    rw [h.accepts, String.toList_ofList]
    constructor
    · rintro ⟨f, -, rfl⟩
      exact hvalue f
    · exact hform x
  wellFormed s x hx := by
    obtain ⟨f, -, rfl⟩ := (h.accepts s x).1 hx
    exact hvalue f
  rewrites s x hx := by
    obtain ⟨f, hf, rfl⟩ := (h.accepts s x).1 hx
    rw [String.toList_ofList, ← hf, hprint]

theorem DeclType.roundTrips : RoundTrips WellFormed text parse (slashed false) :=
  recognizes.roundTrips TypeForm.wellFormed (fun _ h => h.exists_form) TypeForm.slashed_spell

theorem Signature.roundTrips : RoundTrips WellFormed text parse slashedTypes :=
  recognizes.roundTrips SignatureForm.wellFormed (fun _ h => h.exists_form) SignatureForm.slashed_spell

theorem QualifiedMethod.roundTrips : RoundTrips WellFormed text parse slashedTypes :=
  recognizes.roundTrips MethodForm.wellFormed (fun _ h => h.exists_form) MethodForm.slashed_spell

theorem QualifiedField.roundTrips : RoundTrips WellFormed text parse id :=
  recognizes.roundTrips FieldForm.wellFormed (fun _ h => h.exists_form) fun f => f.print_value.symm

/-- Exactly the well-formed types, signatures and qualified members survive printing and parsing, parsing gives no
others, and an accepted text is printed again with slashes for the dots of the class names in its types. -/
theorem texts_roundTrip :
    RoundTrips DeclType.WellFormed DeclType.text DeclType.parse (slashed false) ∧
    RoundTrips Signature.WellFormed Signature.text Signature.parse slashedTypes ∧
    RoundTrips QualifiedMethod.WellFormed QualifiedMethod.text QualifiedMethod.parse slashedTypes ∧
    RoundTrips QualifiedField.WellFormed QualifiedField.text QualifiedField.parse id :=
  ⟨DeclType.roundTrips, Signature.roundTrips, QualifiedMethod.roundTrips, QualifiedField.roundTrips⟩

/-- A slash in a class name does not survive. -/
example : DeclType.parse (DeclType.object "a/B").text = .ok (.object "a.B") := by decide +kernel

end TypeFlow
