import TypeFlow.Proofs.Spelling.Slices

/-!
# The parsers recognize the grammars

What it takes to recognize a grammar is one structure, for types, signatures
and qualified members alike. The four parsers have it.
-/

namespace TypeFlow

/-- A parser recognizes the texts that are spelled by forms: it gives the value of the one form, or else refuses the
whole text. The parser that cuts the text at byte offsets does the same, and no cut fails. -/
structure Recognizes {Form Value : Type} (spell : Form → List Char) (value : Form → Value)
    (refusal : String → Malformed) (parse : String → Except Malformed Value)
    (sliced : String → Option (Except Malformed Value)) : Prop where
  accepts : ∀ s x, parse s = .ok x ↔ ∃ f, spell f = s.toList ∧ value f = x
  unique : ∀ f g, spell f = spell g → f = g
  refuses : ∀ s, (∀ f, spell f ≠ s.toList) → parse s = .error (refusal s)
  uncut : ∀ s, sliced s = some (parse s)

theorem Recognizes.of_reader {Form Value : Type} {spell : Form → List Char} {value : Form → Value}
    {refusal : String → Malformed} {parse : String → Except Malformed Value}
    {sliced : String → Option (Except Malformed Value)} {ofChars? : List Char → Option Value}
    (hchars : ∀ cs x, ofChars? cs = some x ↔ ∃ f, spell f = cs ∧ value f = x)
    (hparse : ∀ s, parse s = (ofChars? s.toList).elim (.error (refusal s)) .ok)
    (hunique : ∀ f g, spell f = spell g → f = g) (hsliced : ∀ s, sliced s = some (parse s)) :
    Recognizes spell value refusal parse sliced where
  accepts s x := by
    rw [← hchars, hparse]
    cases ofChars? s.toList <;> simp
  unique := hunique
  refuses s hs := by
    rw [hparse]
    cases hx : ofChars? s.toList with
    | none => rfl
    | some x =>
      obtain ⟨f, hf, -⟩ := (hchars _ _).1 hx
      exact absurd hf (hs f)
  uncut := hsliced

theorem DeclType.parse_eq (s : String) : parse s = (ofChars? s.toList).elim (.error (.type s)) .ok := by
  unfold parse ofText?
  cases ofChars? s.toList <;> rfl

theorem DeclType.recognizes : Recognizes TypeForm.spell TypeForm.value .type DeclType.parse Sliced.type :=
  .of_reader (fun _ _ => ofChars?_eq_some) parse_eq (fun _ _ => TypeForm.spell_inj) Sliced.type_eq

theorem Signature.parse_eq (s : String) : parse s = (ofChars? s.toList).elim (.error (.signature s)) .ok := by
  unfold parse
  cases ofChars? s.toList <;> rfl

theorem Signature.recognizes :
    Recognizes SignatureForm.spell SignatureForm.value .signature Signature.parse Sliced.signature :=
  .of_reader (fun _ _ => ofChars?_eq_some) parse_eq (fun _ _ => SignatureForm.spell_inj) Sliced.signature_eq

theorem QualifiedMethod.parse_eq (s : String) : parse s = (ofChars? s.toList).elim (.error (.method s)) .ok := by
  unfold parse
  cases ofChars? s.toList <;> rfl

theorem QualifiedMethod.recognizes :
    Recognizes MethodForm.spell MethodForm.value .method QualifiedMethod.parse Sliced.method :=
  .of_reader (fun _ _ => ofChars?_eq_some) parse_eq (fun _ _ => MethodForm.spell_inj) Sliced.method_eq

theorem QualifiedField.parse_eq (s : String) : parse s = (ofChars? s.toList).elim (.error (.field s)) .ok := by
  unfold parse
  cases ofChars? s.toList <;> rfl

theorem QualifiedField.recognizes :
    Recognizes FieldForm.spell FieldForm.value .field QualifiedField.parse Sliced.field :=
  .of_reader (fun _ _ => ofChars?_eq_some) parse_eq (fun _ _ => FieldForm.spell_inj) Sliced.field_eq

/-- Each parser accepts exactly its grammar, gives the value of the only derivation, and repeats in its own error
the whole of a text that has none, whichever part of it is at fault. -/
theorem parsers_recognize_grammars :
    Recognizes TypeForm.spell TypeForm.value .type DeclType.parse Sliced.type ∧
    Recognizes SignatureForm.spell SignatureForm.value .signature Signature.parse Sliced.signature ∧
    Recognizes MethodForm.spell MethodForm.value .method QualifiedMethod.parse Sliced.method ∧
    Recognizes FieldForm.spell FieldForm.value .field QualifiedField.parse Sliced.field :=
  ⟨DeclType.recognizes, Signature.recognizes, QualifiedMethod.recognizes, QualifiedField.recognizes⟩

/-- A bad type inside spoils the whole text: the error is that of the method and repeats all of it. -/
example : QualifiedMethod.parse "a.B.m(I[V)V" = .error (.method "a.B.m(I[V)V") := by decide +kernel

end TypeFlow
