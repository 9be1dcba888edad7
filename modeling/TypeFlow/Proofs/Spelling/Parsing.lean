import TypeFlow.Proofs.Spelling.Grammar

/-!
# Parsing by the grammars

Each reader takes a spelling off the front of a text and gives its value; what
it takes off the front of any text is a spelling. So a text is accepted exactly
when it is spelled by a form, and then the value of that form is given.
-/

namespace TypeFlow

variable {cs rest : List Char}

/-! ## Types -/

theorem ItemForm.read_spell (f : ItemForm) (rest : List Char) :
    DeclType.read (f.spell ++ rest) = some (f.value, rest) := by
  induction f generalizing rest with
  | primitive p =>
    obtain ⟨hvoid, hopen, hclass, -⟩ := p.letter_ne
    simp [spell, value, DeclType.read, hvoid, hopen, hclass, Primitive.ofLetter?_letter]
  | object n =>
    have htake := takeWhile_ne (r := rest) n.unclosed
    have hdrop := dropWhile_ne (r := rest) n.unclosed
    obtain ⟨c, name, hn⟩ := List.exists_cons_of_ne_nil n.chars_ne
    rw [hn] at htake hdrop
    simp only [spell, value, ClassSpelling.className, hn, List.cons_append, List.append_assoc, List.nil_append]
    rw [DeclType.read]
    simp only [← List.cons_append, htake, hdrop]
    rfl
  | array item ih => simp [spell, value, DeclType.read, ih]

theorem TypeForm.read_spell (f : TypeForm) (rest : List Char) :
    DeclType.read (f.spell ++ rest) = some (f.value, rest) := by
  cases f with
  | void => rfl
  | item t => exact t.read_spell rest

/-- What is read off the front of a text is spelled there. -/
theorem exists_form_of_read {t : DeclType} (h : DeclType.read cs = some (t, rest)) :
    ∃ f : TypeForm, cs = f.spell ++ rest ∧ f.value = t := by
  induction cs generalizing t rest with
  | nil => cases h
  | cons c cs ih =>
    rw [DeclType.read] at h
    split at h
    · next hc =>
      cases h
      exact ⟨.void, by rw [hc]; rfl, rfl⟩
    split at h
    · next hc =>
      split at h
      · next item rest' hr =>
        split at h
        · cases h
        · next hitem =>
          cases h
          obtain ⟨f, rfl, rfl⟩ := ih hr
          cases f with
          | void => exact absurd rfl hitem
          | item f => exact ⟨.item (.array f), by rw [hc]; rfl, rfl⟩
      · cases h
    split at h
    · next hc =>
      split at h
      · next n name x rest' htake hdrop =>
        cases h
        have hcs := eq_of_dropWhile_ne hdrop
        have hclosed := not_mem_takeWhile_ne ';' cs
        rw [htake] at hcs hclosed
        exact ⟨.item (.object ⟨n :: name, by simp, hclosed⟩),
          by simp [hc, hcs, TypeForm.spell, ItemForm.spell], rfl⟩
      · cases h
    · obtain ⟨p, hp, heq⟩ := Option.map_eq_some_iff.1 h
      cases heq
      exact ⟨.item (.primitive p), by simp [TypeForm.spell, ItemForm.spell, Primitive.letter_of_ofLetter? hp], rfl⟩

theorem exists_item_of_read {t : DeclType} (h : DeclType.read cs = some (t, rest)) (ht : t ≠ .void) :
    ∃ f : ItemForm, cs = f.spell ++ rest ∧ f.value = t := by
  obtain ⟨f, hcs, rfl⟩ := exists_form_of_read h
  cases f with
  | void => exact absurd rfl ht
  | item f => exact ⟨f, hcs, rfl⟩

theorem DeclType.ofChars?_eq_some {t : DeclType} :
    ofChars? cs = some t ↔ ∃ f : TypeForm, f.spell = cs ∧ f.value = t := by
  constructor
  · intro h
    unfold ofChars? at h
    split at h
    · next hr =>
      cases h
      obtain ⟨f, hcs, hf⟩ := exists_form_of_read hr
      exact ⟨f, by rw [hcs, List.append_nil], hf⟩
    · cases h
  · rintro ⟨f, rfl, rfl⟩
    have hr := f.read_spell []
    rw [List.append_nil] at hr
    rw [ofChars?, hr]

/-! ## Signatures -/

namespace Signature

theorem readParams_close (rest : List Char) : readParams (')' :: rest) = some ([], rest) := by
  rw [readParams]

theorem readParams_item {t : DeclType} (hcs : ∀ rest, cs = ')' :: rest → False)
    (h : DeclType.read cs = some (t, rest)) (ht : t ≠ .void) :
    readParams cs = (readParams rest).map fun p => (t :: p.1, p.2) := by
  rw [readParams.eq_2 cs hcs]
  split
  · next t' rest' h' =>
    cases h.symm.trans h'
    simp [ht]
  · next h' => cases h.symm.trans h'

theorem readParams_stuck (hcs : ∀ rest, cs = ')' :: rest → False)
    (h : ∀ t rest, DeclType.read cs = some (t, rest) → t = .void) : readParams cs = none := by
  rw [readParams.eq_2 cs hcs]
  split
  · next t' rest' h' => simp [h _ _ h']
  · rfl

end Signature

theorem readParams_spell (fs : List ItemForm) (rest : List Char) :
    Signature.readParams (fs.flatMap ItemForm.spell ++ ')' :: rest) = some (fs.map ItemForm.value, rest) := by
  induction fs with
  | nil => exact Signature.readParams_close rest
  | cons f fs ih =>
    obtain ⟨c, l, hf, -, hc⟩ := f.head_spell
    rw [List.flatMap_cons, List.append_assoc]
    rw [Signature.readParams_item ?_ (f.read_spell _) f.value_ne_void, ih]
    · rfl
    · intro rest' h
      rw [hf] at h
      exact hc (List.cons.inj h).1

theorem exists_params_of_read {ts : List DeclType} (h : Signature.readParams cs = some (ts, rest)) :
    ∃ fs : List ItemForm, cs = fs.flatMap ItemForm.spell ++ ')' :: rest ∧ fs.map ItemForm.value = ts := by
  induction cs using Signature.readParams.induct generalizing ts with
  | case1 l =>
    rw [Signature.readParams_close] at h
    cases h
    exact ⟨[], rfl, rfl⟩
  | case2 cs hcs l hr =>
    rw [Signature.readParams_stuck hcs fun t rest h => by cases hr.symm.trans h; rfl] at h
    cases h
  | case3 cs hcs t l hr ht _ ih =>
    rw [Signature.readParams_item hcs hr ht] at h
    obtain ⟨p, hp, heq⟩ := Option.map_eq_some_iff.1 h
    cases heq
    obtain ⟨f, rfl, rfl⟩ := exists_item_of_read hr ht
    obtain ⟨fs, rfl, hfs⟩ := ih hp
    exact ⟨f :: fs, by simp, by simp [hfs]⟩
  | case4 cs hcs hr =>
    rw [Signature.readParams_stuck hcs fun t rest h => by cases hr.symm.trans h] at h
    cases h

theorem Signature.ofChars?_eq_some {sig : Signature} :
    ofChars? cs = some sig ↔ ∃ f : SignatureForm, f.spell = cs ∧ f.value = sig := by
  constructor
  · intro h
    unfold ofChars? at h
    split at h
    · next n name x rest htake hdrop =>
      have hcs := eq_of_dropWhile_ne hdrop
      have hopen := not_mem_takeWhile_ne '(' cs
      rw [htake] at hcs hopen
      split at h
      · next params rest' hparams =>
        obtain ⟨result, hresult, rfl⟩ := Option.map_eq_some_iff.1 h
        obtain ⟨fs, rfl, rfl⟩ := exists_params_of_read hparams
        obtain ⟨f, rfl, rfl⟩ := DeclType.ofChars?_eq_some.1 hresult
        exact ⟨⟨n :: name, fs, f, by simp, hopen⟩, hcs.symm, rfl⟩
      · cases h
    · cases h
  · rintro ⟨f, rfl, rfl⟩
    obtain ⟨n, name, hname⟩ := List.exists_cons_of_ne_nil f.name_ne
    have htake := takeWhile_ne (r := f.spellTypes) f.name_unopened
    have hdrop := dropWhile_ne (r := f.spellTypes) f.name_unopened
    have hresult : DeclType.ofChars? f.result.spell = some f.result.value :=
      DeclType.ofChars?_eq_some.2 ⟨f.result, rfl, rfl⟩
    unfold ofChars?
    rw [SignatureForm.spell, htake, hdrop, hname]
    simp only [SignatureForm.spellTypes, readParams_spell, hresult, SignatureForm.value, hname]
    rfl

/-! ## Qualified members -/

theorem QualifiedMethod.ofChars?_eq_some {m : QualifiedMethod} :
    ofChars? cs = some m ↔ ∃ f : MethodForm, f.spell = cs ∧ f.value = m := by
  constructor
  · intro h
    unfold ofChars? at h
    split at h
    · next c owner name x rest hlast hdrop =>
      obtain ⟨sig, hsig, rfl⟩ := Option.map_eq_some_iff.1 h
      obtain ⟨f, hf, rfl⟩ := Signature.ofChars?_eq_some.1 hsig
      obtain ⟨hhead, hdot⟩ := eq_of_splitLast hlast
      have hcs := eq_of_dropWhile_ne hdrop
      have hopen := not_mem_takeWhile_ne '(' cs
      rw [hhead] at hcs hopen
      simp only [List.mem_append, not_or, List.mem_cons] at hopen
      -- the name has no parenthesis, so it is the whole name of the signature
      obtain ⟨rfl, htypes⟩ := append_cons_inj f.name_unopened hopen.2.2 hf
      have howner : '(' ∉ c :: owner := by simpa using hopen.1
      exact ⟨⟨c :: owner, f, by simp, howner, hdot⟩, by simp [MethodForm.spell, hf, hcs], rfl⟩
    · cases h
  · rintro ⟨f, rfl, rfl⟩
    obtain ⟨c, owner, howner⟩ := List.exists_cons_of_ne_nil f.owner_ne
    have htake := takeWhile_ne (r := f.signature.spellTypes) f.unopened
    have hdrop := dropWhile_ne (r := f.signature.spellTypes) f.unopened
    have hsig : Signature.ofChars? (f.signature.name ++ '(' :: f.signature.spellTypes) = some f.signature.value :=
      Signature.ofChars?_eq_some.2 ⟨f.signature, rfl, rfl⟩
    unfold ofChars?
    rw [f.spell_eq, htake, hdrop, splitLast_append f.name_undotted, howner]
    simp only [hsig, MethodForm.value, howner]
    rfl

theorem QualifiedField.ofChars?_eq_some {m : QualifiedField} :
    ofChars? cs = some m ↔ ∃ f : FieldForm, f.spell = cs ∧ f.value = m := by
  constructor
  · intro h
    unfold ofChars? at h
    split at h
    · next c owner n name hlast =>
      cases h
      obtain ⟨hcs, hdot⟩ := eq_of_splitLast hlast
      exact ⟨⟨c :: owner, n :: name, by simp, by simp, hdot⟩, hcs.symm, rfl⟩
    · cases h
  · rintro ⟨f, rfl, rfl⟩
    obtain ⟨c, owner, howner⟩ := List.exists_cons_of_ne_nil f.owner_ne
    obtain ⟨n, name, hname⟩ := List.exists_cons_of_ne_nil f.name_ne
    unfold ofChars?
    rw [FieldForm.spell, splitLast_append f.name_undotted, FieldForm.value, howner, hname]

end TypeFlow
