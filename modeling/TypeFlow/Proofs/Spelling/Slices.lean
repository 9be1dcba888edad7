import TypeFlow.Proofs.Spelling.Parsing
import TypeFlow.Sum

/-!
# Parsing by byte offsets

A text held as UTF-8 is cut at byte offsets, and an offset beyond the end or
inside a character is a failure. Here the parsers look delimiters up by their
offsets and cut there. They never fail: each offset is that of a delimiter, or
of what follows one, and the delimiters are characters of one byte.
-/

namespace TypeFlow

def byteLength (cs : List Char) : Nat := sumOver Char.utf8Size cs

/-- A text up to an offset and from there on; nothing when the offset is not between two characters. -/
def cut? : List Char → Nat → Option (List Char × List Char)
  | cs, 0 => some ([], cs)
  | [], _ + 1 => none
  | c :: cs, n + 1 =>
    if c.utf8Size ≤ n + 1 then (cut? cs (n + 1 - c.utf8Size)).map fun p => (c :: p.1, p.2) else none

def upTo? (cs : List Char) (n : Nat) : Option (List Char) := (cut? cs n).map Prod.fst

def from? (cs : List Char) (n : Nat) : Option (List Char) := (cut? cs n).map Prod.snd

def slice? (cs : List Char) (m n : Nat) : Option (List Char) := (upTo? cs n).bind fun before => from? before m

def offset? (c : Char) (cs : List Char) : Option Nat :=
  if c ∈ cs then some (byteLength (cs.takeWhile (· ≠ c))) else none

def lastOffset? (c : Char) (cs : List Char) : Option Nat := (splitLast c cs).map fun p => byteLength p.1

section
variable {c : Char} {a b cs rest : List Char} {n : Nat}

theorem cut?_append (a b : List Char) : cut? (a ++ b) (byteLength a) = some (a, b) := by
  induction a with
  | nil => cases b <;> rfl
  | cons c a ih =>
    obtain ⟨n, hn⟩ : ∃ n, byteLength (c :: a) = n + 1 :=
      Nat.exists_eq_succ_of_ne_zero (by simp [byteLength, Nat.ne_of_gt c.utf8Size_pos])
    have hle : c.utf8Size ≤ n + 1 := by
      rw [← hn]
      simp [byteLength]
    have hrest : n + 1 - c.utf8Size = byteLength a := by
      rw [← hn]
      simp [byteLength]
    rw [hn, List.cons_append, cut?, if_pos hle, hrest, ih]
    rfl

theorem eq_append_of_cut? (h : cut? cs n = some (a, b)) : cs = a ++ b ∧ byteLength a = n := by
  induction cs, n using cut?.induct generalizing a with
  | case1 cs =>
    cases cs <;> cases h <;> exact ⟨rfl, rfl⟩
  | case2 n => cases h
  | case3 c cs n hle ih =>
    rw [cut?, if_pos hle] at h
    obtain ⟨p, hp, heq⟩ := Option.map_eq_some_iff.1 h
    cases heq
    obtain ⟨rfl, hn⟩ := ih hp
    refine ⟨rfl, ?_⟩
    simp only [byteLength, sumOver_cons] at hn ⊢
    omega
  | case4 c cs n hle =>
    rw [cut?, if_neg hle] at h
    cases h

theorem utf8ByteSize_ofList (cs : List Char) : (String.ofList cs).utf8ByteSize = byteLength cs := by
  induction cs with
  | nil => rfl
  | cons c cs ih =>
    rw [String.ofList_cons, String.utf8ByteSize_append, ih]
    simp [byteLength]

/-- A text can be cut exactly where it has a valid position as a string. -/
theorem isSome_cut?_iff : (cut? cs n).isSome ↔ String.Pos.Raw.IsValid (String.ofList cs) ⟨n⟩ := by
  rw [String.Pos.Raw.isValid_iff_exists_append, Option.isSome_iff_exists]
  constructor
  · rintro ⟨⟨a, b⟩, h⟩
    obtain ⟨rfl, rfl⟩ := eq_append_of_cut? h
    refine ⟨String.ofList a, String.ofList b, by simp, ?_⟩
    apply String.Pos.Raw.ext
    exact (utf8ByteSize_ofList a).symm
  · rintro ⟨a, b, hab, hn⟩
    have hcs : cs = a.toList ++ b.toList := by simpa using congrArg String.toList hab
    have hlen : n = byteLength a.toList := by
      rw [← utf8ByteSize_ofList, String.ofList_toList]
      exact congrArg String.Pos.Raw.byteIdx hn
    exact ⟨(a.toList, b.toList), by rw [hcs, hlen, cut?_append]⟩

theorem upTo?_append (a b : List Char) : upTo? (a ++ b) (byteLength a) = some a := by
  rw [upTo?, cut?_append]
  rfl

/-- Behind a character of one byte the next offset is fine. -/
theorem from?_append (hc : c.utf8Size = 1) (a b : List Char) : from? (a ++ c :: b) (byteLength a + 1) = some b := by
  have h := cut?_append (a ++ [c]) b
  have hlen : byteLength (a ++ [c]) = byteLength a + 1 := by simp [byteLength, hc]
  rw [List.append_assoc, hlen] at h
  rw [from?, List.cons_append, List.nil_append] at *
  rw [h]
  rfl

theorem from?_one (hc : c.utf8Size = 1) (cs : List Char) : from? (c :: cs) 1 = some cs := from?_append hc [] cs

theorem length_from?_lt (h : from? cs (n + 1) = some rest) : rest.length < cs.length := by
  obtain ⟨⟨a, b⟩, hcut, rfl⟩ := Option.map_eq_some_iff.1 h
  obtain ⟨rfl, hlen⟩ := eq_append_of_cut? hcut
  cases a with
  | nil => simp [byteLength] at hlen
  | cons c a =>
    simp only [List.length_append, List.length_cons]
    omega

theorem offset?_of_not_mem (h : c ∉ cs) : offset? c cs = none := if_neg h

theorem offset?_append (h : c ∉ a) : offset? c (a ++ c :: b) = some (byteLength a) := by
  rw [offset?, if_pos (by simp), takeWhile_ne h]

end

/-! ## The parsers -/

namespace Sliced

/-- Reads one type from the front of a text. The outer option is whether every cut was possible, the inner one
whether there is a type. -/
def read (cs : List Char) : Option (Option (DeclType × List Char)) :=
  match cs.head? with
  | none => some none
  | some c =>
    if c = 'V' then (from? cs 1).map fun rest => some (.void, rest)
    else if c = '[' then
      match h : from? cs 1 with
      | none => none
      | some rest =>
        have : rest.length < cs.length := length_from?_lt h
        (read rest).map fun item? => item?.bind fun p => if p.1 = .void then none else some (.array p.1, p.2)
    else if c = 'L' then
      match offset? ';' cs with
      | none => some none
      | some e => do
        let name ← slice? cs 1 e
        if name.isEmpty then return none
        let rest ← from? cs (e + 1)
        return some (.object (String.ofList (name.map fun c => if c = '/' then '.' else c)), rest)
    else match Primitive.ofLetter? c with
      | none => some none
      | some p => (from? cs 1).map fun rest => some (.primitive p, rest)
termination_by cs.length

theorem read_eq (cs : List Char) : read cs = some (DeclType.read cs) := by
  induction cs with
  | nil => rw [read]; rfl
  | cons c cs ih =>
    have hfrom : c.utf8Size = 1 → from? (c :: cs) 1 = some cs := fun hc => from?_one hc cs
    rw [read, DeclType.read]
    simp only [List.head?_cons]
    by_cases hvoid : c = 'V'
    · rw [if_pos hvoid, if_pos hvoid, hfrom (by rw [hvoid]; rfl)]
      rfl
    rw [if_neg hvoid, if_neg hvoid]
    by_cases hopen : c = '['
    · rw [if_pos hopen, if_pos hopen]
      split
      · next h => cases h.symm.trans (hfrom (by rw [hopen]; rfl))
      · next rest h =>
        cases h.symm.trans (hfrom (by rw [hopen]; rfl))
        rw [ih]
        cases DeclType.read cs <;> rfl
    rw [if_neg hopen, if_neg hopen]
    by_cases hclass : c = 'L'
    · rw [if_pos hclass, if_pos hclass, hclass]
      by_cases hend : ';' ∈ cs
      · obtain ⟨name, rest, rfl, hname⟩ := List.eq_append_cons_of_mem hend
        have hmem : ';' ∉ 'L' :: name := by simp [hname]
        have hoffset := offset?_append (b := rest) hmem
        have hrest : from? ('L' :: name ++ ';' :: rest) (byteLength ('L' :: name) + 1) = some rest :=
          from?_append rfl _ _
        have hslice : slice? ('L' :: name ++ ';' :: rest) 1 (byteLength ('L' :: name)) = some name := by
          rw [slice?, upTo?_append]
          exact from?_one rfl name
        rw [List.cons_append] at hoffset hrest hslice
        simp only [hoffset, hslice, hrest, takeWhile_ne hname, dropWhile_ne hname]
        cases name <;> rfl
      · have hmem : ';' ∉ 'L' :: cs := by simp [hend]
        rw [offset?_of_not_mem hmem, dropWhile_of_not_mem hend]
        cases cs.takeWhile (· ≠ ';') <;> rfl
    rw [if_neg hclass, if_neg hclass]
    cases hp : Primitive.ofLetter? c with
    | none => rfl
    | some p =>
      have hsize : c.utf8Size = 1 := by
        rw [← Primitive.letter_of_ofLetter? hp]
        cases p <;> rfl
      rw [hfrom hsize]
      rfl

theorem length_read_lt {cs rest : List Char} {t : DeclType} (h : read cs = some (some (t, rest))) :
    rest.length < cs.length := by
  rw [read_eq] at h
  exact DeclType.length_read_lt (Option.some.inj h)

def readParams (cs : List Char) : Option (Option (List DeclType × List Char)) :=
  match cs with
  | ')' :: rest => some (some ([], rest))
  | cs =>
    match h : read cs with
    | none => none
    | some none => some none
    | some (some (t, rest)) =>
      if t = .void then some none
      else
        have : rest.length < cs.length := length_read_lt h
        (readParams rest).map fun p? => p?.map fun p => (t :: p.1, p.2)
termination_by cs.length

def type (s : String) : Option (Except Malformed DeclType) := do
  match ← read s.toList with
  | some (t, []) => return .ok t
  | _ => return .error (.type s)

def signature (s : String) : Option (Except Malformed Signature) :=
  match offset? '(' s.toList with
  | none => some (.error (.signature s))
  | some opening => do
    let name ← upTo? s.toList opening
    if name.isEmpty then return .error (.signature s)
    match ← readParams (← from? s.toList (opening + 1)) with
    | none => return .error (.signature s)
    | some (params, rest) =>
      match ← type (String.ofList rest) with
      | .ok result => return .ok ⟨String.ofList name, params, result⟩
      | .error _ => return .error (.signature s)

def method (s : String) : Option (Except Malformed QualifiedMethod) :=
  match offset? '(' s.toList with
  | none => some (.error (.method s))
  | some opening => do
    match lastOffset? '.' (← upTo? s.toList opening) with
    | none => return .error (.method s)
    | some dot =>
      let owner ← upTo? s.toList dot
      if owner.isEmpty then return .error (.method s)
      match ← signature (String.ofList (← from? s.toList (dot + 1))) with
      | .ok sig => return .ok ⟨String.ofList owner, sig⟩
      | .error _ => return .error (.method s)

def field (s : String) : Option (Except Malformed QualifiedField) :=
  match lastOffset? '.' s.toList with
  | none => some (.error (.field s))
  | some dot => do
    let owner ← upTo? s.toList dot
    let name ← from? s.toList (dot + 1)
    if owner.isEmpty || name.isEmpty then return .error (.field s)
    return .ok ⟨String.ofList owner, String.ofList name⟩

/-! ## No cut fails -/

theorem readParams_eq (cs : List Char) : readParams cs = some (Signature.readParams cs) := by
  induction cs using Signature.readParams.induct with
  | case1 rest => rw [readParams, Signature.readParams_close]
  | case2 cs hcs rest hr =>
    rw [readParams.eq_2 cs hcs, Signature.readParams_stuck hcs fun t rest h => by cases hr.symm.trans h; rfl]
    split
    · next h => cases (read_eq cs).symm.trans h
    · rfl
    · next t rest' h =>
      cases hr.symm.trans (Option.some.inj ((read_eq cs).symm.trans h))
      rfl
  | case3 cs hcs t rest hr ht _ ih =>
    rw [readParams.eq_2 cs hcs, Signature.readParams_item hcs hr ht]
    split
    · next h => cases (read_eq cs).symm.trans h
    · next h => cases hr.symm.trans (Option.some.inj ((read_eq cs).symm.trans h))
    · next t' rest' h =>
      cases hr.symm.trans (Option.some.inj ((read_eq cs).symm.trans h))
      rw [if_neg ht, ih]
      rfl
  | case4 cs hcs hr =>
    rw [readParams.eq_2 cs hcs, Signature.readParams_stuck hcs fun t rest h => by cases hr.symm.trans h]
    split
    · next h => cases (read_eq cs).symm.trans h
    · rfl
    · next t' rest' h => cases hr.symm.trans (Option.some.inj ((read_eq cs).symm.trans h))

theorem type_eq (s : String) : type s = some (DeclType.parse s) := by
  unfold type DeclType.parse DeclType.ofText? DeclType.ofChars?
  rw [read_eq]
  cases hr : DeclType.read s.toList with
  | none => rfl
  | some p =>
    obtain ⟨t, rest⟩ := p
    cases rest <;> rfl

theorem signature_eq (s : String) : signature s = some (Signature.parse s) := by
  unfold signature Signature.parse Signature.ofChars?
  by_cases hopen : '(' ∈ s.toList
  · obtain ⟨name, rest, hs, hname⟩ := List.eq_append_cons_of_mem hopen
    have hrest : from? (name ++ '(' :: rest) (byteLength name + 1) = some rest := from?_append rfl _ _
    rw [hs]
    simp only [offset?_append hname, upTo?_append, hrest, takeWhile_ne hname, dropWhile_ne hname, readParams_eq,
      type_eq, DeclType.parse, DeclType.ofText?, String.toList_ofList, Option.bind_eq_bind, Option.bind_some]
    cases name with
    | nil => rfl
    | cons n name =>
      simp only [List.isEmpty_cons, Bool.false_eq_true, if_false]
      cases Signature.readParams rest with
      | none => rfl
      | some p =>
        obtain ⟨params, result⟩ := p
        simp only
        cases DeclType.ofChars? result <;> rfl
  · rw [offset?_of_not_mem hopen, dropWhile_of_not_mem hopen]
    cases s.toList.takeWhile (· ≠ '(') <;> rfl

theorem lastOffset?_append {c : Char} {a b : List Char} (h : c ∉ b) :
    lastOffset? c (a ++ c :: b) = some (byteLength a) := by
  rw [lastOffset?, splitLast_append h]
  rfl

theorem method_eq (s : String) : method s = some (QualifiedMethod.parse s) := by
  unfold method QualifiedMethod.parse QualifiedMethod.ofChars?
  by_cases hopen : '(' ∈ s.toList
  · obtain ⟨head, rest, hs, hhead⟩ := List.eq_append_cons_of_mem hopen
    rw [hs]
    simp only [offset?_append hhead, upTo?_append, takeWhile_ne hhead, dropWhile_ne hhead, Option.bind_eq_bind,
      Option.bind_some]
    cases hlast : splitLast '.' head with
    | none =>
      rw [lastOffset?, hlast]
      rfl
    | some p =>
      obtain ⟨owner, name⟩ := p
      obtain ⟨rfl, hdot⟩ := eq_of_splitLast hlast
      have hup := upTo?_append owner ('.' :: (name ++ '(' :: rest))
      have hfrom : from? (owner ++ '.' :: (name ++ '(' :: rest)) (byteLength owner + 1) =
          some (name ++ '(' :: rest) :=
        from?_append rfl _ _
      rw [lastOffset?_append hdot, List.append_assoc, List.cons_append]
      simp only [hup, hfrom, signature_eq, Signature.parse, String.toList_ofList, Option.bind_some]
      cases owner with
      | nil => rfl
      | cons c owner =>
        simp only [List.isEmpty_cons, Bool.false_eq_true, if_false]
        cases Signature.ofChars? (name ++ '(' :: rest) <;> rfl
  · rw [offset?_of_not_mem hopen, dropWhile_of_not_mem hopen]
    cases splitLast '.' (s.toList.takeWhile (· ≠ '(')) with
    | none => rfl
    | some p =>
      obtain ⟨owner, name⟩ := p
      cases owner <;> rfl

theorem field_eq (s : String) : field s = some (QualifiedField.parse s) := by
  unfold field QualifiedField.parse QualifiedField.ofChars?
  cases hlast : splitLast '.' s.toList with
  | none =>
    rw [lastOffset?, hlast]
    rfl
  | some p =>
    obtain ⟨owner, name⟩ := p
    obtain ⟨hs, hdot⟩ := eq_of_splitLast hlast
    have hfrom : from? (owner ++ '.' :: name) (byteLength owner + 1) = some name := from?_append rfl _ _
    rw [hs, lastOffset?_append hdot]
    simp only [upTo?_append, hfrom, Option.bind_eq_bind, Option.bind_some]
    cases owner <;> cases name <;> rfl

end Sliced

end TypeFlow
