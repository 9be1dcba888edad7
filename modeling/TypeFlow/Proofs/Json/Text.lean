import TypeFlow.Json.Reader
import TypeFlow.Json.Writer

/-!
# Texts and numbers as written

A text is written with escapes, and each is read as the character it was
written for. A number is written with digits, and they are read up to the
first character that no number goes on with.
-/

namespace TypeFlow

namespace Json

variable {c : Char} {cs rest : List Char}

/-! ## Texts -/

theorem readPieces_quote (rest : List Char) : readPieces ('"' :: rest) = some ([], rest) := by rw [readPieces]

theorem readPieces_plain (hquote : c ≠ '"') (hescape : c ≠ '\\') (hlow : 32 ≤ c.toNat) (rest : List Char) :
    readPieces (c :: rest) = (readPieces rest).map fun p => (.char c :: p.1, p.2) := by
  rw [readPieces]
  · rw [if_neg (by simp [hescape, hlow])]
  · exact hquote
  · intro _ _ _ _ _ h
    exact absurd h hescape
  · intro _ _ h
    exact absurd h hescape

theorem readPieces_short {e : Char} (h : shortEscape? e = some c) (rest : List Char) :
    readPieces ('\\' :: e :: rest) = (readPieces rest).map fun p => (.char c :: p.1, p.2) := by
  rw [readPieces]
  · rw [h]
  · rintro _ _ _ _ _ rfl
    cases h

theorem readPieces_unit {a b d e : Char} {n : Nat} (h : unit? a b d e = some n) (rest : List Char) :
    readPieces ('\\' :: 'u' :: a :: b :: d :: e :: rest) =
      (readPieces rest).map fun p => (.ofUnit n :: p.1, p.2) := by
  rw [readPieces, h]

/-- The digits of a control character give its number. -/
theorem unit?_hexDigit :
    ∀ n < 32, unit? '0' '0' (hexDigit (n / 16)) (hexDigit (n % 16)) = some n := by decide +kernel

theorem ofUnit_of_lt {n : Nat} (h : n < 32) : Piece.ofUnit n = .char (Char.ofNat n) := by
  have hhigh : isHighHalf n = false := by simp [isHighHalf]; omega
  have hlow : isLowHalf n = false := by simp [isLowHalf]; omega
  simp [Piece.ofUnit, hhigh, hlow]

theorem readPieces_escape (c : Char) (rest : List Char) :
    readPieces (escape c ++ rest) = (readPieces rest).map fun p => (.char c :: p.1, p.2) := by
  unfold escape
  split
  · next h => exact readPieces_short (by rw [h]; rfl) rest
  split
  · next h => exact readPieces_short (by rw [h]; rfl) rest
  split
  · next h => exact readPieces_short (by rw [h]; rfl) rest
  split
  · next h => exact readPieces_short (by rw [h]; rfl) rest
  split
  · next h => exact readPieces_short (by rw [h]; rfl) rest
  split
  · next h => exact readPieces_short (by rw [h]; rfl) rest
  split
  · next h => exact readPieces_short (by rw [h]; rfl) rest
  next hquote hescape _ _ _ _ _ =>
    split
    · next h =>
      have hread := readPieces_unit (unit?_hexDigit c.toNat h) rest
      rw [ofUnit_of_lt h, Char.ofNat_toNat] at hread
      exact hread
    · next h => exact readPieces_plain hquote hescape (Nat.le_of_not_lt h) rest

theorem readPieces_escapes (cs rest : List Char) :
    readPieces (cs.flatMap escape ++ '"' :: rest) = some (cs.map .char, rest) := by
  induction cs with
  | nil => exact readPieces_quote rest
  | cons c cs ih => simp [readPieces_escape, ih]

theorem joinHalves?_chars (cs : List Char) : joinHalves? (cs.map .char) = some cs := by
  induction cs with
  | nil => rfl
  | cons c cs ih => simp [joinHalves?, ih]

theorem textOf?_chars (s : String) : textOf? (s.toList.map .char) = some s := by
  simp [textOf?, joinHalves?_chars]

/-! ## Numbers -/

/-- What may stand behind a number: nothing, or a character that no number goes on with. -/
def Ends (rest : List Char) : Prop := ∀ c ∈ rest.head?, c.isDigit = false ∧ c ≠ '.' ∧ c ≠ 'e' ∧ c ≠ 'E'

theorem Ends.nil : Ends [] := by
  intro c h
  cases h

theorem Ends.cons (h : c.isDigit = false ∧ c ≠ '.' ∧ c ≠ 'e' ∧ c ≠ 'E') (rest : List Char) : Ends (c :: rest) := by
  intro d hd
  cases hd
  exact h

theorem isDigit_of_mem_digits {n : Nat} (h : c ∈ digits n) : c.isDigit = true :=
  Nat.isDigit_of_mem_toDigits (by omega) (by omega) h

theorem digits_ne_nil (n : Nat) : digits n ≠ [] := Nat.toDigits_ne_nil

theorem ofDigits_digits (n : Nat) : ofDigits (digits n) = n := Nat.ofDigitChars_ten_toDigits

theorem digitChar_ne_zero : ∀ n < 10, 0 < n → n.digitChar ≠ '0' := by decide

/-- Only the digits of zero begin with a zero. -/
theorem head?_digits_ne {n : Nat} (h : 0 < n) : (digits n).head? ≠ some '0' := by
  induction n using Nat.strongRecOn with
  | _ n ih =>
    unfold digits at *
    rw [Nat.toDigits_eq_if (by omega)]
    split
    · next hn => simpa using digitChar_ne_zero n hn h
    · next hn =>
      obtain ⟨c, cs, hcs⟩ := List.exists_cons_of_ne_nil (Nat.toDigits_ne_nil (b := 10) (n := n / 10))
      have hhead := ih (n / 10) (by omega) (by omega)
      rw [hcs] at hhead ⊢
      exact hhead

theorem takeWhile_digits (n : Nat) (h : Ends rest) : (digits n ++ rest).takeWhile Char.isDigit = digits n := by
  rw [List.takeWhile_append_of_pos fun c hc => isDigit_of_mem_digits hc]
  cases rest with
  | nil => simp
  | cons c rest => simp [(h c rfl).1]

theorem dropWhile_digits (n : Nat) (h : Ends rest) : (digits n ++ rest).dropWhile Char.isDigit = rest := by
  rw [List.dropWhile_append_of_pos fun c hc => isDigit_of_mem_digits hc]
  cases rest with
  | nil => simp
  | cons c rest => simp [(h c rfl).1]

theorem readWhole_digits (n : Nat) (h : Ends rest) : readWhole (digits n ++ rest) = some (digits n, rest) := by
  unfold readWhole
  rw [takeWhile_digits n h, dropWhile_digits n h]
  split
  · next hnil => exact absurd hnil (digits_ne_nil n)
  · next hzero =>
    rcases Nat.eq_zero_or_pos n with rfl | hn
    · cases hzero
    · exact absurd (by rw [hzero]; rfl) (head?_digits_ne hn)
  · rfl

theorem readFraction_end (h : Ends rest) : readFraction rest = some (none, rest) := by
  unfold readFraction
  split
  · next rest => exact absurd rfl (h '.' rfl).2.1
  · rfl

theorem readExponent_end (h : Ends rest) : readExponent rest = some (none, rest) := by
  unfold readExponent
  split
  · next c rest =>
    obtain ⟨-, -, he, hE⟩ := h c rfl
    rw [if_neg (by simp [he, hE])]
  · rfl

theorem readNumber_digits {n : Nat} (hn : n < wordBound) (h : Ends rest) :
    readNumber (digits n ++ rest) = some (nat n, rest) := by
  obtain ⟨c, ds, hc⟩ := List.exists_cons_of_ne_nil (digits_ne_nil n)
  have hsign : c ≠ '-' := by
    rintro rfl
    exact absurd (isDigit_of_mem_digits (hc ▸ List.mem_cons_self)) (by decide)
  have hwhole := readWhole_digits n h
  unfold readNumber
  split
  next negative cs heq =>
    rw [hc, List.cons_append] at heq hwhole
    split at heq
    · next hcs => exact absurd (List.cons.inj hcs).1 hsign
    · cases heq
      simp [hwhole, readFraction_end h, readExponent_end h, ← hc, ofDigits_digits, hn]

end Json

end TypeFlow
