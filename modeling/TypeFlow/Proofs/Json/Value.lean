import TypeFlow.Proofs.Json.Text

/-!
# Values are read as written

A value may be laid out in several ways, which differ in the blanks between its
parts; the compact and the indented form are two of them. In every layout it is
read as the value it was written for. The induction is on the value, with
anything behind it that a number does not run into.
-/

namespace TypeFlow

namespace Json

/-- The values that stand for themselves: numbers of 64 bits and texts that a string can hold. -/
inductive Plain : Json → Prop
  | null : Plain null
  | bool (b : Bool) : Plain (bool b)
  | nat {n : Nat} (h : n < wordBound) : Plain (nat n)
  | text (s : String) : Plain (text s)
  | array {items : List Json} (h : ∀ j ∈ items, Plain j) : Plain (array items)
  | object {members : List (String × Json)} (h : ∀ m ∈ members, Plain m.2) : Plain (object members)

/-! ## Layouts -/

/-- Where the blanks of a document go: in front of what begins or ends at a level of nesting, and behind a colon. -/
structure Layout where
  gap : Nat → List Char
  space : List Char
  gap_blank : ∀ level, ∀ c ∈ gap level, isBlank c = true
  space_blank : ∀ c ∈ space, isBlank c = true

def Layout.compact : Layout := ⟨fun _ => [], [], by simp, by simp⟩

def Layout.indented : Layout where
  gap := newline
  space := [' ']
  gap_blank level c hc := by
    rcases List.mem_cons.1 hc with rfl | hc
    · rfl
    · rw [(List.mem_replicate.1 hc).2]
      rfl
  space_blank c hc := by
    rw [List.mem_singleton.1 hc]
    rfl

mutual

def write (l : Layout) (level : Nat) : Json → List Char
  | array (j :: rest) => '[' :: l.gap (level + 1) ++ j.write l (level + 1) ++ writeItems l level rest
  | object ((name, j) :: rest) =>
    '\x7b' :: l.gap (level + 1) ++ quote name ++ ':' :: l.space ++ j.write l (level + 1) ++
      writeMembers l level rest
  | j => j.print

def writeItems (l : Layout) (level : Nat) : List Json → List Char
  | [] => l.gap level ++ [']']
  | j :: rest => ',' :: l.gap (level + 1) ++ j.write l (level + 1) ++ writeItems l level rest

def writeMembers (l : Layout) (level : Nat) : List (String × Json) → List Char
  | [] => l.gap level ++ ['\x7d']
  | (name, j) :: rest =>
    ',' :: l.gap (level + 1) ++ quote name ++ ':' :: l.space ++ j.write l (level + 1) ++ writeMembers l level rest

end

section
variable {l : Layout} {level : Nat} {items : List Json} {members : List (String × Json)}

theorem print_array (j : Json) (items : List Json) :
    (array (j :: items)).print = '[' :: j.print ++ printItems items := rfl

theorem print_object (name : String) (j : Json) (members : List (String × Json)) :
    (object ((name, j) :: members)).print = '\x7b' :: quote name ++ ':' :: j.print ++ printMembers members := rfl

theorem writeItems_compact (h : ∀ j ∈ items, ∀ level, j.write .compact level = j.print) :
    writeItems .compact level items = printItems items := by
  induction items with
  | nil => rw [writeItems, printItems]; rfl
  | cons j items ih =>
    rw [List.forall_mem_cons] at h
    rw [writeItems, printItems, h.1, ih h.2]
    rfl

theorem writeMembers_compact (h : ∀ m ∈ members, ∀ level, m.2.write .compact level = m.2.print) :
    writeMembers .compact level members = printMembers members := by
  induction members with
  | nil => rw [writeMembers, printMembers]; rfl
  | cons m members ih =>
    rw [List.forall_mem_cons] at h
    rw [writeMembers, printMembers, h.1, ih h.2]
    simp [Layout.compact]

theorem write_compact {j : Json} (h : j.Plain) (level : Nat) : j.write .compact level = j.print := by
  induction h generalizing level with
  | null => simp [write]
  | bool b => simp [write]
  | nat h => simp [write]
  | text s => simp [write]
  | @array items h ih =>
    cases items with
    | nil => simp [write]
    | cons j items =>
      rw [List.forall_mem_cons] at ih
      rw [write, print_array, ih.1, writeItems_compact ih.2]
      rfl
  | @object members h ih =>
    cases members with
    | nil => simp [write]
    | cons m members =>
      rw [List.forall_mem_cons] at ih
      rw [write, print_object, ih.1, writeMembers_compact ih.2]
      simp [Layout.compact]

theorem writeItems_indented (h : ∀ j ∈ items, ∀ level, j.write .indented level = j.indent level) :
    writeItems .indented level items = indentItems level items := by
  induction items with
  | nil => rw [writeItems, indentItems]; rfl
  | cons j items ih =>
    rw [List.forall_mem_cons] at h
    rw [writeItems, indentItems, h.1, ih h.2]
    rfl

theorem writeMembers_indented (h : ∀ m ∈ members, ∀ level, m.2.write .indented level = m.2.indent level) :
    writeMembers .indented level members = indentMembers level members := by
  induction members with
  | nil => rw [writeMembers, indentMembers]; rfl
  | cons m members ih =>
    rw [List.forall_mem_cons] at h
    rw [writeMembers, indentMembers, h.1, ih h.2]
    simp [Layout.indented]

theorem write_indented {j : Json} (h : j.Plain) (level : Nat) : j.write .indented level = j.indent level := by
  induction h generalizing level with
  | null => simp [write, indent]
  | bool b => simp [write, indent]
  | nat h => simp [write, indent]
  | text s => simp [write, indent]
  | @array items h ih =>
    cases items with
    | nil => simp [write, indent]
    | cons j items =>
      rw [List.forall_mem_cons] at ih
      rw [write, indent, ih.1, writeItems_indented ih.2]
      rfl
  | @object members h ih =>
    cases members with
    | nil => simp [write, indent]
    | cons m members =>
      rw [List.forall_mem_cons] at ih
      rw [write, indent, ih.1, writeMembers_indented ih.2]
      simp [Layout.indented]

end

/-! ## Blanks -/

section
variable {b cs rest : List Char} {c : Char}

theorem skipBlanks_append (h : ∀ c ∈ b, isBlank c = true) (cs : List Char) : skipBlanks (b ++ cs) = skipBlanks cs :=
  List.dropWhile_append_of_pos h

theorem skipBlanks_cons (h : isBlank c = false) (cs : List Char) : skipBlanks (c :: cs) = c :: cs := by
  simp [skipBlanks, h]

theorem Ends.of_blank (h : isBlank c = true) (rest : List Char) : Ends (c :: rest) := by
  apply Ends.cons
  simp only [isBlank, Bool.or_eq_true, decide_eq_true_eq] at h
  rcases h with ((rfl | rfl) | rfl) | rfl <;> decide

theorem isBlank_of_isDigit (h : c.isDigit = true) : isBlank c = false := by
  cases hb : isBlank c with
  | false => rfl
  | true => exact absurd h (by simp [(Ends.of_blank hb [] c rfl).1])

theorem Ends.append (hb : ∀ c ∈ b, isBlank c = true) (h : Ends rest) : Ends (b ++ rest) := by
  cases b with
  | nil => exact h
  | cons c b => exact .of_blank (hb c List.mem_cons_self) (b ++ rest)

theorem readValue_blanks (h : ∀ c ∈ b, isBlank c = true) (fuel : Nat) (cs : List Char) :
    readValue fuel (b ++ cs) = readValue fuel cs := by
  cases fuel with
  | zero => rw [readValue, readValue]
  | succ fuel => rw [readValue, readValue, skipBlanks_append h]

theorem readItems_blanks (h : ∀ c ∈ b, isBlank c = true) (fuel : Nat) (cs : List Char) :
    readItems fuel (b ++ cs) = readItems fuel cs := by
  cases fuel with
  | zero => rw [readItems, readItems]
  | succ fuel => rw [readItems, readItems, readValue_blanks h]

theorem readMembers_blanks (h : ∀ c ∈ b, isBlank c = true) (fuel : Nat) (cs : List Char) :
    readMembers fuel (b ++ cs) = readMembers fuel cs := by
  cases fuel with
  | zero => rw [readMembers, readMembers]
  | succ fuel => rw [readMembers, readMembers, skipBlanks_append h]

end

/-! ## Reading a layout -/

section
variable {l : Layout} {level fuel : Nat} {items : List Json} {members : List (String × Json)} {rest : List Char}

theorem write_null : null.write l level = ['n', 'u', 'l', 'l'] := rfl

theorem write_bool (b : Bool) :
    (bool b).write l level = if b then ['t', 'r', 'u', 'e'] else ['f', 'a', 'l', 's', 'e'] := by cases b <;> rfl

theorem write_nat (n : Nat) : (nat n).write l level = digits n := rfl

theorem write_text (s : String) : (text s).write l level = quote s := rfl

theorem write_array_cons (j : Json) (items : List Json) : (array (j :: items)).write l level =
    '[' :: l.gap (level + 1) ++ j.write l (level + 1) ++ writeItems l level items := rfl

theorem write_object_cons (name : String) (j : Json) (members : List (String × Json)) :
    (object ((name, j) :: members)).write l level = '\x7b' :: l.gap (level + 1) ++ quote name ++
      ':' :: l.space ++ j.write l (level + 1) ++ writeMembers l level members := rfl

/-- A value is never taken for the end of an array, or for a blank. -/
theorem Plain.head_write {j : Json} (h : j.Plain) (l : Layout) (level : Nat) :
    ∃ c cs, j.write l level = c :: cs ∧ isBlank c = false ∧ c ≠ ']' := by
  cases h with
  | null => exact ⟨'n', _, write_null, by decide, by decide⟩
  | bool b => cases b <;> exact ⟨_, _, write_bool _, by decide, by decide⟩
  | @nat n h =>
    obtain ⟨c, cs, hc⟩ := List.exists_cons_of_ne_nil (digits_ne_nil n)
    have hdigit : c.isDigit = true := isDigit_of_mem_digits (hc ▸ List.mem_cons_self)
    refine ⟨c, cs, hc, isBlank_of_isDigit hdigit, ?_⟩
    rintro rfl
    cases hdigit
  | text s => exact ⟨'"', _, rfl, by decide, by decide⟩
  | @array items h => cases items <;> exact ⟨'[', _, rfl, by decide, by decide⟩
  | @object members h => cases members <;> exact ⟨'\x7b', _, rfl, by decide, by decide⟩

def ReadsBack (l : Layout) (j : Json) : Prop :=
  ∀ level fuel rest, (j.write l level).length ≤ fuel → Ends rest →
    readValue fuel (j.write l level ++ rest) = some (j, rest)

theorem readItems_write {j : Json} (h : ∀ i ∈ j :: items, ReadsBack l i)
    (hfuel : (j.write l (level + 1) ++ writeItems l level items).length ≤ fuel) (rest : List Char) :
    readItems fuel (j.write l (level + 1) ++ (writeItems l level items ++ rest)) = some (j :: items, rest) := by
  induction items generalizing j fuel with
  | nil =>
    simp only [writeItems, List.length_append, List.length_singleton] at hfuel
    obtain ⟨fuel, rfl⟩ : ∃ f, fuel = f + 1 := Nat.exists_eq_succ_of_ne_zero (by omega)
    have hends : Ends (l.gap level ++ ']' :: rest) := (Ends.cons (by decide) rest).append (l.gap_blank level)
    have hread := h j List.mem_cons_self (level + 1) fuel _ (by omega) hends
    rw [readItems, writeItems, List.append_assoc, List.singleton_append, hread]
    simp only [skipBlanks_append (l.gap_blank level), skipBlanks_cons (c := ']') (by decide)]
  | cons i items ih =>
    rw [List.forall_mem_cons] at h
    simp only [writeItems, List.length_append, List.length_cons] at hfuel
    obtain ⟨fuel, rfl⟩ : ∃ f, fuel = f + 1 := Nat.exists_eq_succ_of_ne_zero (by omega)
    have hlen : (i.write l (level + 1) ++ writeItems l level items).length ≤ fuel := by
      simp only [List.length_append]
      omega
    have hmore := ih h.2 hlen
    simp only [writeItems, List.append_assoc, List.cons_append]
    rw [readItems, h.1 (level + 1) fuel _ (by omega) (Ends.cons (by decide) _)]
    simp only [skipBlanks_cons (c := ',') (by decide), readItems_blanks (l.gap_blank (level + 1)), hmore]
    rfl

theorem readName_write (name : String) (rest : List Char) :
    readName (name.toList.flatMap escape ++ '"' :: ':' :: rest) = some (some name, rest) := by
  unfold readName
  rw [readPieces_escapes]
  simp only [skipBlanks_cons (c := ':') (by decide), textOf?_chars]

theorem readMembers_last {name : String} {j : Json} {cs more : List Char}
    (hread : readValue fuel cs = some (j, more)) (hclose : skipBlanks more = '\x7d' :: rest) :
    readMembers (fuel + 1) (quote name ++ ':' :: (l.space ++ cs)) = some ([(some name, j)], rest) := by
  rw [readMembers, quote]
  simp only [List.append_assoc, List.cons_append, List.nil_append, skipBlanks_cons (c := '"') (by decide),
    readName_write, readValue_blanks l.space_blank, hread, hclose]

theorem readMembers_more {name : String} {j : Json} {cs more : List Char}
    (hread : readValue fuel cs = some (j, more)) (hcomma : skipBlanks more = ',' :: rest) :
    readMembers (fuel + 1) (quote name ++ ':' :: (l.space ++ cs)) =
      (readMembers fuel rest).map fun p => ((some name, j) :: p.1, p.2) := by
  rw [readMembers, quote]
  simp only [List.append_assoc, List.cons_append, List.nil_append, skipBlanks_cons (c := '"') (by decide),
    readName_write, readValue_blanks l.space_blank, hread, hcomma]

theorem readMembers_write {name : String} {j : Json} (h : ∀ m ∈ (name, j) :: members, ReadsBack l m.2)
    (hfuel :
      (quote name ++ ':' :: (l.space ++ (j.write l (level + 1) ++ writeMembers l level members))).length ≤ fuel)
    (rest : List Char) :
    readMembers fuel
        (quote name ++ ':' :: (l.space ++ (j.write l (level + 1) ++ (writeMembers l level members ++ rest)))) =
      some (((name, j) :: members).map fun m => (some m.1, m.2), rest) := by
  induction members generalizing name j fuel with
  | nil =>
    simp only [writeMembers, List.length_append, List.length_cons] at hfuel
    obtain ⟨fuel, rfl⟩ : ∃ f, fuel = f + 1 := Nat.exists_eq_succ_of_ne_zero (by omega)
    have hends : Ends (l.gap level ++ '\x7d' :: rest) := (Ends.cons (by decide) rest).append (l.gap_blank level)
    have hread := h (name, j) List.mem_cons_self (level + 1) fuel _ (by simp only; omega) hends
    rw [writeMembers, List.append_assoc, List.singleton_append]
    rw [readMembers_last hread (by rw [skipBlanks_append (l.gap_blank level), skipBlanks_cons (by decide)])]
    rfl
  | cons m members ih =>
    rw [List.forall_mem_cons] at h
    simp only [writeMembers, List.length_append, List.length_cons] at hfuel
    obtain ⟨fuel, rfl⟩ : ∃ f, fuel = f + 1 := Nat.exists_eq_succ_of_ne_zero (by omega)
    have hlen :
        (quote m.1 ++ ':' :: (l.space ++ (m.2.write l (level + 1) ++ writeMembers l level members))).length ≤
          fuel := by
      simp only [List.length_append, List.length_cons]
      omega
    have hmore := ih h.2 hlen
    simp only [writeMembers, List.append_assoc, List.cons_append]
    rw [readMembers_more (h.1 (level + 1) fuel _ (by simp only; omega) (Ends.cons (by decide) _))
      (skipBlanks_cons (by decide) _), readMembers_blanks (l.gap_blank (level + 1)), hmore]
    rfl

theorem ofMembers_some (members : List (String × Json)) :
    ofMembers (members.map fun m => (some m.1, m.2)) = object members := by
  have hall :
      (members.map fun m => ((some m.1, m.2) : Option String × Json)).all (fun m => m.1.isSome) = true := by
    simp
  rw [ofMembers, if_pos hall, List.filterMap_map]
  congr 1
  exact List.filterMap_some

theorem readValue_digits {n : Nat} (hn : n < wordBound) (h : Ends rest) :
    readValue (fuel + 1) (digits n ++ rest) = some (nat n, rest) := by
  have hnumber := readNumber_digits hn h
  obtain ⟨c, cs, hc⟩ := List.exists_cons_of_ne_nil (digits_ne_nil n)
  have hdigit : c.isDigit = true := isDigit_of_mem_digits (hc ▸ List.mem_cons_self)
  rw [hc, List.cons_append] at hnumber ⊢
  rw [readValue, skipBlanks_cons (isBlank_of_isDigit hdigit)]
  -- no other value begins with a digit
  split
  iterate 6
    next heq =>
      rw [(List.cons.inj heq).1] at hdigit
      cases hdigit
  exact hnumber

theorem readValue_array {cs : List Char} (h : ∀ rest, skipBlanks cs = ']' :: rest → False) :
    readValue (fuel + 1) ('[' :: cs) =
      (readItems fuel (skipBlanks cs)).map fun (items, rest) => (array items, rest) := by
  rw [readValue, skipBlanks_cons (by decide)]
  simp only

theorem readValue_object {cs : List Char} (h : ∀ rest, skipBlanks cs = '\x7d' :: rest → False) :
    readValue (fuel + 1) ('\x7b' :: cs) =
      (readMembers fuel (skipBlanks cs)).map fun (members, rest) => (ofMembers members, rest) := by
  rw [readValue, skipBlanks_cons (by decide)]
  simp only

theorem Plain.readsBack {j : Json} (h : j.Plain) (l : Layout) : ReadsBack l j := by
  induction h with
  | null =>
    rintro level (_ | fuel) rest hfuel -
    · cases hfuel
    · rfl
  | bool b =>
    rintro level (_ | fuel) rest hfuel -
    · cases b <;> cases hfuel
    · cases b <;> rfl
  | nat h =>
    rintro level (_ | fuel) rest hfuel hrest
    · rw [write_nat, Nat.le_zero, List.length_eq_zero_iff] at hfuel
      exact absurd hfuel (digits_ne_nil _)
    · exact readValue_digits h hrest
  | text s =>
    rintro level (_ | fuel) rest hfuel -
    · cases hfuel
    · rw [write_text, quote, readValue]
      simp only [List.append_assoc, List.cons_append, List.nil_append, skipBlanks_cons (c := '"') (by decide),
        readPieces_escapes, Option.map_some, textOf?_chars]
  | @array items h ih =>
    rintro level (_ | fuel) rest hfuel -
    · cases items <;> cases hfuel
    cases items with
    | nil => rfl
    | cons j items =>
      obtain ⟨c, cs, hc, hblank, hclose⟩ := (h j List.mem_cons_self).head_write l (level + 1)
      have hskip : ∀ more, skipBlanks (j.write l (level + 1) ++ more) = j.write l (level + 1) ++ more := by
        intro more
        rw [hc, List.cons_append, skipBlanks_cons hblank]
      have hlen : (j.write l (level + 1) ++ writeItems l level items).length ≤ fuel := by
        simp only [write_array_cons, List.length_append, List.length_cons] at hfuel ⊢
        omega
      have hitems := readItems_write ih hlen rest
      simp only [write_array_cons, List.append_assoc, List.cons_append]
      rw [readValue_array, skipBlanks_append (l.gap_blank (level + 1)), hskip, hitems]
      · rfl
      · intro more heq
        rw [skipBlanks_append (l.gap_blank (level + 1)), hskip, hc] at heq
        exact hclose (List.cons.inj heq).1
  | @object members h ih =>
    rintro level (_ | fuel) rest hfuel -
    · cases members <;> cases hfuel
    cases members with
    | nil => rfl
    | cons m members =>
      obtain ⟨name, j⟩ := m
      have hskip : ∀ more, skipBlanks (quote name ++ more) = quote name ++ more := by
        intro more
        rw [quote, List.cons_append, List.cons_append, skipBlanks_cons (by decide)]
      have hlen :
          (quote name ++ ':' :: (l.space ++ (j.write l (level + 1) ++ writeMembers l level members))).length ≤
            fuel := by
        simp only [write_object_cons, List.length_append, List.length_cons] at hfuel ⊢
        omega
      have hmembers := readMembers_write ih hlen rest
      simp only [write_object_cons, List.append_assoc, List.cons_append]
      rw [readValue_object, skipBlanks_append (l.gap_blank (level + 1)), hskip, hmembers]
      · simp only [Option.map_some, ofMembers_some]
      · intro more heq
        rw [skipBlanks_append (l.gap_blank (level + 1)), hskip] at heq
        cases heq

/-! ## Documents -/

theorem Plain.ofChars?_write {j : Json} (h : j.Plain) (l : Layout) : ofChars? (j.write l 0) = some j := by
  have hread := h.readsBack l 0 (2 * (j.write l 0).length + 2) [] (by omega) .nil
  rw [List.append_nil] at hread
  rw [ofChars?, hread]
  rfl

theorem Plain.parse?_compact {j : Json} (h : j.Plain) : parse? j.compact = some j := by
  rw [parse?, compact, String.toList_ofList, ← write_compact h 0, h.ofChars?_write]

theorem Plain.parse?_pretty {j : Json} (h : j.Plain) : parse? j.pretty = some j := by
  rw [parse?, pretty, String.toList_ofList, ← write_indented h 0, h.ofChars?_write]

end

end Json

end TypeFlow
