import TypeFlow.Document.Basic
import TypeFlow.Proofs.Spelling.RoundTrip

/-!
# Records are read as written

A record that is written with each of its fields once, in their order, has
nothing missing and nothing twice, so it is read if its fields are.
-/

namespace TypeFlow

namespace Located

variable {α β : Type}

@[simp] theorem map_ok (f : α → β) (a : α) : f <$> ok a = ok (f a) := rfl

@[simp] theorem seq_ok (f : α → β) (a : α) : (ok f : Located (α → β)) <*> ok a = ok (f a) := rfl

@[simp] theorem ofReading_ok (position : Nat) (a : α) : ofReading position (.ok a) = ok a := rfl

end Located

namespace Record

variable {α : Type} {fields : List String} {members : List (String × Json)}

theorem repeated?_of_nodup {seen : List String} {position : Nat} (h : (members.map Prod.fst).Nodup)
    (hseen : ∀ name ∈ seen, name ∉ members.map Prod.fst) : repeated? fields seen position members = none := by
  induction members generalizing seen position with
  | nil => rfl
  | cons m members ih =>
    obtain ⟨name, j⟩ := m
    rw [List.map_cons, List.nodup_cons] at h
    have hname : name ∉ seen := fun hmem => hseen name hmem List.mem_cons_self
    rw [repeated?, if_neg (by simp [hname])]
    refine ih h.2 ?_
    intro other hother
    rcases List.mem_cons.1 hother with rfl | hother
    · exact h.1
    · exact fun hmem => hseen other hother (List.mem_cons_of_mem _ hmem)

/-- A record whose members are distinct is read when its fields are. -/
theorem read_object {body : Record → Located α} {a : α} (h : (members.map Prod.fst).Nodup)
    (hbody : body ⟨fields, members, false⟩ = .ok a) : read fields body (.object members) = .ok a := by
  have hdistinct : (⟨fields, members, false⟩ : Record).distinct = .ok () := by
    rw [distinct, repeated?_of_nodup h (by simp)]
  simp only [read, hdistinct, hbody]
  rfl

theorem required_of_find? {r : Record} {name : String} {position : Nat} {j : Json} {read : Json → Reading α} {a : α}
    (hfind : r.find? name = some (position, j)) (hread : read j = .ok a) : r.required name read = .ok a := by
  rw [required, hfind]
  simp [hread]

theorem defaulted_of_find? {r : Record} {name : String} {position : Nat} {j : Json} {read : Json → Reading α}
    {default a : α} (hfind : r.find? name = some (position, j)) (hread : read j = .ok a) :
    r.defaulted name default read = .ok a := by
  rw [defaulted, hfind]
  simp [hread]

end Record

namespace Reading

variable {α : Type}

@[simp] theorem text_text (s : String) : text (.text s) = .ok s := rfl

@[simp] theorem nat_nat {n : Nat} (h : n < wordBound) : nat (.nat n) = .ok n := if_pos h

theorem parsed_text {parse : String → Except Malformed α} {s : String} {a : α} (h : parse s = .ok a) :
    parsed parse (.text s) = .ok a := by
  simp only [parsed, text_text, bind, Except.bind, h]

@[simp] theorem type_text {t : DeclType} (h : t.WellFormed) : type (.text t.text) = .ok t :=
  parsed_text ((DeclType.roundTrips.survives t).2 h)

@[simp] theorem signature_text {s : Signature} (h : s.WellFormed) : signature (.text s.text) = .ok s :=
  parsed_text ((Signature.roundTrips.survives s).2 h)

@[simp] theorem method_text {m : QualifiedMethod} (h : m.WellFormed) : method (.text m.text) = .ok m :=
  parsed_text ((QualifiedMethod.roundTrips.survives m).2 h)

@[simp] theorem field_text {f : QualifiedField} (h : f.WellFormed) : field (.text f.text) = .ok f :=
  parsed_text ((QualifiedField.roundTrips.survives f).2 h)

theorem list_map {read : Json → Reading α} {toJson : α → Json} {l : List α} (h : ∀ a ∈ l, read (toJson a) = .ok a) :
    list read (.array (l.map toJson)) = .ok l := by
  unfold list
  simp only
  induction l with
  | nil => rfl
  | cons a l ih =>
    rw [List.forall_mem_cons] at h
    rw [List.map_cons, List.mapM_cons, h.1, ih h.2]
    rfl

theorem list_texts (l : List String) : list text (.ofTexts l) = .ok l := list_map fun s _ => text_text s

theorem list_nats {l : List Nat} (h : ∀ n ∈ l, n < wordBound) : list nat (.ofNats l) = .ok l :=
  list_map fun n hn => nat_nat (h n hn)

theorem nullable_text (o : Option String) : nullable text (.ofText? o) = .ok o := by
  cases o <;> rfl

end Reading

end TypeFlow
