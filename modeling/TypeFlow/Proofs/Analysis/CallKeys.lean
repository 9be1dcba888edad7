import TypeFlow.Proofs.Analysis.Fixpoint

/-!
# The keys of dynamic calls

A method keeps its dynamic calls by key: a local variable and a signature. No
key is there that its own body does not call by, whatever was asked of the
analysis; and when nothing waits, every key that its body calls by is there.
-/

namespace TypeFlow

/-- What a dynamic call looks like. -/
theorem Instr.eq_call_of_dynamicCall? {i : Instr} {key : CallKey} (h : i.dynamicCall? = some key) :
    ∃ dst? callee args binding owner, i = .call dst? (some key.receiver) callee args binding ∧
      binding.receiver? = some owner ∧ callee.signature = key.signature := by
  cases i with
  | call dst? instance? callee args binding =>
    cases instance? with
    | none => cases h
    | some receiver =>
      cases hreceiver : binding.receiver? with
      | none => simp [dynamicCall?, Binding.isDynamic, hreceiver] at h
      | some owner =>
        simp only [dynamicCall?, Binding.isDynamic, hreceiver, Option.isSome_some, if_true, Option.some.injEq] at h
        subst h
        exact ⟨dst?, callee, args, binding, owner, rfl, hreceiver, rfl⟩
  | _ => cases h

def Body.dynamicKeys (b : Body) : List CallKey := b.instrs.filterMap Instr.dynamicCall?

def MethodRecord.dynamicKeys (r : MethodRecord) : List CallKey := (r.definition.body?.map Body.dynamicKeys).getD []

namespace MethodRecord

variable {r : MethodRecord}

theorem dynamicKeys_of_body {body : Body} (hb : r.definition.body? = some body) :
    r.dynamicKeys = body.dynamicKeys := by
  rw [dynamicKeys, hb]
  rfl

theorem Calls.mem_dynamicKeys {receiver : Local} {declared : QualifiedMethod} (h : r.Calls receiver declared) :
    ⟨receiver, declared.signature⟩ ∈ r.dynamicKeys := by
  obtain ⟨body, hbody, i, hi, -, hkey⟩ := h
  rw [dynamicKeys_of_body hbody]
  exact List.mem_filterMap.2 ⟨i, hi, hkey⟩

theorem mem_keys_noteCall {key key' : CallKey} {id : SelectorId} (h : key' ∈ (r.noteCall key id).calls.keys) :
    key' ∈ r.calls.keys ∨ key' = key :=
  Table.mem_keys_insert_cases h

theorem mem_keys_of_selectorsAt {key : CallKey} {id : SelectorId} (h : id ∈ r.selectorsAt key) :
    key ∈ r.calls.keys := by
  unfold selectorsAt at h
  cases hfind : r.calls.find? key with
  | none =>
    rw [hfind] at h
    cases h
  | some ids => exact Table.mem_keys_of_find? hfind

end MethodRecord

namespace Analysis

/-- Whether each method keeps calls only by the keys of its own body. -/
def Attributed (s : Analysis) : Prop :=
  ∀ (id : Nat) (r : MethodRecord), s.methods[id]? = some r → ∀ key ∈ r.calls.keys, key ∈ r.dynamicKeys

variable {w : Actor} {s s' : Analysis} {γ γ' : List Duty}

theorem Step.attributed (h : Step w s γ s' γ') (ha : s.Attributed) : s'.Attributed := by
  cases h with
  | linkClass name =>
    obtain ⟨h, c, p, heq, -⟩ := s.linkClass_frame name
    rw [heq]
    exact ha
  | recordMethod hm hd hf hc =>
    intro id r hr key hkey
    rcases getElem?_push_cases hr with hold | ⟨-, rfl⟩
    · exact ha id r hold key hkey
    · cases hkey
  | aggregate ht =>
    rw [aggregate_of_none ht]
    exact ha
  | pool hk =>
    rw [poolNode_of_none hk]
    exact ha
  | @site k sel receiver declared site r hs hk hr hpr hn hcalls =>
    intro id r' hr' key hkey
    rcases getElem?_modify_cases hr' with ⟨-, hold⟩ | ⟨-, old, hold, rfl⟩
    · exact ha id r' hold key hkey
    · obtain rfl := Option.some.inj (hr.symm.trans hold)
      rcases MethodRecord.mem_keys_noteCall hkey with hkey | rfl
      · exact ha _ r hold key hkey
      · exact hcalls.mem_dynamicKeys
  | openBody hr hp hl hw =>
    intro id r' hr' key hkey
    rcases getElem?_modify_cases hr' with ⟨-, hold⟩ | ⟨-, old, hold, rfl⟩
    · exact ha id r' hold key hkey
    · exact ha _ old hold key hkey
  | _ => exact ha

theorem Moves.attributed (h : Moves w s γ s' γ') (ha : s.Attributed) : s'.Attributed :=
  h.invariant (P := fun s _ => s.Attributed) Step.attributed ha

theorem attributed_history (w : World) (settings : Settings) (ops : List Op) :
    ((new w settings).history ops).Attributed := by
  refine (sound_new w settings).history_invariant (fun _ hm ha => hm.attributed ha) (fun _ ha => ha) ?_ ?_ ops
  · intro s names _
    exact nofun
  · exact nofun

/-! ## When nothing waits -/

/-- Every dynamic call of a linked body is kept by its key. -/
theorem Sound.mem_callKeys (h : s.Sound) (hs : s.isSettled) {id : Nat} {r : MethodRecord}
    (hr : s.methods[id]? = some r) {key : CallKey} (hkey : key ∈ r.dynamicKeys) : key ∈ r.calls.keys := by
  cases hb : r.definition.body? with
  | none => simp [MethodRecord.dynamicKeys, hb] at hkey
  | some body =>
    rw [MethodRecord.dynamicKeys_of_body hb] at hkey
    obtain ⟨i, hi, hcall⟩ := List.mem_filterMap.1 hkey
    obtain ⟨dst?, callee, args, binding, owner, rfl, howner, hsignature⟩ := Instr.eq_call_of_dynamicCall? hcall
    have hdemands : CallDemands s s.contents callee binding.receiver? (some key.receiver) _ :=
      (h.obeys hs hr hb).2.instrs _ hi
    rw [howner] at hdemands
    obtain ⟨_, _, r', _, _, _, hr', hmem⟩ := hdemands
    obtain rfl := Option.some.inj (hr.symm.trans hr')
    rw [hsignature] at hmem
    exact MethodRecord.mem_keys_of_selectorsAt hmem

/-- When nothing waits, the keys of a method are those of the dynamic calls of its body. -/
theorem mem_callKeys_iff (w : World) (settings : Settings) (ops : List Op)
    (hs : ((new w settings).history ops).isSettled) {id : Nat} {r : MethodRecord}
    (hr : ((new w settings).history ops).methods[id]? = some r) (key : CallKey) :
    key ∈ r.calls.keys ↔ key ∈ r.dynamicKeys :=
  ⟨attributed_history w settings ops id r hr key, ((sound_new w settings).history ops).1.mem_callKeys hs hr⟩

end Analysis

end TypeFlow
