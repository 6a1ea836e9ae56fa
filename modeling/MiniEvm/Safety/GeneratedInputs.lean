import MiniEvm.Abi.Arguments
import MiniEvm.Detectors.Inputs
import MiniEvm.Framework.Product

namespace MiniEvm

open Math Framework Abi

namespace Abi

/-- The packer takes the value. -/
def AbiType.Packs (t : AbiType) (v : Value) : Prop := ∃ b, t.pack v = .ok b

theorem packLoop_isOk_iff (offset : Int) (inputs : List Argument) (args : List Value)
    (ret variableInput : Bytes) :
    (∃ r, packLoop offset (inputs.zip args) ret variableInput = .ok r) ↔
      ∀ p ∈ inputs.zip args, p.1.type.Packs p.2 := by
  induction inputs generalizing args ret variableInput with
  | nil => simp [packLoop]
  | cons input inputs ih =>
    cases args with
    | nil => simp [packLoop]
    | cons a args =>
      rw [List.zip_cons_cons, List.forall_mem_cons]
      constructor
      · rintro ⟨r, hr⟩
        obtain ⟨packed, hpacked, hrest⟩ := Result.bind_eq_ok.mp hr
        refine ⟨⟨packed, hpacked⟩, ?_⟩
        split_ifs at hrest
        · exact (ih args _ _).mp ⟨r, hrest⟩
        · exact (ih args _ _).mp ⟨r, hrest⟩
      · rintro ⟨⟨packed, hpacked⟩, hrest⟩
        have hcont : ∀ ret variableInput,
            ∃ r, packLoop offset (inputs.zip args) ret variableInput = .ok r :=
          fun ret variableInput => (ih args ret variableInput).mpr hrest
        by_cases hprefix : input.type.requiresLengthPrefix = true
        · obtain ⟨r, hr⟩ := hcont (ret ++ packNum (int64 (offset + variableInput.length)))
            (variableInput ++ packed)
          exact ⟨r, Result.bind_eq_ok.mpr ⟨packed, hpacked, by rw [if_pos hprefix]; exact hr⟩⟩
        · obtain ⟨r, hr⟩ := hcont (ret ++ packed) variableInput
          exact ⟨r, Result.bind_eq_ok.mpr ⟨packed, hpacked, by rw [if_neg hprefix]; exact hr⟩⟩

/-- `Arguments.Pack` fails on nothing but the count and the single values. -/
theorem packArguments_isOk_iff (arguments : List Argument) (args : List Value) :
    (∃ b, packArguments arguments args = .ok b) ↔
      List.Forall₂ (fun input a => input.type.Packs a) arguments args := by
  rw [List.forall₂_iff_zip]
  unfold packArguments
  by_cases hlen : args.length = arguments.length
  · rw [if_neg (not_not.mpr hlen)]
    have hloop := packLoop_isOk_iff (inputOffset arguments) arguments args [] []
    constructor
    · rintro ⟨b, hb⟩
      obtain ⟨r, hr, -⟩ := Result.bind_eq_ok.mp hb
      exact ⟨hlen.symm, fun hp => hloop.mp ⟨r, hr⟩ _ hp⟩
    · rintro ⟨-, hall⟩
      obtain ⟨r, hr⟩ := hloop.mpr fun p hp => hall hp
      exact ⟨r.1 ++ r.2, Result.bind_eq_ok.mpr ⟨r, hr, rfl⟩⟩
  · rw [if_pos hlen]
    constructor
    · rintro ⟨b, hb⟩
      cases hb
    · rintro ⟨h, -⟩
      exact absurd h.symm hlen

theorem mapAll_isOk_iff {ε α β : Type} {f : α → Result ε β} {as : List α} :
    (∃ bs, Result.mapAll f as = .ok bs) ↔ ∀ a ∈ as, ∃ b, f a = .ok b := by
  induction as with
  | nil => simp [Result.mapAll]
  | cons a as ih =>
    rw [List.forall_mem_cons, ← ih]
    simp only [Result.mapAll_eq_ok, List.forall₂_cons_left_iff]
    constructor
    · rintro ⟨_, b, bs, hb, hbs, rfl⟩
      exact ⟨⟨b, hb⟩, bs, hbs⟩
    · rintro ⟨⟨b, hb⟩, bs, hbs⟩
      exact ⟨b :: bs, b, bs, hb, hbs, rfl⟩

namespace AbiType

/-- A slice type packs a value that passes the check and whose elements are packed. -/
theorem packs_slice_iff {elem : AbiType} {v : Value} {k : Kind} {vs : List Value}
    (hv : v.elems = some (k, vs)) :
    (slice elem).Packs v ↔ (slice elem).sliceTypeCheck v = .ok () ∧ ∀ x ∈ vs, elem.Packs x := by
  have hall : (∃ bs, Result.mapAll (fun x => elem.pack x) vs = .ok bs) ↔ ∀ x ∈ vs, elem.Packs x :=
    mapAll_isOk_iff
  rw [← hall]
  unfold Packs
  simp only [pack, typeCheck, hv, Result.ofOption_some, Result.ok_bind, Result.pure_eq]
  constructor
  · rintro ⟨b, hb⟩
    obtain ⟨_, hcheck, hb⟩ := Result.bind_eq_ok.mp hb
    obtain ⟨bs, hbs, -⟩ := Result.bind_eq_ok.mp hb
    exact ⟨hcheck, bs, hbs⟩
  · rintro ⟨hcheck, bs, hbs⟩
    rw [hcheck, hbs]
    exact ⟨_, rfl⟩

theorem packs_array_iff {elem : AbiType} {size : Nat} {v : Value} {k : Kind} {vs : List Value}
    (hv : v.elems = some (k, vs)) :
    (array elem size).Packs v ↔
      (array elem size).sliceTypeCheck v = .ok () ∧ ∀ x ∈ vs, elem.Packs x := by
  have hall : (∃ bs, Result.mapAll (fun x => elem.pack x) vs = .ok bs) ↔ ∀ x ∈ vs, elem.Packs x :=
    mapAll_isOk_iff
  rw [← hall]
  unfold Packs
  simp only [pack, typeCheck, hv, Result.ofOption_some, Result.ok_bind, Result.pure_eq]
  constructor
  · rintro ⟨b, hb⟩
    obtain ⟨_, hcheck, hb⟩ := Result.bind_eq_ok.mp hb
    obtain ⟨bs, hbs, -⟩ := Result.bind_eq_ok.mp hb
    exact ⟨hcheck, bs, hbs⟩
  · rintro ⟨hcheck, bs, hbs⟩
    rw [hcheck, hbs]
    exact ⟨_, rfl⟩

/-- The types that check nothing but the kind. -/
def OnlyKind : AbiType → Prop
  | slice _ | array _ _ | fixedBytes _ => False
  | _ => True

theorem packs_onlyKind_iff {t : AbiType} (h : t.OnlyKind) (v : Value) :
    t.Packs v ↔ t.kind = v.kind ∧ (packElement t v).isSome = true := by
  have hcheck : t.typeCheck v = if t.kind ≠ v.kind then .error .cannotUse else .ok () := by
    cases t with
    | slice | array | fixedBytes => cases h
    | _ => rfl
  have hpack : t.pack v = (t.typeCheck v >>= fun _ => Result.ofOption (packElement t v)) := by
    cases t with
    | slice | array | fixedBytes => cases h
    | _ => rfl
  unfold Packs
  rw [hpack, hcheck, Option.isSome_iff_exists]
  by_cases hkind : t.kind = v.kind
  · rw [if_neg (not_not.mpr hkind)]
    simp only [Result.ok_bind, Result.ofOption_eq_ok, hkind, true_and]
  · rw [if_pos hkind]
    simp only [Result.error_bind, reduceCtorEq, exists_false, hkind, false_and]

theorem packs_fixedBytes_iff (size : Nat) (v : Value) :
    (fixedBytes size).Packs v ↔ v.kind = .array ∧ (v.elems.map fun e => e.2.length) = some size ∧
      v.bytes.isSome = true := by
  unfold Packs
  simp only [pack, typeCheck, packElement, Option.isSome_iff_exists]
  by_cases hcheck : v.kind ≠ .array ∨ (v.elems.map fun e => e.2.length) ≠ some size
  · rw [if_pos hcheck]
    simp only [Result.error_bind, reduceCtorEq, exists_false, false_iff]
    tauto
  · rw [if_neg hcheck]
    obtain ⟨hkind, hlen⟩ := not_or.mp hcheck
    simp only [Result.ok_bind, Result.ofOption_eq_ok, Option.map_eq_some_iff, not_not.mp hkind,
      not_not.mp hlen, true_and]
    constructor
    · rintro ⟨_, b, hb, -⟩
      exact ⟨b, hb⟩
    · rintro ⟨b, hb⟩
      exact ⟨_, b, hb, rfl⟩

theorem reflectIntKind_ptr_or (unsigned : Bool) (size : Nat) :
    reflectIntKind unsigned size ≠ .array ∧ reflectIntKind unsigned size ≠ .slice ∧
      (reflectIntKind unsigned size = .uint8 ↔ unsigned = true ∧ size = 8) := by
  unfold reflectIntKind
  split <;> cases unsigned <;> simp_all

theorem kind_eq_uint8 (t : AbiType) : t.kind = .uint8 ↔ t = uint 8 := by
  cases t with
  | int size => simp [kind, (reflectIntKind_ptr_or false size).2.2]
  | uint size => simp [kind, (reflectIntKind_ptr_or true size).2.2]
  | _ => simp [kind]

theorem elemKindCheck_eq_ok {elem : AbiType} {k : Kind} :
    elem.elemKindCheck k = .ok () ↔ elem.kind = k := by
  unfold elemKindCheck
  by_cases h : k = elem.kind
  · rw [if_neg (not_not.mpr h)]
    exact iff_of_true rfl h.symm
  · rw [if_pos h]
    exact iff_of_false (by simp) fun h' => h h'.symm

/-- What the check of a slice or an array type does with the elements. -/
def elemsCheck (elem : AbiType) (k : Kind) (vs : List Value) : Result AbiError Unit :=
  match elem, vs with
  | slice _, v₀ :: _ | array _ _, v₀ :: _ => sliceTypeCheck elem v₀
  | array _ _, [] => .panic
  | _, _ => elemKindCheck elem k

theorem sliceTypeCheck_slice {elem : AbiType} {v : Value} {k : Kind} {vs : List Value}
    (hv : v.elems = some (k, vs)) : (slice elem).sliceTypeCheck v = elemsCheck elem k vs := by
  rw [sliceTypeCheck, hv]
  rfl

theorem sliceTypeCheck_array {elem : AbiType} {size : Nat} {v : Value} {k : Kind} {vs : List Value}
    (hv : v.elems = some (k, vs)) : (array elem size).sliceTypeCheck v = .ok () ↔
      vs.length = size ∧ elemsCheck elem k vs = .ok () := by
  rw [sliceTypeCheck, hv]
  by_cases hlen : vs.length = size
  · simp only [hlen, ne_eq, not_true_eq_false, if_false, true_and]
    rfl
  · simp only [hlen, ne_eq, not_false_eq_true, if_true, false_and, reduceCtorEq]

/-- A byte is no slice, so only the kind of the elements is left to check. -/
theorem elemsCheck_bytes {elem : AbiType} {x : Int} {vs : List Value} :
    elemsCheck elem .uint8 (.num .uint8 x :: vs) = .ok () ↔ elem = uint 8 := by
  rw [← kind_eq_uint8]
  cases elem with
  | slice elem => simp [elemsCheck, sliceTypeCheck, Value.elems, kind]
  | array elem size => simp [elemsCheck, sliceTypeCheck, Value.elems, kind]
  | _ => exact elemKindCheck_eq_ok

/-- Whether the packer takes a `common.Address`, an array of 20 bytes, for the type. -/
def takesAddress : AbiType → Bool
  | address | function => true
  | fixedBytes size => size = 20
  | slice elem => elem = uint 8
  | array elem size => elem = uint 8 ∧ size = 20
  | _ => false

/-- Whether the packer takes every `[]common.Address`, an empty one too. -/
def takesAddresses : AbiType → Bool
  | slice address | slice function => true
  | slice (fixedBytes size) => size = 20
  | _ => false

theorem packs_address_iff (t : AbiType) (a : Address) :
    t.Packs (addressValue a) ↔ t.takesAddress = true := by
  have hlen : (Value.ofBytes (Address.bytes a)).length = 20 := by simp [Address.bytes]
  have helems : (addressValue a).elems = some (.uint8, Value.ofBytes (Address.bytes a)) := rfl
  have hkind : (addressValue a).kind = .array := rfl
  have hbytes : (addressValue a).bytes = some (Address.bytes a) := Value.bytes_array _
  have hbyte : ∀ x ∈ Value.ofBytes (Address.bytes a), (uint 8).Packs x := by
    intro x hx
    obtain ⟨b, -, rfl⟩ := List.mem_map.mp hx
    exact ⟨_, rfl⟩
  have helem : ∀ elem, elemsCheck elem .uint8 (Value.ofBytes (Address.bytes a)) = .ok () ↔
      elem = uint 8 := by
    intro elem
    cases hb : Address.bytes a with
    | nil => simp [hb] at hlen
    | cons b bs => exact elemsCheck_bytes
  cases t with
  | slice elem =>
    rw [packs_slice_iff helems, sliceTypeCheck_slice helems, helem]
    simp only [takesAddress, decide_eq_true_eq, and_iff_left_iff_imp]
    rintro rfl
    exact hbyte
  | array elem size =>
    rw [packs_array_iff helems, sliceTypeCheck_array helems, helem, hlen]
    simp only [takesAddress, decide_eq_true_eq]
    constructor
    · rintro ⟨⟨rfl, rfl⟩, -⟩
      exact ⟨rfl, rfl⟩
    · rintro ⟨rfl, rfl⟩
      exact ⟨⟨rfl, rfl⟩, hbyte⟩
  | fixedBytes size =>
    rw [packs_fixedBytes_iff, hbytes, helems, hkind]
    simp [takesAddress, hlen, eq_comm]
  | int size =>
    have hne := (reflectIntKind_ptr_or false size).1
    rw [packs_onlyKind_iff (by exact trivial), hkind]
    simp [kind, takesAddress, hne]
  | uint size =>
    have hne := (reflectIntKind_ptr_or true size).1
    rw [packs_onlyKind_iff (by exact trivial), hkind]
    simp [kind, takesAddress, hne]
  | address | function | bool | string | bytes =>
    rw [packs_onlyKind_iff (by exact trivial), hkind]
    simp [packElement, kind, hbytes, takesAddress]

/-- The value that `GenerateAddresses` gives as a Go value. -/
def addressesValue (as : List Address) : Value := .slice .array (as.map addressValue)

theorem takesAddresses_of_packs {t : AbiType} {a : Address} (hempty : t.Packs (addressesValue []))
    (hone : t.Packs (addressesValue [a])) : t.takesAddresses = true := by
  have helems : ∀ as, (addressesValue as).elems = some (.array, as.map addressValue) := fun _ => rfl
  have hkind : (addressesValue []).kind = .slice := rfl
  cases t with
  | slice elem =>
    rw [packs_slice_iff (helems _), sliceTypeCheck_slice (helems _)] at hempty hone
    have helem := (packs_address_iff elem a).mp (hone.2 _ List.mem_cons_self)
    cases elem with
    | slice elem => simp [elemsCheck, elemKindCheck, kind] at hempty
    | array elem size => simp [elemsCheck] at hempty
    | address | function | fixedBytes | int | uint | bool | string | bytes => exact helem
  | array elem size =>
    rw [packs_array_iff (helems _), sliceTypeCheck_array (helems _)] at hempty hone
    have h0 := hempty.1.1
    have h1 := hone.1.1
    simp at h0 h1
    omega
  | fixedBytes size =>
    rw [packs_fixedBytes_iff, hkind] at hempty
    cases hempty.1
  | int size =>
    rw [packs_onlyKind_iff (by exact trivial), hkind] at hempty
    exact absurd hempty.1 (reflectIntKind_ptr_or false size).2.1
  | uint size =>
    rw [packs_onlyKind_iff (by exact trivial), hkind] at hempty
    exact absurd hempty.1 (reflectIntKind_ptr_or true size).2.1
  | address | function | bool | string | bytes =>
    rw [packs_onlyKind_iff (by exact trivial), hkind] at hempty
    simp [kind, packElement, Value.bytes, addressesValue, Value.elems] at hempty

theorem packs_addresses {t : AbiType} (h : t.takesAddresses = true) (as : List Address) :
    t.Packs (addressesValue as) := by
  have helems : (addressesValue as).elems = some (.array, as.map addressValue) := rfl
  have hall : ∀ {elem : AbiType}, elem.takesAddress = true →
      ∀ x ∈ as.map addressValue, elem.Packs x := by
    intro elem helem x hx
    obtain ⟨a, -, rfl⟩ := List.mem_map.mp hx
    exact (packs_address_iff elem a).mpr helem
  cases t with
  | slice elem =>
    rw [packs_slice_iff helems, sliceTypeCheck_slice helems]
    cases elem with
    | address | function | fixedBytes => exact ⟨elemKindCheck_eq_ok.mpr rfl, hall h⟩
    | _ => cases h
  | _ => cases h

theorem packs_bigInt_iff (t : AbiType) (n : Int) : t.Packs (.num .ptr n) ↔ t.kind = .ptr := by
  have helems : (Value.num .ptr n).elems = none := rfl
  cases t with
  | slice elem =>
    refine iff_of_false ?_ (by simp [kind])
    rintro ⟨b, hb⟩
    simp [pack, typeCheck, sliceTypeCheck, helems] at hb
  | array elem size =>
    refine iff_of_false ?_ (by simp [kind])
    rintro ⟨b, hb⟩
    simp [pack, typeCheck, sliceTypeCheck, helems] at hb
  | fixedBytes size =>
    rw [packs_fixedBytes_iff]
    simp [Value.kind, kind]
  | int | uint | address | function | bool | string | bytes =>
    rw [packs_onlyKind_iff (by exact trivial)]
    simp [kind, packElement, Value.kind]

end AbiType

/-- Whether type `j` packs everything that is generated for type `i`. -/
def accepts (j : AbiType) : AbiType → Bool
  | .uint _ => j.kind = .ptr
  | .address => j.takesAddress
  | .slice .address => j.takesAddresses
  | _ => false

end Abi

/-- How many values are tried for an input. -/
def choices : AbiType → Nat
  | .uint _ => 35
  | .address | .slice .address => 10
  | _ => 1

theorem inputsOfType_length {i : AbiType} {l : List Value} (h : inputsOfType i = some l) :
    l.length = choices i := by
  unfold inputsOfType at h
  split at h
  all_goals
    cases h
  all_goals
    simp [choices, generateIntBySize, generateAddress, generateAddresses]

theorem inputsOfType_ne_nil {i : AbiType} {l : List Value} (h : inputsOfType i = some l) : l ≠ [] := by
  unfold inputsOfType at h
  split at h
  all_goals
    cases h
  all_goals
    exact List.cons_ne_nil _ _

/-- An input that is skipped does not change the number of tuples. -/
theorem choices_of_none {i : AbiType} (h : inputsOfType i = none) : choices i = 1 := by
  unfold inputsOfType at h
  split at h
  case h_4 htypes huint haddress =>
    unfold choices
    split
    · exact absurd rfl (huint _)
    · exact absurd rfl haddress
    · exact absurd rfl htypes
    · rfl
  all_goals cases h

theorem prod_length_filterMap (is : List Argument) :
    ((is.filterMap fun i => inputsOfType i.type).map List.length).prod =
      (is.map fun i => choices i.type).prod := by
  induction is with
  | nil => rfl
  | cons i is ih =>
    rw [List.map_cons, List.prod_cons, ← ih, List.filterMap_cons]
    cases h : inputsOfType i.type with
    | none => rw [choices_of_none h, Nat.one_mul]
    | some l => rw [List.map_cons, List.prod_cons, inputsOfType_length h]

theorem accepts_iff {i : AbiType} {l : List Value} (h : inputsOfType i = some l) (j : AbiType) :
    (∀ v ∈ l, j.Packs v) ↔ accepts j i = true := by
  unfold inputsOfType at h
  split at h
  · cases h
    constructor
    · intro hall
      have hmem : ∀ k < 10, j.Packs (AbiType.addressesValue (generateAddress.take k)) := fun k hk =>
        hall _ (List.mem_map_of_mem (List.mem_map_of_mem (List.mem_range.mpr hk)))
      exact AbiType.takesAddresses_of_packs (hmem 0 (by decide)) (hmem 1 (by decide))
    · intro htakes v hv
      obtain ⟨as, -, rfl⟩ := List.mem_map.mp hv
      exact AbiType.packs_addresses htakes as
  · cases h
    simp only [accepts, decide_eq_true_eq, List.forall_mem_map, AbiType.packs_bigInt_iff]
    exact ⟨fun hall => hall _ List.mem_cons_self, fun hkind _ _ => hkind⟩
  · cases h
    simp only [accepts, List.forall_mem_map, AbiType.packs_address_iff]
    exact ⟨fun hall => hall _ List.mem_cons_self, fun htakes _ _ => htakes⟩
  · cases h

namespace Abi.ABI

/-- `abi.Methods[f].Inputs`. -/
def methodInputs (abi : ABI Argument) (f : String) : List Argument :=
  ((abi.methods.lookup f).map fun m => m.inputs).getD []

/-- The inputs that `Pack` reads; the empty name is that of the constructor. -/
def packedInputs (abi : ABI Argument) (f : String) : List Argument :=
  if f = "" then abi.constructor.getD [] else abi.methodInputs f

theorem lookup_of_generated {abi : ABI Argument} {f : String} {d : List (List Value)}
    (h : generateInputsByABI abi f = some d) (hf : f ≠ "") : ∃ m, abi.methods.lookup f = some m := by
  unfold generateInputsByABI at h
  cases hm : abi.methods.lookup f with
  | some m => exact ⟨m, rfl⟩
  | none =>
    rw [hm] at h
    simp [hf.symm] at h

theorem generateInputsByABI_eq {abi : ABI Argument} {f : String} {d : List (List Value)}
    (h : generateInputsByABI abi f = some d) :
    d = (abi.methodInputs f).filterMap fun arg => inputsOfType arg.type := by
  unfold generateInputsByABI at h
  simp only at h
  split_ifs at h
  exact (Option.some.inj h).symm

theorem pack_isOk_iff (crypto : Crypto) {abi : ABI Argument} {f : String} {d : List (List Value)}
    (h : generateInputsByABI abi f = some d) (args : List Value) :
    (∃ b, abi.pack crypto f args = .ok b) ↔
      List.Forall₂ (fun input a => input.type.Packs a) (abi.packedInputs f) args := by
  rw [← packArguments_isOk_iff]
  unfold ABI.pack packedInputs
  by_cases hf : f = ""
  · rw [if_pos hf, if_pos hf]
    cases packArguments (abi.constructor.getD []) args <;> simp [Result.mapError]
  · rw [if_neg hf, if_neg hf]
    obtain ⟨m, hm⟩ := lookup_of_generated h hf
    have hinputs : abi.methodInputs f = m.inputs := by rw [methodInputs, hm]; rfl
    simp only [hm, hinputs]
    cases packArguments m.inputs args <;> simp [Result.mapError]

end Abi.ABI

/-- The variable `total` of `GenerateInputsByABI`, an `int`. -/
def inputsTotal (d : List (List Value)) : Int :=
  d.foldl (fun total s => int64 (total * s.length)) 1

theorem inputsTotal_eq (d : List (List Value)) :
    inputsTotal d = int64 ((d.map List.length).prod : Nat) := by
  have hfold : ∀ a : Int, d.foldl (fun total s => int64 (total * s.length)) (int64 a) =
      int64 (a * ((d.map List.length).prod : Nat)) := by
    induction d with
    | nil =>
      intro a
      simp
    | cons s d ih =>
      intro a
      have hstep : int64 (int64 a * s.length) = int64 (a * s.length) := Int.bmod_mul_bmod
      rw [List.foldl_cons, hstep, ih, List.map_cons, List.prod_cons, Int.natCast_mul, Int.mul_assoc]
  have hone : int64 1 = 1 := by decide
  have htotal := hfold 1
  rwa [hone, Int.one_mul] at htotal

/-- A map that drops nothing has an image for every item. -/
theorem forall₂_filterMap {α β : Type} {g : α → Option β} {is : List α}
    (h : ∀ i ∈ is, (g i).isSome = true) :
    List.Forall₂ (fun i l => g i = some l) is (is.filterMap g) := by
  induction is with
  | nil => exact .nil
  | cons i is ih =>
    obtain ⟨hi, his⟩ := List.forall_mem_cons.mp h
    obtain ⟨l, hl⟩ := Option.isSome_iff_exists.mp hi
    rw [List.filterMap_cons_some hl]
    exact .cons hl (ih his)

/-- What is asked of every place of the tuples, place by place. -/
theorem forall₂_accepts_iff {js is : List Argument} {d : List (List Value)}
    (h : List.Forall₂ (fun (i : Argument) l => inputsOfType i.type = some l) is d) :
    List.Forall₂ (fun (j : Argument) l => ∀ v ∈ l, j.type.Packs v) js d ↔
      List.Forall₂ (fun (j i : Argument) => accepts j.type i.type = true) js is := by
  induction h generalizing js with
  | nil => rw [List.forall₂_nil_right_iff, List.forall₂_nil_right_iff]
  | cons hi _ ih =>
    cases js with
    | nil => simp
    | cons j js => rw [List.forall₂_cons, List.forall₂_cons, accepts_iff hi, ih]

theorem isSome_inputsOfType {j i : AbiType} (h : accepts j i = true) :
    (inputsOfType i).isSome = true := by
  unfold accepts at h
  split at h
  · rfl
  · rfl
  · rfl
  · cases h

theorem generated_of_accepts {js is : List Argument}
    (h : List.Forall₂ (fun (j i : Argument) => accepts j.type i.type = true) js is) :
    ∀ i ∈ is, (inputsOfType i.type).isSome = true := by
  induction h with
  | nil => exact fun _ hi => absurd hi List.not_mem_nil
  | cons hj _ ih => exact List.forall_mem_cons.mpr ⟨isSome_inputsOfType hj, ih⟩

/-- Every tuple that is sent has one component for each input and is packed, and `total` counts the
tuples. -/
structure UsableInputs (crypto : Crypto) (iter : List (List Value) → List (List Value))
    (abi : ABI Argument) (f : String) (d : List (List Value)) : Prop where
  arity : ∀ tuple ∈ iter d, tuple.length = (abi.methodInputs f).length
  packs : ∀ tuple ∈ iter d, ∃ b, abi.pack crypto f tuple = .ok b
  total : inputsTotal d = (iter d).length

/-- The tuples are usable exactly if the packer takes for each input what is generated for it, and
the number of tuples is an `int`. -/
theorem usableInputs_iff (crypto : Crypto) {iter : List (List Value) → List (List Value)}
    (hiter : ∀ d, (iter d).Perm d.sections) {abi : ABI Argument} {f : String} {d : List (List Value)}
    (h : generateInputsByABI abi f = some d) :
    UsableInputs crypto iter abi f d ↔
      List.Forall₂ (fun j i => accepts j.type i.type = true) (abi.packedInputs f) (abi.methodInputs f) ∧
        ((abi.methodInputs f).map fun i => choices i.type).prod < 2 ^ 63 := by
  have hd := ABI.generateInputsByABI_eq h
  have hne : ∀ l ∈ d, l ≠ [] := by
    intro l hl
    rw [hd] at hl
    obtain ⟨i, -, hi⟩ := List.mem_filterMap.mp hl
    exact inputsOfType_ne_nil hi
  have hmem : ∀ tuple, tuple ∈ iter d ↔ tuple ∈ d.sections := fun tuple => (hiter d).mem_iff
  have htotal : inputsTotal d = (iter d).length ↔
      ((abi.methodInputs f).map fun i => choices i.type).prod < 2 ^ 63 := by
    rw [inputsTotal_eq, (hiter d).length_eq, length_sections, ← prod_length_filterMap, ← hd]
    generalize (d.map List.length).prod = n
    constructor
    · intro heq
      have hlt := (Int.bmod_lt (x := (n : Int)) (by decide : 0 < 2 ^ 64))
      unfold int64 at heq
      omega
    · intro hlt
      exact int64_small (Int.natCast_nonneg n) (by omega)
  have hpacks : (∀ tuple ∈ iter d, ∃ b, abi.pack crypto f tuple = .ok b) ↔
      List.Forall₂ (fun (j : Argument) l => ∀ v ∈ l, j.type.Packs v) (abi.packedInputs f) d := by
    simp only [hmem, ABI.pack_isOk_iff crypto h]
    exact forall_sections_iff hne
  constructor
  · intro husable
    obtain ⟨tuple, htuple⟩ := exists_mem_sections hne
    have harity := husable.arity tuple ((hmem tuple).mpr htuple)
    rw [List.mem_sections_length htuple, hd, List.filterMap_length_eq_length] at harity
    have hgenerated := forall₂_filterMap harity
    rw [← hd] at hgenerated
    exact ⟨(forall₂_accepts_iff hgenerated).mp (hpacks.mp husable.packs), htotal.mp husable.total⟩
  · rintro ⟨haccepts, hcount⟩
    have hgenerated := forall₂_filterMap (generated_of_accepts haccepts)
    rw [← hd] at hgenerated
    refine ⟨?_, hpacks.mpr ((forall₂_accepts_iff hgenerated).mpr haccepts), htotal.mpr hcount⟩
    intro tuple htuple
    rw [List.mem_sections_length ((hmem tuple).mp htuple), hgenerated.length_eq]

/-- For a method, where the packer reads the inputs that the values were generated for, these are
the types that the generator and the packer agree on. -/
theorem accepts_self_iff (t : AbiType) : accepts t t = true ↔
    t = .address ∨ t = .slice .address ∨ ∃ size, t = .uint size ∧ size ∉ [8, 16, 32, 64] := by
  cases t with
  | uint size =>
    have hkind : reflectIntKind true size = .ptr ↔ size ∉ [8, 16, 32, 64] := by
      unfold reflectIntKind
      split <;> simp_all
    simp [accepts, AbiType.kind, hkind]
  | slice elem => cases elem <;> simp [accepts, AbiType.takesAddresses]
  | _ => simp [accepts, AbiType.takesAddress]

/-- An interface with one method `f` of one input. -/
def withInput (t : AbiType) : ABI Argument where
  constructor := none
  methods := AList.singleton "f" ⟨"f", false, ofTypes [t], []⟩
  events := ∅

theorem usableInputs_iff_address : ∃ d, generateInputsByABI (withInput .address) "f" = some d ∧
    UsableInputs Crypto.zero List.sections (withInput .address) "f" d := by
  refine ⟨_, rfl, ?_⟩
  refine (usableInputs_iff Crypto.zero (fun _ => .refl _) rfl).mpr ⟨?_, by decide⟩
  exact .cons rfl .nil

/-- A `uint8` input gets big integers, which the packer refuses, and a `bool` input gets no value at
all. -/
theorem generated_refused : ∃ d tuple d' tuple',
    generateInputsByABI (withInput (.uint 8)) "f" = some d ∧ tuple ∈ d.sections ∧
    (withInput (.uint 8)).pack Crypto.zero "f" tuple = .error (.arguments .cannotUse) ∧
    generateInputsByABI (withInput .bool) "f" = some d' ∧ tuple' ∈ d'.sections ∧
    (withInput .bool).pack Crypto.zero "f" tuple' =
      .error (.arguments (.argumentCountMismatch 0 1)) := by
  refine ⟨_, [.num .ptr (2 ^ 8)], _, [], rfl, ?_, rfl, rfl, ?_, rfl⟩
  · exact List.mem_sections.mpr (.cons List.mem_cons_self .nil)
  · exact List.mem_sections.mpr .nil

end MiniEvm
