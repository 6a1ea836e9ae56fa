import MiniEvm.Abi.Method
import MiniEvm.Common.Word

namespace MiniEvm.Abi

open Math Framework

/-! ## Packing a value that was packed before -/

namespace Value

theorem reducedAll_eq (vs : List Value) : reducedAll vs = vs.map reduced := by
  induction vs with
  | nil => rfl
  | cons v vs ih => rw [reducedAll, ih, List.map_cons]

theorem reduced_num (k : Kind) (n : Int) :
    (num k n).reduced = num k n ∨ k = .ptr ∧ (num k n).reduced = num k (u256 n) := by
  cases k with
  | ptr => exact .inr ⟨rfl, rfl⟩
  | _ => exact .inl rfl

@[simp] theorem reduced_kind (v : Value) : v.reduced.kind = v.kind := by
  cases v with
  | num k n => cases k <;> rfl
  | _ => rfl

@[simp] theorem reduced_elems (v : Value) :
    v.reduced.elems = v.elems.map fun e => (e.1, e.2.map reduced) := by
  cases v with
  | num k n => cases k <;> rfl
  | slice k vs | array k vs => simp [reduced, elems, reducedAll_eq]
  | _ => rfl

@[simp] theorem reduced_byte (v : Value) : v.reduced.byte = v.byte := by
  cases v with
  | num k n => cases k <;> rfl
  | _ => rfl

@[simp] theorem reduced_bytes (v : Value) : v.reduced.bytes = v.bytes := by
  have hall : ∀ vs : List Value, (vs.map reduced).mapM byte = vs.mapM byte := by
    intro vs
    induction vs with
    | nil => rfl
    | cons v vs ih => rw [List.map_cons, List.mapM_cons, List.mapM_cons, reduced_byte, ih]
  unfold bytes
  rw [reduced_elems]
  cases v.elems with
  | none => rfl
  | some e => simp only [Option.map_some, Option.bind_some, hall]

end Value

theorem packElement_reduced (t : AbiType) (v : Value) : packElement t v.reduced = packElement t v := by
  have hnum : ∀ n, packNum (u256 n) = packNum n := fun n => by
    rw [packNum, packNum, packedU256, packedU256, u256_u256]
  cases t with
  | int size | uint size =>
    cases v with
    | num k n =>
      obtain h | ⟨rfl, h⟩ := Value.reduced_num k n
      · rw [h]
      · rw [h]
        exact congrArg some (hnum n)
    | _ => rfl
  | string | bool =>
    cases v with
    | num k n => cases k <;> rfl
    | _ => rfl
  | slice elem => cases v <;> rfl
  | array elem size => cases v <;> rfl
  | _ => simp only [packElement, Value.reduced_bytes]

namespace AbiType

theorem sliceTypeCheck_reduced (t : AbiType) (v : Value) :
    t.sliceTypeCheck v.reduced = t.sliceTypeCheck v := by
  induction t generalizing v with
  | slice elem ih | array elem size ih =>
    simp only [sliceTypeCheck, Value.reduced_elems]
    cases v.elems with
    | none => rfl
    | some e =>
      obtain ⟨k, vs⟩ := e
      simp only [Option.map_some, List.length_map]
      cases vs with
      | nil => rfl
      | cons v₀ vs => cases elem <;> simp only [List.map_cons, ih]
  | _ => rfl

theorem typeCheck_reduced (t : AbiType) (v : Value) : t.typeCheck v.reduced = t.typeCheck v := by
  cases t with
  | slice | array => exact sliceTypeCheck_reduced _ v
  | fixedBytes size =>
    simp only [typeCheck, Value.reduced_kind, Value.reduced_elems, Option.map_map]
    congr 1
    cases v.elems <;> simp
  | _ => simp only [typeCheck, Value.reduced_kind]

theorem pack_reduced (t : AbiType) (v : Value) : t.pack v.reduced = t.pack v := by
  have hall : ∀ {elem : AbiType} (ih : ∀ v : Value, elem.pack v.reduced = elem.pack v)
      (vs : List Value), Result.mapAll (fun x => elem.pack x) (vs.map Value.reduced) =
        Result.mapAll (fun x => elem.pack x) vs := by
    intro elem ih vs
    induction vs with
    | nil => rfl
    | cons v vs ihs => rw [List.map_cons, Result.mapAll, Result.mapAll, ih, ihs]
  induction t generalizing v with
  | slice elem ih | array elem size ih =>
    simp only [pack, typeCheck_reduced, Value.reduced_elems]
    cases v.elems with
    | none => rfl
    | some e =>
      obtain ⟨k, vs⟩ := e
      simp only [Option.map_some, Result.ofOption_some, Result.ok_bind, hall ih, List.length_map]
  | _ => simp only [pack, typeCheck_reduced, packElement_reduced]

end AbiType

theorem packLoop_reduced (offset : Int) (arguments : List Argument) (args : List Value)
    (ret variableInput : Bytes) :
    packLoop offset (arguments.zip (args.map Value.reduced)) ret variableInput =
      packLoop offset (arguments.zip args) ret variableInput := by
  induction arguments generalizing args ret variableInput with
  | nil => rfl
  | cons arg arguments ih =>
    cases args with
    | nil => rfl
    | cons v args =>
      simp only [List.map_cons, List.zip_cons_cons, packLoop, AbiType.pack_reduced, ih]

/-- Values that were packed before give the same call data, so it does not matter that the tuples
share their integers. -/
theorem ABI.pack_reduced (crypto : Crypto) (abi : ABI Argument) (name : String) (args : List Value) :
    abi.pack crypto name (args.map Value.reduced) = abi.pack crypto name args := by
  have harguments : ∀ arguments : List Argument,
      packArguments arguments (args.map Value.reduced) = packArguments arguments args := by
    intro arguments
    simp only [packArguments, List.length_map, packLoop_reduced]
  simp only [ABI.pack, harguments]

end MiniEvm.Abi
