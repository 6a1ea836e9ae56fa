import MiniEvm.Abi.Pack

namespace MiniEvm.Abi

open Math Framework

/-- The outcome of the random choices for a value. -/
inductive Draw where
  | elems (ds : List Draw)
  | uint64 (n : UInt64)
  | int64 (n : Int64)
  | special (chooseRange : Fin 4) (n : Fin 16)
  | bytes (b : Bytes)
  | address (a : Address)
  | bool (b : Bool)

namespace Draw

/-- `rand.Int(rand.Reader, 16)` elements. -/
def asElems : Draw → Option (List Draw)
  | elems ds => if ds.length < 16 then some ds else none
  | _ => none

def asUint64 : Draw → Option UInt64
  | uint64 n => some n
  | _ => none

def asInt64 : Draw → Option Int64
  | int64 n => some n
  | _ => none

def asSpecial : Draw → Option (Fin 4 × Fin 16)
  | special chooseRange n => some (chooseRange, n)
  | _ => none

def asBytes : Draw → Option Bytes
  | bytes b => some b
  | _ => none

def asAddress : Draw → Option Address
  | address a => some a
  | _ => none

def asBool : Draw → Option Bool
  | bool b => some b
  | _ => none

end Draw

def packFuzzedBytesSlice (fuzzed : Bytes) : Bytes :=
  let l := fuzzed.length / 32
  packNum l ++ rightPad fuzzed ((l + 31) / 32 * 32)

def genRandomInSpecialDist (chooseRange : Fin 4) (n : Fin 16) : Int :=
  match chooseRange with
  | 0 => n
  | 1 => 2 ^ 255 - 16 + n
  | 2 => 2 ^ 255 + n
  | 3 => 2 ^ 256 - 16 + n

/-- Small integers are drawn with 64 bits whatever their size; here and below the draw has to be one
for the type. -/
def fuzzNum (kind : Kind) (d : Draw) : Result AbiError Bytes :=
  match kind with
  | .uint8 | .uint16 | .uint32 | .uint64 =>
    .ofOption (d.asUint64.map fun value => packedU256 value.toNat)
  | .int8 | .int16 | .int32 | .int64 =>
    .ofOption (d.asInt64.map fun value => packedU256 value.toInt)
  | .ptr => .ofOption (d.asSpecial.map fun (chooseRange, n) =>
      packedU256 (genRandomInSpecialDist chooseRange n))
  | _ => .panic

def fuzzAddress (a : Address) : Option Bytes :=
  packElement .address (.array .uint8 (Value.ofBytes (Address.bytes a)))

/-- `fuzzBytesSlice` has no case for fixed bytes and functions. -/
def fuzzElement (t : AbiType) (d : Draw) : Result AbiError Bytes :=
  match t with
  | .int size => fuzzNum (reflectIntKind false size) d
  | .uint size => fuzzNum (reflectIntKind true size) d
  | .string | .bytes => .ofOption (d.asBytes.map fun b => packBytesSlice b b.length)
  | .address => .ofOption (d.asAddress.bind fun a => (fuzzAddress a).map (leftPad · 32))
  | .bool => .ofOption (d.asBool.map fun b => paddedBigBytes (if b then 1 else 0) 32)
  | .fixedBytes _ | .function => .ok []
  | .slice _ | .array _ _ => .panic

/-- `Type.fuzz`; the size of an array is not looked at. -/
def AbiType.fuzz : AbiType → Draw → Result AbiError Bytes
  | slice elem, d => do
    let ds ← .ofOption d.asElems
    let fuzzed ← Result.mapAll (fun d => fuzz elem d) ds
    return packFuzzedBytesSlice fuzzed.flatten
  | array elem _, d => do
    let ds ← .ofOption d.asElems
    let fuzzed ← Result.mapAll (fun d => fuzz elem d) ds
    return fuzzed.flatten
  | t, d => fuzzElement t d

/-- The loop of `Fuzz`: the head words and the variable input so far. -/
def fuzzLoop (offset : Int) :
    List (Argument × Draw) → Bytes → Bytes → Result AbiError (Bytes × Bytes)
  | [], ret, variableInput => .ok (ret, variableInput)
  | (input, d) :: rest, ret, variableInput => do
    let fuzzed ← input.type.fuzz d
    if input.type.requiresLengthPrefix then
      fuzzLoop offset rest (ret ++ packNum (int64 (offset + variableInput.length)))
        (variableInput ++ fuzzed)
    else fuzzLoop offset rest (ret ++ fuzzed) variableInput

/-- `Arguments.Fuzz` with the outcomes for its arguments. -/
def fuzzArguments (arguments : List Argument) (ds : List Draw) : Result AbiError Bytes :=
  if ds.length ≠ arguments.length then .panic
  else do
    let (ret, variableInput) ← fuzzLoop (inputOffset arguments) (arguments.zip ds) [] []
    return ret ++ variableInput

end MiniEvm.Abi
