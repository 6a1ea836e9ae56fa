import MiniEvm.Abi.Type

namespace MiniEvm.Abi

open Math Framework

/-- `abi.U256`. -/
def packedU256 (n : Int) : Bytes := paddedBigBytes (u256 n) 32

/-- `packNum` on any integer; the sign is lost in the word. What it does to a `*big.Int` itself is
`Value.reduced`. -/
def packNum (n : Int) : Bytes := packedU256 n

mutual

/-- A value after it was packed: `U256` reduces a `*big.Int` in place. -/
def Value.reduced : Value → Value
  | .num .ptr n => .num .ptr (u256 n)
  | .slice k vs => .slice k (Value.reducedAll vs)
  | .array k vs => .array k (Value.reducedAll vs)
  | v => v

def Value.reducedAll : List Value → List Value
  | [] => []
  | v :: vs => v.reduced :: Value.reducedAll vs

end

/-- The length and the bytes, padded to whole words of that length. -/
def packBytesSlice (bytes : Bytes) (l : Nat) : Bytes :=
  packNum l ++ rightPad bytes ((l + 31) / 32 * 32)

/-- Absent where the reflection panics. -/
def packElement (t : AbiType) (v : Value) : Option Bytes :=
  match t, v with
  | .int _, .num _ n | .uint _, .num _ n => some (packNum n)
  | .string, .string b => some (packBytesSlice b b.length)
  | .address, v => v.bytes.map (leftPad · 32)
  | .bool, .bool b => some (paddedBigBytes (if b then 1 else 0) 32)
  | .bytes, v => v.bytes.map fun b => packBytesSlice b b.length
  | .fixedBytes _, v | .function, v => v.bytes.map (rightPad · 32)
  | _, _ => none

namespace AbiType

/-- The last check of `sliceTypeCheck`. -/
def elemKindCheck (elem : AbiType) (k : Kind) : Result AbiError Unit :=
  if k ≠ elem.kind then .error .cannotUse else .ok ()

/-- Nested types are checked on the first element only; an array type looks at it even if there is
none. -/
def sliceTypeCheck : AbiType → Value → Result AbiError Unit
  | slice elem, v =>
    match v.elems with
    | none => .error .cannotUse
    | some (k, vs) =>
      match elem, vs with
      | slice _, v₀ :: _ | array _ _, v₀ :: _ => sliceTypeCheck elem v₀
      | array _ _, [] => .panic
      | _, _ => elemKindCheck elem k
  | array elem size, v =>
    match v.elems with
    | none => .error .cannotUse
    | some (k, vs) =>
      if vs.length ≠ size then .error .cannotUse
      else
        match elem, vs with
        | slice _, v₀ :: _ | array _ _, v₀ :: _ => sliceTypeCheck elem v₀
        | array _ _, [] => .panic
        | _, _ => elemKindCheck elem k
  | _, _ => .panic

def typeCheck (t : AbiType) (v : Value) : Result AbiError Unit :=
  match t with
  | slice _ | array _ _ => t.sliceTypeCheck v
  | fixedBytes size =>
    if v.kind ≠ .array ∨ (v.elems.map fun e => e.2.length) ≠ some size then .error .cannotUse
    else .ok ()
  | _ => if t.kind ≠ v.kind then .error .cannotUse else .ok ()

def pack : AbiType → Value → Result AbiError Bytes
  | slice elem, v => do
    (slice elem).typeCheck v
    let (_, vs) ← .ofOption v.elems
    let packed ← Result.mapAll (fun x => pack elem x) vs
    return packBytesSlice packed.flatten vs.length
  | array elem size, v => do
    (array elem size).typeCheck v
    let (_, vs) ← .ofOption v.elems
    let packed ← Result.mapAll (fun x => pack elem x) vs
    return packed.flatten
  | t, v => do
    t.typeCheck v
    .ofOption (packElement t v)

end AbiType

/-- `abi.Argument`; the name plays no role in the encoding. `stringKind` is the field of the type that
holds the unparsed text. -/
structure Argument where
  type : AbiType
  indexed : Bool
  stringKind : String
  deriving DecidableEq

/-- The head bytes that `Pack` and `Fuzz` count for a type: an array counts its own size only. -/
def AbiType.headSize : AbiType → Int
  | array _ size => int64 (32 * size)
  | _ => 32

/-- The head size that `Pack` and `Fuzz` compute. -/
def inputOffset (args : List Argument) : Int :=
  args.foldl (fun offset arg => int64 (offset + arg.type.headSize)) 0

/-- The loop of `Pack`: the head words and the variable input so far. -/
def packLoop (offset : Int) : List (Argument × Value) → Bytes → Bytes → Result AbiError (Bytes × Bytes)
  | [], ret, variableInput => .ok (ret, variableInput)
  | (input, a) :: rest, ret, variableInput => do
    let packed ← input.type.pack a
    if input.type.requiresLengthPrefix then
      packLoop offset rest (ret ++ packNum (int64 (offset + variableInput.length)))
        (variableInput ++ packed)
    else packLoop offset rest (ret ++ packed) variableInput

/-- `Arguments.Pack`. -/
def packArguments (arguments : List Argument) (args : List Value) : Result AbiError Bytes :=
  if args.length ≠ arguments.length then
    .error (.argumentCountMismatch args.length arguments.length)
  else do
    let (ret, variableInput) ← packLoop (inputOffset arguments) (arguments.zip args) [] []
    return ret ++ variableInput

end MiniEvm.Abi
