import MiniEvm.Abi.Pack

namespace MiniEvm.Abi

open Math Framework

/-- The slice expression on Go's integers. -/
def sliceInt (output : Bytes) (lo hi : Int) : Option Bytes :=
  if 0 ≤ lo ∧ 0 ≤ hi then slice output lo.toNat hi.toNat else none

/-- The last `n` bytes, read as an unsigned number. -/
def lowBytes (n : Nat) (b : Bytes) : Int := ofBytes (b.drop (b.length - n))

def readInteger (kind : Kind) (b : Bytes) : Value :=
  match kind with
  | .uint8 => .num .uint8 (lowBytes 1 b)
  | .uint16 => .num .uint16 (lowBytes 2 b)
  | .uint32 => .num .uint32 (lowBytes 4 b)
  | .uint64 => .num .uint64 (lowBytes 8 b)
  | .int8 => .num .int8 ((lowBytes 1 b).bmod (2 ^ 8))
  | .int16 => .num .int16 ((lowBytes 2 b).bmod (2 ^ 16))
  | .int32 => .num .int32 ((lowBytes 4 b).bmod (2 ^ 32))
  | .int64 => .num .int64 ((lowBytes 8 b).bmod (2 ^ 64))
  | _ => .num .ptr (ofBytes b)

def readBool (word : Bytes) : Result AbiError Value :=
  if (word.take 31).any (· ≠ 0) then .error .badBool
  else if word.drop 31 = [0] then .ok (.bool false)
  else if word.drop 31 = [1] then .ok (.bool true)
  else .error .badBool

def readFunctionType (word : Bytes) : Result AbiError Value :=
  if ofBytes (word.drop 24) ≠ 0 then .error (.improperFunction word)
  else .ok (.array .uint8 (Value.ofBytes (word.take 24)))

/-- `ReadFixedBytes`: a size above 32 panics here. Go slices the word up to its capacity, and so reads
on in the data behind it as far as there is any. -/
def readFixedBytes (size : Nat) (word : Bytes) : Result AbiError Value := do
  let b ← .ofOption (slice word 0 size)
  return .array .uint8 (Value.ofBytes b)

/-- `common.BytesToAddress` on a word. -/
def readAddress (word : Bytes) : Value :=
  .array .uint8 (Value.ofBytes (word.drop (word.length - 20)))

/-- The bytes of an element inside an array. -/
def getFullElemSize : AbiType → Int
  | .array elem size => int64 (getFullElemSize elem * size)
  | _ => 32

/-- The loop of `forEachUnpack`: `size` more elements from `i` on. -/
def unpackElems (toGo : Int → Result AbiError Value) (elemSize : Int) :
    Nat → Int → Result AbiError (List Value)
  | 0, _ => .ok []
  | size + 1, i => do
    let v ← toGo i
    let vs ← unpackElems toGo elemSize size (int64 (i + elemSize))
    return v :: vs

/-- The checks that `forEachUnpack` makes before its loop. -/
def forEachCheck (output : Bytes) (start size : Int) : Result AbiError Unit :=
  if size < 0 then .error (.negativeSize size)
  else if int64 (start + int64 (32 * size)) > output.length then
    .error (.overBoundary output.length (int64 (start + int64 (32 * size))))
  else .ok ()

/-- Where a length-prefixed value starts, and its length. -/
def lengthPrefixPointsTo (index : Int) (output : Bytes) : Result AbiError (Int × Int) := do
  let word ← .ofOption (sliceInt output index (int64 (index + 32)))
  let bigOffsetEnd : Int := ofBytes word + 32
  if bigOffsetEnd > output.length then .error (.overBoundary output.length bigOffsetEnd)
  else if bitLen bigOffsetEnd > 63 then .error (.offsetTooLarge bigOffsetEnd)
  else do
    let lengthWord ← .ofOption (sliceInt output (bigOffsetEnd - 32) bigOffsetEnd)
    let lengthBig : Int := ofBytes lengthWord
    let totalSize := bigOffsetEnd + lengthBig
    if bitLen totalSize > 63 then .error (.lengthTooLarge totalSize)
    else if totalSize > output.length then .error (.lengthInsufficient output.length totalSize)
    else .ok (bigOffsetEnd, lengthBig)

/-- The word at `index`. -/
def wordAt (output : Bytes) (index : Int) : Result AbiError Bytes :=
  .ofOption (sliceInt output index (int64 (index + 32)))

/-- The check that `toGoType` makes first. -/
def wordCheck (output : Bytes) (index : Int) : Result AbiError Unit :=
  if int64 (index + 32) > output.length then
    .error (.lengthInsufficient output.length (int64 (index + 32)))
  else .ok ()

def toGoType : AbiType → Int → Bytes → Result AbiError Value
  | .slice elem, index, output => do
    wordCheck output index
    let (start, size) ← lengthPrefixPointsTo index output
    forEachCheck output start size
    let vs ← unpackElems (fun i => toGoType elem i output) 32 size.toNat start
    return .slice elem.kind vs
  | .array elem size, index, output => do
    wordCheck output index
    let _ ← wordAt output index
    forEachCheck output index size
    let vs ← unpackElems (fun i => toGoType elem i output) (getFullElemSize elem) size index
    return .array elem.kind vs
  | .string, index, output => do
    wordCheck output index
    let (start, size) ← lengthPrefixPointsTo index output
    let b ← .ofOption (sliceInt output start (int64 (start + size)))
    return .string b
  | .bytes, index, output => do
    wordCheck output index
    let (start, size) ← lengthPrefixPointsTo index output
    let b ← .ofOption (sliceInt output start (int64 (start + size)))
    return .slice .uint8 (Value.ofBytes b)
  | .int size, index, output => do
    wordCheck output index
    return readInteger (reflectIntKind false size) (← wordAt output index)
  | .uint size, index, output => do
    wordCheck output index
    return readInteger (reflectIntKind true size) (← wordAt output index)
  | .bool, index, output => do
    wordCheck output index
    readBool (← wordAt output index)
  | .address, index, output => do
    wordCheck output index
    return readAddress (← wordAt output index)
  | .fixedBytes size, index, output => do
    wordCheck output index
    readFixedBytes size (← wordAt output index)
  | .function, index, output => do
    wordCheck output index
    readFunctionType (← wordAt output index)

/-- The words of an array with all that is nested in it. -/
def getArraySize : AbiType → Int
  | .array elem size =>
    match elem with
    | .array _ _ => int64 (size * getArraySize elem)
    | _ => size
  | _ => 1

/-- The loop of `UnpackValues` from an index on. -/
def unpackLoop (data : Bytes) : List Argument → Int → Int → Result AbiError (List Value)
  | [], _, _ => .ok []
  | arg :: rest, index, virtualArgs => do
    let v ← toGoType arg.type (int64 (int64 (index + virtualArgs) * 32)) data
    let virtualArgs :=
      match arg.type with
      | .array _ _ => int64 (virtualArgs + (getArraySize arg.type - 1))
      | _ => virtualArgs
    let vs ← unpackLoop data rest (index + 1) virtualArgs
    return v :: vs

/-- `Arguments.UnpackValues`. -/
def unpackValues (arguments : List Argument) (data : Bytes) : Result AbiError (List Value) :=
  unpackLoop data (arguments.filter fun arg => !arg.indexed) 0 0

end MiniEvm.Abi
