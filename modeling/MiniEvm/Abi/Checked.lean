import MiniEvm.Abi.Static

namespace MiniEvm.Abi.Checked

open Math Framework

/-! The decoder with its silent assumptions made explicit: an `int` that goes out of range, a slice
expression out of bounds and an allocation of more elements than there are bytes are all a panic. -/

/-- The result of an `int` operation. -/
@[irreducible] def goInt (x : Int) : Result AbiError Int :=
  if -2 ^ 63 ≤ x ∧ x < 2 ^ 63 then .ok x else .panic

/-- `reflect.MakeSlice`, or the array that `forEachUnpack` declares. -/
def allocate (output : Bytes) (size : Int) : Result AbiError Unit :=
  if 0 ≤ size ∧ size ≤ output.length then .ok () else .panic

/-- The word at `index`. -/
def wordAt (output : Bytes) (index : Int) : Result AbiError Bytes := do
  let upTo ← goInt (index + 32)
  .ofOption (sliceInt output index upTo)

def wordCheck (output : Bytes) (index : Int) : Result AbiError Unit := do
  let upTo ← goInt (index + 32)
  if upTo > output.length then .error (.lengthInsufficient output.length upTo) else .ok ()

def lengthPrefixPointsTo (index : Int) (output : Bytes) : Result AbiError (Int × Int) := do
  let word ← wordAt output index
  let bigOffsetEnd : Int := ofBytes word + 32
  if bigOffsetEnd > output.length then .error (.overBoundary output.length bigOffsetEnd)
  else if bitLen bigOffsetEnd > 63 then .error (.offsetTooLarge bigOffsetEnd)
  else do
    let offsetEnd ← goInt bigOffsetEnd
    let offset ← goInt (offsetEnd - 32)
    let lengthWord ← .ofOption (sliceInt output offset offsetEnd)
    let lengthBig : Int := ofBytes lengthWord
    let totalSize := bigOffsetEnd + lengthBig
    if bitLen totalSize > 63 then .error (.lengthTooLarge totalSize)
    else if totalSize > output.length then .error (.lengthInsufficient output.length totalSize)
    else do
      let start ← goInt bigOffsetEnd
      let length ← goInt lengthBig
      return (start, length)

/-- The loop of `getFullElemSize` and of `getArraySize`, from the outer array to the inner ones. -/
def timesSizes (size : Int) : AbiType → Result AbiError Int
  | .array elem n => do
    let size ← goInt (size * n)
    timesSizes size elem
  | _ => .ok size

def getFullElemSize (elem : AbiType) : Result AbiError Int := timesSizes 32 elem

def forEachCheck (output : Bytes) (start size : Int) : Result AbiError Unit :=
  if size < 0 then .error (.negativeSize size)
  else do
    let bytes ← goInt (32 * size)
    let upTo ← goInt (start + bytes)
    if upTo > output.length then .error (.overBoundary output.length upTo) else allocate output size

/-- The counter moves on after the last element too. -/
def unpackElems (toGo : Int → Result AbiError Value) (elemSize : Int) :
    Nat → Int → Result AbiError (List Value)
  | 0, _ => .ok []
  | size + 1, i => do
    let v ← toGo i
    let i ← goInt (i + elemSize)
    let vs ← unpackElems toGo elemSize size i
    return v :: vs

/-- The readers of the types of one word look at all of its 32 bytes. -/
def wholeWord (word : Bytes) : Result AbiError Unit := if word.length = 32 then .ok () else .panic

def readWord (t : AbiType) (word : Bytes) : Result AbiError Value :=
  match t with
  | .int size => .ok (readInteger (reflectIntKind false size) word)
  | .uint size => .ok (readInteger (reflectIntKind true size) word)
  | .bool => readBool word
  | .address => .ok (readAddress word)
  | .fixedBytes size => readFixedBytes size word
  | .function => readFunctionType word
  | _ => .panic

def toGoType : AbiType → Int → Bytes → Result AbiError Value
  | .slice elem, index, output => do
    wordCheck output index
    let (start, size) ← lengthPrefixPointsTo index output
    forEachCheck output start size
    let vs ← unpackElems (fun i => toGoType elem i output) 32 size.toNat start
    return .slice elem.kind vs
  | .array elem size, index, output => do
    wordCheck output index
    let _ ← wordAt output index
    forEachCheck output index size
    let elemSize ← getFullElemSize elem
    let vs ← unpackElems (fun i => toGoType elem i output) elemSize size index
    return .array elem.kind vs
  | .string, index, output => do
    wordCheck output index
    let (start, size) ← lengthPrefixPointsTo index output
    let upTo ← goInt (start + size)
    let b ← .ofOption (sliceInt output start upTo)
    return .string b
  | .bytes, index, output => do
    wordCheck output index
    let (start, size) ← lengthPrefixPointsTo index output
    let upTo ← goInt (start + size)
    let b ← .ofOption (sliceInt output start upTo)
    return .slice .uint8 (Value.ofBytes b)
  | t, index, output => do
    wordCheck output index
    let word ← wordAt output index
    wholeWord word
    readWord t word

/-- The virtual arguments after an argument. -/
def nextVirtualArgs (t : AbiType) (virtualArgs : Int) : Result AbiError Int :=
  match t with
  | .array elem size => do
    let arraySize ← timesSizes size elem
    let more ← goInt (arraySize - 1)
    goInt (virtualArgs + more)
  | _ => .ok virtualArgs

def unpackLoop (data : Bytes) : List Argument → Int → Int → Result AbiError (List Value)
  | [], _, _ => .ok []
  | arg :: rest, index, virtualArgs => do
    let position ← goInt (index + virtualArgs)
    let offset ← goInt (position * 32)
    -- counted before the error of the argument is looked at
    let virtualArgs ← nextVirtualArgs arg.type virtualArgs
    let v ← toGoType arg.type offset data
    let vs ← unpackLoop data rest (index + 1) virtualArgs
    return v :: vs

def unpackValues (arguments : List Argument) (data : Bytes) : Result AbiError (List Value) :=
  unpackLoop data (arguments.filter fun arg => !arg.indexed) 0 0

end MiniEvm.Abi.Checked
