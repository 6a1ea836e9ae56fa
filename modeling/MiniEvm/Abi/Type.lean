import MiniEvm.Common.Big
import MiniEvm.Framework.Result

namespace MiniEvm.Abi

open Math Framework

/-- The values of `reflect.Kind` that arguments can have; `ptr` is that of a `*big.Int`. -/
inductive Kind where
  | uint8 | uint16 | uint32 | uint64
  | int8 | int16 | int32 | int64
  | ptr | bool | string | slice | array
  deriving DecidableEq

/-- `abi.Type`, as `NewType` builds it. -/
inductive AbiType where
  | int (size : Nat)
  | uint (size : Nat)
  | bool
  | string
  | slice (elem : AbiType)
  | array (elem : AbiType) (size : Nat)
  | address
  | fixedBytes (size : Nat)
  | bytes
  | function
  deriving DecidableEq

def reflectIntKind (unsigned : Bool) (size : Nat) : Kind :=
  match size with
  | 8 => if unsigned then .uint8 else .int8
  | 16 => if unsigned then .uint16 else .int16
  | 32 => if unsigned then .uint32 else .int32
  | 64 => if unsigned then .uint64 else .int64
  | _ => .ptr

namespace AbiType

/-- The field `Kind`. -/
def kind : AbiType → Kind
  | int size => reflectIntKind false size
  | uint size => reflectIntKind true size
  | bool => .bool
  | string => .string
  | slice _ | bytes => .slice
  | array _ _ | address | fixedBytes _ | function => .array

def requiresLengthPrefix : AbiType → Bool
  | string | bytes | slice _ => true
  | _ => false

end AbiType

/-- A Go value behind `reflect.Value`. Slices and arrays keep the kind of their elements, as an empty
one has it too. -/
inductive Value where
  | num (kind : Kind) (v : Int)
  | bool (b : Bool)
  | string (b : Bytes)
  | slice (elem : Kind) (vs : List Value)
  | array (elem : Kind) (vs : List Value)

namespace Value

def kind : Value → Kind
  | num k _ => k
  | bool _ => .bool
  | string _ => .string
  | slice _ _ => .slice
  | array _ _ => .array

/-- The elements of a slice or an array, with their kind. -/
def elems : Value → Option (Kind × List Value)
  | slice k vs | array k vs => some (k, vs)
  | _ => none

/-- The elements of a `[]byte` or of a byte array. -/
def ofBytes (b : Bytes) : List Value := b.map fun x => num .uint8 x.toNat

def byte : Value → Option UInt8
  | num .uint8 v => some (UInt8.ofNat v.toNat)
  | _ => none

/-- `Bytes()`, after `mustArrayToByteSlice` for an array; absent where these panic. -/
def bytes (v : Value) : Option Bytes :=
  v.elems.bind fun (k, vs) => if k = .uint8 then vs.mapM byte else none

end Value

/-- The errors of this package; the operands of a type error are left out. -/
inductive AbiError where
  | argumentCountMismatch (got want : Nat)
  | cannotUse
  | badBool
  | improperFunction (word : Bytes)
  | negativeSize (size : Int)
  | overBoundary (len upTo : Int)
  | lengthInsufficient (len require : Int)
  | offsetTooLarge (offset : Int)
  | lengthTooLarge (total : Int)
  deriving DecidableEq

end MiniEvm.Abi
