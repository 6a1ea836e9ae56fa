import MiniEvm.Abi.Method

namespace MiniEvm

open Abi

/-- The powers of two are all the same `*big.Int`, which the loops leave at the last power. -/
def generateIntBySize (size : Nat) : List Int :=
  List.replicate 18 (2 ^ size) ++ (List.range 8).map (fun i => (i + 1 : Int)) ++
    (List.range 9).map fun i => (2 ^ size - i : Int)

def testAddress (i : Nat) : Address :=
  bytesToAddress ("testaddress" ++ toString i).toByteArray.data.toList

def generateAddress : List Address := (List.range 10).map testAddress

def generateAddresses : List (List Address) := (List.range 10).map generateAddress.take

/-- A `common.Address` as a Go value. -/
def addressValue (a : Address) : Value := .array .uint8 (Value.ofBytes (Address.bytes a))

/-- The values that are tried for a type; the other types are skipped. -/
def inputsOfType : AbiType → Option (List Value)
  | .slice .address =>
    some (generateAddresses.map fun addresses => .slice .array (addresses.map addressValue))
  | .uint size => some ((generateIntBySize size).map (.num .ptr))
  | .address => some (generateAddress.map addressValue)
  | _ => none

/-- `GenerateInputsByABI` up to the Cartesian product: the values for each argument that is not
skipped. A method that is not in the map has no name and no arguments. -/
def generateInputsByABI (abi : ABI Argument) (function : String) : Option (List (List Value)) :=
  let method := abi.methods.lookup function
  if (method.map fun m => m.name).getD "" ≠ function then none
  else some (((method.map fun m => m.inputs).getD []).filterMap fun arg => inputsOfType arg.type)

end MiniEvm
