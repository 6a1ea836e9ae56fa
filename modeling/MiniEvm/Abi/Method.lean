import MiniEvm.Abi.Abi
import MiniEvm.Abi.Pack
import MiniEvm.Vm.Machine

namespace MiniEvm.Abi

open Math Framework

/-- `Method.Sig`: the texts of the input types as they were given. -/
def Method.sig (method : Method Argument) : String :=
  method.name ++ "(" ++ ",".intercalate (method.inputs.map Argument.stringKind) ++ ")"

/-- The first four bytes of the hash of the signature. -/
def Method.id (crypto : Crypto) (method : Method Argument) : Bytes :=
  (toBytes 32 (crypto.keccak256 method.sig.toByteArray.data.toList).toNat).take 4

/-- The errors of `ABI.Pack`. -/
inductive PackError where
  | methodNotFound (name : String)
  | arguments (e : AbiError)

/-- `ABI.Pack`; the empty name is that of the constructor. -/
def ABI.pack (crypto : Crypto) (abi : ABI Argument) (name : String) (args : List Value) :
    Result PackError Bytes :=
  if name = "" then (packArguments (abi.constructor.getD []) args).mapError .arguments
  else
    match abi.methods.lookup name with
    | none => .error (.methodNotFound name)
    | some method => do
      let arguments ← (packArguments method.inputs args).mapError .arguments
      return method.id crypto ++ arguments

end MiniEvm.Abi
