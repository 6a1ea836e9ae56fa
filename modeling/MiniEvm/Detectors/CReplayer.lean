import MiniEvm.Detectors.ContractUtils
import MiniEvm.Framework.Loop

namespace MiniEvm

open Math Framework

/-- The bytes that a Go string holds. -/
def stringBytes (s : String) : Bytes := s.toByteArray.data.toList

def fromHexChar (c : UInt8) : Option UInt8 :=
  if 48 ≤ c ∧ c ≤ 57 then some (c - 48)
  else if 97 ≤ c ∧ c ≤ 102 then some (c - 97 + 10)
  else if 65 ≤ c ∧ c ≤ 70 then some (c - 65 + 10)
  else none

/-- `Hex2Bytes`: the error of `hex.DecodeString` is dropped, what was decoded before it is kept. -/
def hex2Bytes : Bytes → Bytes
  | a :: b :: rest =>
    match fromHexChar a, fromHexChar b with
    | some hi, some lo => (hi * 16 + lo) :: hex2Bytes rest
    | _, _ => []
  | _ => []

/-- Without its prefix, `0x` or `0X`, and with an even number of digits. -/
def fromHex (s : Bytes) : Bytes :=
  let s := if s.take 2 = [48, 120] ∨ s.take 2 = [48, 88] then s.drop 2 else s
  hex2Bytes (if s.length % 2 = 1 then 48 :: s else s)

def hexToAddress (s : String) : Address := bytesToAddress (fromHex (stringBytes s))

/-- The value of a digit in `nat.scan`, above every base for other characters. -/
def digitValue (c : UInt8) : Nat :=
  if 48 ≤ c ∧ c ≤ 57 then c.toNat - 48
  else if 97 ≤ c ∧ c ≤ 122 then c.toNat - 97 + 10
  else if 65 ≤ c ∧ c ≤ 90 then c.toNat - 65 + 10
  else 37

/-- The digits up to the first character that is none. -/
def scanDigits (base : Nat) (s : Bytes) : Nat :=
  ((s.map digitValue).takeWhile (· < base)).foldl (fun n d => n * base + d) 0

/-- `nat.scan` with the base taken from the prefix. -/
def scanNat : Bytes → Nat
  | 48 :: c :: rest =>
    if c = 120 ∨ c = 88 then scanDigits 16 rest
    else if c = 98 ∨ c = 66 then scanDigits 2 rest
    else scanDigits 8 (c :: rest)
  | s => scanDigits 10 s

/-- The receiver of `SetString(s, 0)`, whose result is not looked at: after an error it holds what
was scanned before. -/
def setString (s : String) : Int :=
  match stringBytes s with
  | 45 :: rest => -scanNat rest
  | 43 :: rest => scanNat rest
  | s => scanNat s

/-- `rpcTransaction`: the fields that are executed, and the recipient. -/
structure RpcTransaction where
  fromAddr : String
  toAddr : String
  input : String
  gas : String
  value : String

/-- `cr.state` is the `StateDB` of `cr.evm`. -/
structure CReplayer where
  evm : Evm
  caddr : Address
  txs : List RpcTransaction

namespace CReplayer

/-- The call data is sliced after its first two bytes, whatever they are. -/
def call (env : Env) (fuel : Nat) (cr : CReplayer) (calleraddress calldata gaslimit value : String) :
    Outcome Evm (Bytes × CReplayer) :=
  let data := stringBytes calldata
  (Outcome.ofOption cr.evm (slice data 2 data.length)).bind fun data =>
    (cr.evm.runCall env fuel (.account (hexToAddress calleraddress)) cr.caddr (hex2Bytes data)
      (uint64 (setString gaslimit)) (setString value)).bind fun r =>
        .ok (r.ret, { cr with evm := r.evm })

/-- `Call(From, Input, Gas, Value)`. -/
def callTx (env : Env) (fuel : Nat) (tx : RpcTransaction) (cr : CReplayer) : Outcome Evm CReplayer :=
  (cr.call env fuel tx.fromAddr tx.input tx.gas tx.value).bind fun (_, cr) => .ok cr

/-- A price query; its result is only logged. -/
def query (env : Env) (fuel : Nat) (calldata : String) (tx : RpcTransaction) (cr : CReplayer) :
    Outcome Evm CReplayer :=
  (cr.call env fuel tx.fromAddr calldata tx.gas "0x00").bind fun (_, cr) => .ok cr

/-- The body of the loop: the transaction, the sell price and the buy price. -/
def executeTx (env : Env) (fuel : Nat) (tx : RpcTransaction) (cr : CReplayer) :
    Outcome Evm CReplayer :=
  (cr.callTx env fuel tx).bind fun cr =>
    (cr.query env fuel "0x4b750334" tx).bind fun cr => cr.query env fuel "0x8620410b" tx

def transactionExecuter (env : Env) (fuel : Nat) (cr : CReplayer) : Outcome Evm CReplayer :=
  forEach (executeTx env fuel) cr.txs cr

end CReplayer

end MiniEvm
