import MiniEvm.Vm.Machine

namespace MiniEvm

open Math

/-- `getData`: `start + size` is a `uint64` sum, so a huge `size` can put the end first. That
`make([]byte, size)` panics for a size above the limit of the runtime is left out: here any size is
allocated. -/
def getData (data : Bytes) (start size : UInt64) : Option Bytes :=
  let length := UInt64.ofNat data.length
  let start := if start > length then length else start
  let last := start + size
  let last := if last > length then length else last
  (slice data start.toNat last.toNat).map fun s =>
    rightPad s (if size.toNat < 2^63 then size.toNat else 0)

inductive Precompiled where
  | ecrecover | sha256hash | ripemd160hash | dataCopy | bigModExp
  | bn256Add | bn256ScalarMul | bn256Pairing
  deriving DecidableEq

def precompiledContractsHomestead (a : Address) : Option Precompiled :=
  if a = 1 then some .ecrecover
  else if a = 2 then some .sha256hash
  else if a = 3 then some .ripemd160hash
  else if a = 4 then some .dataCopy
  else none

def precompiledContractsByzantium (a : Address) : Option Precompiled :=
  if a = 5 then some .bigModExp
  else if a = 6 then some .bn256Add
  else if a = 7 then some .bn256ScalarMul
  else if a = 8 then some .bn256Pairing
  else precompiledContractsHomestead a

def Env.precompiles (env : Env) (a : Address) : Option Precompiled :=
  if env.isByzantium then precompiledContractsByzantium a else precompiledContractsHomestead a

namespace BigModExp

/-- The three length fields at the head of the input. -/
def lengths (input : Bytes) : Option (Int × Int × Int) := do
  let baseLen ← getData input 0 32
  let expLen ← getData input 32 32
  let modLen ← getData input 64 32
  return (ofBytes baseLen, ofBytes expLen, ofBytes modLen)

/-- What follows the length fields. -/
def body (input : Bytes) : Bytes := input.drop 96

/-- The first 32 bytes of the exponent. -/
def expHead (input : Bytes) (baseLen expLen : Int) : Option Int :=
  if (input.length : Int) ≤ baseLen then some 0
  else if expLen > 32 then (getData input (uint64 baseLen) 32).map fun b => (ofBytes b : Int)
  else (getData input (uint64 baseLen) (uint64 expLen)).map fun b => (ofBytes b : Int)

/-- The piecewise quadratic complexity of the longer operand. -/
def multComplexity (x : Int) : Int :=
  if x ≤ 64 then x * x
  else if x ≤ 1024 then x * x / 4 + (96 * x - 3072)
  else x * x / 16 + (480 * x - 199680)

def requiredGas (input : Bytes) : Option UInt64 := do
  let (baseLen, expLen, modLen) ← lengths input
  let head ← expHead (body input) baseLen expLen
  let msb : Int := bitLen head - 1
  let adjExpLen : Int := (if expLen > 32 then 8 * (expLen - 32) else 0) + max msb 0
  let gas := multComplexity (max modLen baseLen) * max adjExpLen 1 / modExpQuadCoeffDiv
  return if bitLen gas > 64 then maxUint64 else uint64 gas

/-- The lengths are truncated to 64 bits here, unlike in `requiredGas`. -/
def run (input : Bytes) : Option Bytes := do
  let (baseLen, expLen, modLen) ← lengths input
  let (baseLen, expLen, modLen) := (uint64 baseLen, uint64 expLen, uint64 modLen)
  let input := body input
  if baseLen = 0 ∧ modLen = 0 then return []
  let base ← getData input 0 baseLen
  let exp ← getData input baseLen expLen
  let mod ← getData input (baseLen + expLen) modLen
  let width := if modLen.toNat < 2^63 then modLen.toNat else 0
  if ofBytes mod = 0 then return leftPad [] width
  return leftPad (bigBytes (ofBytes base ^ ofBytes exp % ofBytes mod : Nat)) width

end BigModExp

namespace Precompiled

/-- The price per started 32-byte word, on top of a base price. -/
def wordGas (input : Bytes) (perWord base : UInt64) : UInt64 :=
  UInt64.ofNat (input.length + 31) / 32 * perWord + base

def requiredGas (p : Precompiled) (input : Bytes) : Option UInt64 :=
  match p with
  | ecrecover => some ecrecoverGas
  | sha256hash => some (wordGas input sha256PerWordGas sha256BaseGas)
  | ripemd160hash => some (wordGas input ripemd160PerWordGas ripemd160BaseGas)
  | dataCopy => some (wordGas input identityPerWordGas identityBaseGas)
  | bigModExp => BigModExp.requiredGas input
  | bn256Add => some bn256AddGas
  | bn256ScalarMul => some bn256ScalarMulGas
  | bn256Pairing =>
    some (bn256PairingBaseGas + UInt64.ofNat (input.length / 192) * bn256PairingPerPointGas)

/-- A curve operation as a result and an error. -/
def ofCurve : Except VmError Bytes → Bytes × Option VmError
  | .ok b => (b, none)
  | .error e => ([], some e)

def run (crypto : Crypto) (p : Precompiled) (input : Bytes) : Option (Bytes × Option VmError) :=
  match p with
  | ecrecover => some (crypto.ecrecover input, none)
  | sha256hash => some (crypto.sha256 input, none)
  | ripemd160hash => some (leftPad (crypto.ripemd160 input) 32, none)
  | dataCopy => some (input, none)
  | bigModExp => (BigModExp.run input).map fun b => (b, none)
  | bn256Add => some (ofCurve (crypto.bn256Add input))
  | bn256ScalarMul => some (ofCurve (crypto.bn256ScalarMul input))
  | bn256Pairing => some (ofCurve (crypto.bn256Pairing input))

end Precompiled

/-- The precompiled contract's result and the contract after the charge. -/
def runPrecompiledContract (crypto : Crypto) (p : Precompiled) (input : Bytes)
    (contract : Contract) : Option (Bytes × Option VmError × Contract) :=
  (p.requiredGas input).bind fun gas =>
    match contract.useGas gas with
    | some contract => (p.run crypto input).map fun (ret, err) => (ret, err, contract)
    | none => some ([], some .outOfGas, contract)

end MiniEvm
