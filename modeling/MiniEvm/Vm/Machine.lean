import MiniEvm.Framework.Outcome
import MiniEvm.Params.Config
import MiniEvm.State.StateDB
import MiniEvm.Vm.Analysis
import MiniEvm.Vm.OpCode

namespace MiniEvm

open Math Framework

/-- The error values of the virtual machine, with what their messages print. -/
inductive VmError where
  | outOfGas
  | codeStoreOutOfGas
  | depth
  | insufficientBalance
  | contractAddressCollision
  | gasUintOverflow
  | writeProtection
  | returnDataOutOfBounds
  | executionReverted
  | maxCodeSizeExceeded
  | invalidOpcode (op : UInt8)
  | stackUnderflow (len need : Nat)
  | stackLimitReached (len limit : Nat)
  | invalidJump (nop : UInt8) (pos : Int)
  | notOnCurve
  | invalidCurvePoint
  | badPairingInput
  deriving DecidableEq

/-- The operand stack, top first; each item is the value of a `*big.Int`. -/
abbrev Stack := List Int

namespace Stack

def back (st : Stack) (n : Nat) : Option Int := st[n]?

/-- `makeStackFunc(pop, push)`: the error it reports, if any. -/
def validate (st : Stack) (pop push : Nat) : Option VmError :=
  if st.length < pop then some (.stackUnderflow st.length pop)
  else if st.length + push - pop > stackLimit then some (.stackLimitReached st.length stackLimit)
  else none

theorem exists_two {st : Stack} (h : 2 ≤ st.length) : ∃ a b rest, st = a :: b :: rest := by
  rcases st with _ | ⟨a, _ | ⟨b, rest⟩⟩
  · simp at h
  · simp at h
  · exact ⟨a, b, rest, rfl⟩

theorem exists_three {st : Stack} (h : 3 ≤ st.length) : ∃ a b c rest, st = a :: b :: c :: rest := by
  obtain ⟨a, b, rest, rfl⟩ := exists_two (Nat.le_of_succ_le h)
  obtain ⟨c, rest, rfl⟩ := List.exists_cons_of_length_pos (by simp at h; omega : 0 < rest.length)
  exact ⟨a, b, c, rest, rfl⟩

theorem exists_six {st : Stack} (h : 6 ≤ st.length) :
    ∃ a b c d e f rest, st = a :: b :: c :: d :: e :: f :: rest := by
  obtain ⟨a, b, c, rest, rfl⟩ := exists_three (Nat.le_trans (by decide) h)
  obtain ⟨d, e, f, rest, rfl⟩ := exists_three (by simp at h; omega : 3 ≤ rest.length)
  exact ⟨a, b, c, d, e, f, rest, rfl⟩

theorem exists_seven {st : Stack} (h : 7 ≤ st.length) :
    ∃ a b c d e f g rest, st = a :: b :: c :: d :: e :: f :: g :: rest := by
  obtain ⟨a, b, c, d, e, f, rest, rfl⟩ := exists_six (Nat.le_of_succ_le h)
  obtain ⟨g, rest, rfl⟩ := List.exists_cons_of_length_pos (by simp at h; omega : 0 < rest.length)
  exact ⟨a, b, c, d, e, f, g, rest, rfl⟩

end Stack

structure Memory where
  store : Bytes
  lastGasCost : UInt64

namespace Memory

def new : Memory := ⟨[], 0⟩

def len (m : Memory) : Nat := m.store.length

/-- Absent when the region is not inside the store. -/
def set (m : Memory) (offset size : UInt64) (value : Bytes) : Option Memory :=
  if size.toNat > m.len then none
  else if size > 0 then
    (slice m.store offset.toNat (offset + size).toNat).map fun region =>
      { m with store := overwrite m.store offset.toNat (value.take region.length) }
  else some m

def resize (m : Memory) (size : UInt64) : Memory :=
  if m.len < size.toNat then { m with store := m.store ++ List.replicate (size.toNat - m.len) 0 }
  else m

/-- Both `Get` and `GetPtr`: an empty result for a start past the end, absent on bad bounds. -/
def get (m : Memory) (offset size : Int) : Option Bytes :=
  if size = 0 then some []
  else if (m.len : Int) > offset then
    let hi := int64 (offset + size)
    if 0 ≤ offset ∧ 0 ≤ hi then slice m.store offset.toNat hi.toNat else none
  else some []

end Memory

/-- `vm.Contract`; `jumpdests` is shared with the caller's contract, see `Evm.call`. -/
structure Contract where
  callerAddress : Address
  self : Address
  jumpdests : Destinations
  code : Bytes
  codeHash : Hash
  codeAddr : Option Address
  input : Bytes
  gas : UInt64
  value : Int

/-- `vm.ContractRef`: a plain account or a running contract. -/
inductive ContractRef where
  | account (a : Address)
  | contract (c : Contract)

namespace ContractRef

def address : ContractRef → Address
  | account a => a
  | contract c => c.self

/-- A contract's analysis is reused, an account starts with a fresh map. -/
def jumpdests : ContractRef → Destinations
  | account _ => Destinations.empty
  | contract c => c.jumpdests

end ContractRef

namespace Contract

def new (caller : ContractRef) (object : Address) (value : Int) (gas : UInt64) : Contract :=
  { callerAddress := caller.address, self := object, jumpdests := caller.jumpdests, code := [],
    codeHash := 0, codeAddr := none, input := [], gas := gas, value := value }

/-- Takes caller and value from the parent; absent when the caller is no contract. -/
def asDelegate (c : Contract) (caller : ContractRef) : Option Contract :=
  match caller with
  | .account _ => none
  | .contract parent =>
    some { c with callerAddress := parent.callerAddress, value := parent.value }

def setCallCode (c : Contract) (addr : Address) (hash : Hash) (code : Bytes) : Contract :=
  { c with code := code, codeHash := hash, codeAddr := some addr }

def getByte (c : Contract) (n : Nat) : UInt8 := c.code.getD n 0

/-- The contract after paying, absent when it cannot pay. -/
def useGas (c : Contract) (gas : UInt64) : Option Contract :=
  if c.gas < gas then none else some { c with gas := c.gas - gas }

end Contract

/-- The local variables of `Interpreter.Run`. Code is shorter than 2^63 bytes and `pc` stays
within 33 of its end, so a natural number does not wrap where `uint64` would not. -/
structure Frame where
  pc : Nat
  stack : Stack
  mem : Memory
  contract : Contract

/-- What all frames of an `EVM` and its `Interpreter` share and change. -/
structure World where
  stateDB : StateDB
  depth : Nat
  readOnly : Bool
  returnData : Bytes
  callGasTemp : UInt64
  abort : Bool

/-- What the ghost trace records: an instruction whose gas is about to be computed, one that is
about to be executed (both with the state before), an invocation of `evm.Callback`, and a contract
handed to `run`. -/
inductive Event where
  | attempt (w : World) (fr : Frame) (op : OpCode)
  | exec (w : World) (fr : Frame) (op : OpCode)
  | callback (site : OpCode) (loc : Hash) (val : Int)
  | enter (depth : Nat) (c : Contract) (input : Bytes)

structure Evm extends World where
  trace : List Event

/-- `NewEVM`: the parts that change. -/
def Evm.new (statedb : StateDB) : Evm :=
  { stateDB := statedb, depth := 0, readOnly := false, returnData := [], callGasTemp := 0,
    abort := false, trace := [] }

def Evm.emit (evm : Evm) (e : Event) : Evm := { evm with trace := evm.trace ++ [e] }

/-- Hash functions and curve arithmetic, not modelled further. -/
structure Crypto where
  keccak256 : Bytes → Hash
  ecrecover : Bytes → Bytes
  sha256 : Bytes → Bytes
  ripemd160 : Bytes → Bytes
  bn256Add : Bytes → Except VmError Bytes
  bn256ScalarMul : Bytes → Except VmError Bytes
  bn256Pairing : Bytes → Except VmError Bytes

/-- A stand-in for concrete runs that depend on no digest. -/
def Crypto.zero : Crypto where
  keccak256 _ := 0
  ecrecover _ := []
  sha256 _ := []
  ripemd160 _ := []
  bn256Add _ := .ok []
  bn256ScalarMul _ := .ok []
  bn256Pairing _ := .ok []

/-- `vm.Context`, the chain configuration and the options of `vm.Config`. -/
structure Env where
  crypto : Crypto
  getHash : UInt64 → Hash
  origin : Address
  gasPrice : Int
  coinbase : Address
  gasLimit : UInt64
  blockNumber : Int
  time : Int
  difficulty : Int
  chainConfig : ChainConfig
  noRecursion : Bool
  disableGasMetering : Bool

namespace Env

def isHomestead (env : Env) : Bool := env.chainConfig.isHomestead env.blockNumber
def isEIP150 (env : Env) : Bool := env.chainConfig.isEIP150 env.blockNumber
def isEIP158 (env : Env) : Bool := env.chainConfig.isEIP158 env.blockNumber
def isByzantium (env : Env) : Bool := env.chainConfig.isByzantium env.blockNumber
def gasTable (env : Env) : GasTable := env.chainConfig.gasTable env.blockNumber

end Env

/-- What `Interpreter.Run` and `run` return, with the contract and the machine they leave. -/
structure RunResult where
  ret : Bytes
  err : Option VmError
  evm : Evm
  contract : Contract

/-- `Interpreter.Run` as the entry points of the machine see it. -/
abbrev RunFn := Evm → Contract → Bytes → Outcome Evm RunResult

end MiniEvm
