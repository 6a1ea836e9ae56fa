import MiniEvm.Vm.Machine

namespace MiniEvm

open Math

/-- The memory a region needs; an empty region needs none, wherever it starts. -/
def calcMemSize (off l : Int) : Int := if l = 0 then 0 else off + l

/-- The low 64 bits and whether more were there. -/
def bigUint64 (v : Int) : UInt64 × Bool := (uint64 v, bitLen v > 64)

def toWordSize (size : UInt64) : UInt64 :=
  if size > maxUint64 - 31 then maxUint64 / 32 + 1 else (size + 31) / 32

abbrev MemorySizeFn := Stack → Option Int

/-- The region whose offset and length are the given stack items. -/
def memoryRegion (off l : Nat) : MemorySizeFn := fun st =>
  (st.back off).bind fun o => (st.back l).map fun s => calcMemSize o s

/-- A region of fixed length at the top stack item. -/
def memoryFixed (l : Int) : MemorySizeFn := fun st => (st.back 0).map fun o => calcMemSize o l

/-- The larger of two regions, the output region first. -/
def memoryTwoRegions (out outLen args argsLen : Nat) : MemorySizeFn := fun st =>
  (memoryRegion out outLen st).bind fun x => (memoryRegion args argsLen st).map fun y => max x y

def memorySha3 : MemorySizeFn := memoryRegion 0 1
def memoryCallDataCopy : MemorySizeFn := memoryRegion 0 2
def memoryReturnDataCopy : MemorySizeFn := memoryRegion 0 2
def memoryCodeCopy : MemorySizeFn := memoryRegion 0 2
def memoryExtCodeCopy : MemorySizeFn := memoryRegion 1 3
def memoryMLoad : MemorySizeFn := memoryFixed 32
def memoryMStore8 : MemorySizeFn := memoryFixed 1
def memoryMStore : MemorySizeFn := memoryFixed 32
def memoryCreate : MemorySizeFn := memoryRegion 1 2
def memoryCall : MemorySizeFn := memoryTwoRegions 5 6 3 4
def memoryDelegateCall : MemorySizeFn := memoryTwoRegions 4 5 2 3
def memoryStaticCall : MemorySizeFn := memoryTwoRegions 4 5 2 3
def memoryReturn : MemorySizeFn := memoryRegion 0 1
def memoryRevert : MemorySizeFn := memoryRegion 0 1
def memoryLog : MemorySizeFn := memoryRegion 0 1

/-- A gas function's price or error, with the machine and the memory it leaves. -/
structure GasResult where
  cost : Except VmError UInt64
  evm : Evm
  mem : Memory

/-- A `gasFunc`; absent when it reads below the stack. -/
abbrev GasFn := Env → Evm → Frame → UInt64 → Option GasResult

/-- An overflow flag as an error. -/
def checked (r : UInt64 × Bool) : Except VmError UInt64 :=
  if r.2 then .error .gasUintOverflow else .ok r.1

/-- The price of the expansion to `newMemSize` bytes; the paid total is remembered at once. -/
def memoryGasCost (mem : Memory) (newMemSize : UInt64) : Except VmError UInt64 × Memory :=
  if newMemSize = 0 then (.ok 0, mem)
  else if newMemSize > 0xffffffffe0 then (.error .gasUintOverflow, mem)
  else
    let newMemSizeWords := toWordSize newMemSize
    let newMemSize := newMemSizeWords * 32
    if newMemSize.toNat > mem.len then
      let square := newMemSizeWords * newMemSizeWords
      let linCoef := newMemSizeWords * memoryGas
      let quadCoef := square / quadCoeffDiv
      let newTotalFee := linCoef + quadCoef
      (.ok (newTotalFee - mem.lastGasCost), { mem with lastGasCost := newTotalFee })
    else (.ok 0, mem)

def constGasFunc (gas : UInt64) : GasFn := fun _ evm fr _ => some ⟨.ok gas, evm, fr.mem⟩

/-- A price of the gas table. -/
def tableGasFunc (gas : GasTable → UInt64) : GasFn := fun env evm fr _ =>
  some ⟨.ok (gas env.gasTable), evm, fr.mem⟩

/-- The memory price plus a constant. -/
def memoryGasFunc (base : UInt64) : GasFn := fun _ evm fr memorySize =>
  let (fee, mem) := memoryGasCost fr.mem memorySize
  some ⟨fee.bind fun gas => checked (safeAdd gas base), evm, mem⟩

/-- The memory price, a base price and a price per word of the length at stack item `i`. -/
def wordsGasFunc (base : GasTable → UInt64) (i : Nat) (perWord : UInt64) : GasFn :=
  fun env evm fr memorySize =>
    let (fee, mem) := memoryGasCost fr.mem memorySize
    (fr.stack.back i).map fun l =>
      ⟨do
        let gas ← fee
        let gas ← checked (safeAdd gas (base env.gasTable))
        let words ← checked (bigUint64 l)
        let words ← checked (safeMul (toWordSize words) perWord)
        checked (safeAdd gas words), evm, mem⟩

def gasCallDataCopy : GasFn := wordsGasFunc (fun _ => gasFastestStep) 2 copyGas
def gasReturnDataCopy : GasFn := wordsGasFunc (fun _ => gasFastestStep) 2 copyGas
def gasCodeCopy : GasFn := wordsGasFunc (fun _ => gasFastestStep) 2 copyGas
def gasExtCodeCopy : GasFn := wordsGasFunc GasTable.extcodeCopy 3 copyGas
def gasSha3 : GasFn := wordsGasFunc (fun _ => sha3Gas) 1 sha3WordGas
def gasMLoad : GasFn := memoryGasFunc gasFastestStep
def gasMStore8 : GasFn := memoryGasFunc gasFastestStep
def gasMStore : GasFn := memoryGasFunc gasFastestStep
def gasCreate : GasFn := memoryGasFunc createGas
def gasBalance : GasFn := tableGasFunc GasTable.balance
def gasExtCodeSize : GasFn := tableGasFunc GasTable.extcodeSize
def gasSLoad : GasFn := tableGasFunc GasTable.sLoad
def gasPush : GasFn := constGasFunc gasFastestStep
def gasSwap : GasFn := constGasFunc gasFastestStep
def gasDup : GasFn := constGasFunc gasFastestStep

/-- Refunds are not kept, so only the price and the account `GetState` creates remain. -/
def gasSStore : GasFn := fun _ evm fr _ =>
  (fr.stack.back 1).bind fun y => (fr.stack.back 0).map fun x =>
    let (val, db) := evm.stateDB.getState fr.contract.self (bigToHash x)
    let gas :=
      if emptyHash val && !emptyHash (bigToHash y) then sstoreSetGas
      else if !emptyHash val && emptyHash (bigToHash y) then sstoreClearGas
      else sstoreResetGas
    ⟨.ok gas, { evm with stateDB := db }, fr.mem⟩

/-- The requested size is checked before the memory price is computed. -/
def makeGasLog (n : UInt64) : GasFn := fun _ evm fr memorySize =>
  (fr.stack.back 1).map fun l =>
    match checked (bigUint64 l) with
    | .error e => ⟨.error e, evm, fr.mem⟩
    | .ok requestedSize =>
      let (fee, mem) := memoryGasCost fr.mem memorySize
      ⟨do
        let gas ← fee
        let gas ← checked (safeAdd gas logGas)
        let gas ← checked (safeAdd gas (n * logTopicGas))
        let memorySizeGas ← checked (safeMul requestedSize logDataGas)
        checked (safeAdd gas memorySizeGas), evm, mem⟩

def gasExp : GasFn := fun env evm fr _ =>
  (fr.stack.back 1).map fun exponent =>
    let expByteLen := UInt64.ofNat ((bitLen exponent + 7) / 8)
    ⟨checked (safeAdd (expByteLen * env.gasTable.expByte) gasSlowStep), evm, fr.mem⟩

/-- The memory price alone, for the halting instructions. -/
def gasReturn : GasFn := fun _ evm fr memorySize =>
  let (fee, mem) := memoryGasCost fr.mem memorySize
  some ⟨fee, evm, mem⟩

def gasRevert : GasFn := gasReturn

/-- The gas passed on: all but a 64th of what is left after `base`, if less than requested. The
subtraction of `base` is modulo 2^64. -/
def callGas (gt : GasTable) (availableGas base : UInt64) (callCost : Int) :
    Except VmError UInt64 :=
  let rest := availableGas - base
  let gas := rest - rest / 64
  if gt.createBySuicide > 0 ∧ (bitLen callCost > 64 ∨ gas < uint64 callCost) then .ok gas
  else if bitLen callCost > 64 then .error .gasUintOverflow
  else .ok (uint64 callCost)

/-- The common end of the call prices: `callGasTemp` is set and added to the base price. -/
def chargeCall (gt : GasTable) (evm : Evm) (fr : Frame) (mem : Memory)
    (base : Except VmError UInt64) (callCost : Int) : GasResult :=
  match base with
  | .error e => ⟨.error e, evm, mem⟩
  | .ok gas =>
    match callGas gt fr.contract.gas gas callCost with
    | .error e => ⟨.error e, { evm with callGasTemp := 0 }, mem⟩
    | .ok temp => ⟨checked (safeAdd gas temp), { evm with callGasTemp := temp }, mem⟩

/-- `gasCall` with the gas table it is given. -/
def gasCallWith (gt : GasTable) : GasFn := fun env evm fr memorySize =>
  (fr.stack.back 2).bind fun value => (fr.stack.back 1).bind fun addr =>
    (fr.stack.back 0).map fun callCost =>
      let transfersValue : Bool := value ≠ 0
      let address := bigToAddress addr
      let gas := gt.calls
      let gas :=
        if env.isEIP158 then
          if transfersValue && evm.stateDB.empty address then gas + callNewAccountGas else gas
        else if !evm.stateDB.exist address then gas + callNewAccountGas
        else gas
      let gas := if transfersValue then gas + callValueTransferGas else gas
      let (fee, mem) := memoryGasCost fr.mem memorySize
      chargeCall gt evm fr mem (fee.bind fun memoryGas => checked (safeAdd gas memoryGas)) callCost

def gasCallCodeWith (gt : GasTable) : GasFn := fun _ evm fr memorySize =>
  (fr.stack.back 2).bind fun value => (fr.stack.back 0).map fun callCost =>
    let gas := gt.calls
    let gas := if value ≠ 0 then gas + callValueTransferGas else gas
    let (fee, mem) := memoryGasCost fr.mem memorySize
    chargeCall gt evm fr mem (fee.bind fun memoryGas => checked (safeAdd gas memoryGas)) callCost

def gasDelegateCallWith (gt : GasTable) : GasFn := fun _ evm fr memorySize =>
  (fr.stack.back 0).map fun callCost =>
    let (fee, mem) := memoryGasCost fr.mem memorySize
    chargeCall gt evm fr mem (fee.bind fun gas => checked (safeAdd gas gt.calls)) callCost

/-- The interpreter passes the gas table of its block. -/
def gasCall : GasFn := fun env => gasCallWith env.gasTable env
def gasCallCode : GasFn := fun env => gasCallCodeWith env.gasTable env
def gasDelegateCall : GasFn := fun env => gasDelegateCallWith env.gasTable env
def gasStaticCall : GasFn := gasDelegateCall

/-- Under EIP158 the balance is read here, before anything is paid. -/
def gasSuicide : GasFn := fun env evm fr _ =>
  (fr.stack.back 0).map fun addr =>
    let address := bigToAddress addr
    let (gas, db) : UInt64 × StateDB :=
      if env.isEIP150 then
        if env.isEIP158 then
          if evm.stateDB.empty address then
            let (balance, db) := evm.stateDB.getBalance fr.contract.self
            (if balance ≠ 0 then env.gasTable.suicide + env.gasTable.createBySuicide
              else env.gasTable.suicide, db)
          else (env.gasTable.suicide, evm.stateDB)
        else if !evm.stateDB.exist address then
          (env.gasTable.suicide + env.gasTable.createBySuicide, evm.stateDB)
        else (env.gasTable.suicide, evm.stateDB)
      else (0, evm.stateDB)
    let (_, db) := db.hasSuicided fr.contract.self
    ⟨.ok gas, { evm with stateDB := db }, fr.mem⟩

end MiniEvm
