import MiniEvm.Common.Big

namespace MiniEvm

structure GasTable where
  extcodeSize : UInt64
  extcodeCopy : UInt64
  balance : UInt64
  sLoad : UInt64
  calls : UInt64
  suicide : UInt64
  expByte : UInt64
  createBySuicide : UInt64

def gasTableHomestead : GasTable := ⟨20, 20, 20, 50, 40, 0, 10, 0⟩
def gasTableEIP150 : GasTable := ⟨700, 700, 400, 200, 700, 5000, 10, 25000⟩
def gasTableEIP158 : GasTable := ⟨700, 700, 400, 200, 700, 5000, 50, 25000⟩

/-- The fork blocks the virtual machine consults; `none` is a fork that never happens. -/
structure ChainConfig where
  homesteadBlock : Option Int
  eip150Block : Option Int
  eip158Block : Option Int
  byzantiumBlock : Option Int

def mainnetChainConfig : ChainConfig := ⟨some 1150000, some 2463000, some 2675000, some 4370000⟩

def isForked (s : Option Int) (head : Int) : Bool :=
  match s with
  | none => false
  | some s => s ≤ head

namespace ChainConfig

def isHomestead (c : ChainConfig) (num : Int) : Bool := isForked c.homesteadBlock num
def isEIP150 (c : ChainConfig) (num : Int) : Bool := isForked c.eip150Block num
def isEIP158 (c : ChainConfig) (num : Int) : Bool := isForked c.eip158Block num
def isByzantium (c : ChainConfig) (num : Int) : Bool := isForked c.byzantiumBlock num

def gasTable (c : ChainConfig) (num : Int) : GasTable :=
  if c.isEIP158 num then gasTableEIP158
  else if c.isEIP150 num then gasTableEIP150
  else gasTableHomestead

end ChainConfig

def callValueTransferGas : UInt64 := 9000
def callNewAccountGas : UInt64 := 25000
def quadCoeffDiv : UInt64 := 512
def sstoreSetGas : UInt64 := 20000
def logDataGas : UInt64 := 8
def callStipend : UInt64 := 2300
def sha3Gas : UInt64 := 30
def sha3WordGas : UInt64 := 6
def sstoreResetGas : UInt64 := 5000
def sstoreClearGas : UInt64 := 5000
def jumpdestGas : UInt64 := 1
def createDataGas : UInt64 := 200
def callCreateDepth : Nat := 1024
def logGas : UInt64 := 375
def copyGas : UInt64 := 3
def stackLimit : Nat := 1024
def logTopicGas : UInt64 := 375
def createGas : UInt64 := 32000
def memoryGas : UInt64 := 3
def maxCodeSize : Nat := 24576

def ecrecoverGas : UInt64 := 3000
def sha256BaseGas : UInt64 := 60
def sha256PerWordGas : UInt64 := 12
def ripemd160BaseGas : UInt64 := 600
def ripemd160PerWordGas : UInt64 := 120
def identityBaseGas : UInt64 := 15
def identityPerWordGas : UInt64 := 3
def modExpQuadCoeffDiv : Int := 20
def bn256AddGas : UInt64 := 500
def bn256ScalarMulGas : UInt64 := 40000
def bn256PairingBaseGas : UInt64 := 100000
def bn256PairingPerPointGas : UInt64 := 80000

def gasQuickStep : UInt64 := 2
def gasFastestStep : UInt64 := 3
def gasFastStep : UInt64 := 5
def gasMidStep : UInt64 := 8
def gasSlowStep : UInt64 := 10
def gasExtStep : UInt64 := 20

/-- Every fork's table prices the state reads and the call family above zero. -/
theorem gasTable_pos (c : ChainConfig) (num : Int) :
    0 < (c.gasTable num).extcodeSize ∧ 0 < (c.gasTable num).extcodeCopy ∧
      0 < (c.gasTable num).balance ∧ 0 < (c.gasTable num).sLoad ∧
      0 < (c.gasTable num).calls := by
  unfold ChainConfig.gasTable
  split_ifs <;> decide

theorem gasTable_calls_le (c : ChainConfig) (num : Int) : (c.gasTable num).calls ≤ 700 := by
  unfold ChainConfig.gasTable
  split_ifs <;> decide

end MiniEvm
