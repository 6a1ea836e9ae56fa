import MiniEvm.Vm.Instructions

namespace MiniEvm

structure Operation where
  execute : ExecFn
  gasCost : GasFn
  /-- The arguments of `makeStackFunc`. -/
  pop : Nat
  push : Nat
  memorySize : Option MemorySizeFn
  halts : Bool
  jumps : Bool
  writes : Bool
  reverts : Bool
  returns : Bool

/-- An entry without a memory size and with no flag set. -/
def entry (execute : ExecFn) (gasCost : GasFn) (pop push : Nat) : Operation :=
  { execute := execute, gasCost := gasCost, pop := pop, push := push, memorySize := none,
    halts := false, jumps := false, writes := false, reverts := false, returns := false }

/-- The entries of the instruction sets; a set has the entry given here or none. -/
def operation : OpCode → Operation
  | .STOP => { entry (simple opStop) (constGasFunc 0) 0 0 with
      halts := true }
  | .ADD => entry (simple opAdd) (constGasFunc gasFastestStep) 2 1
  | .MUL => entry (simple opMul) (constGasFunc gasFastStep) 2 1
  | .SUB => entry (simple opSub) (constGasFunc gasFastestStep) 2 1
  | .DIV => entry (simple opDiv) (constGasFunc gasFastStep) 2 1
  | .SDIV => entry (simple opSdiv) (constGasFunc gasFastStep) 2 1
  | .MOD => entry (simple opMod) (constGasFunc gasFastStep) 2 1
  | .SMOD => entry (simple opSmod) (constGasFunc gasFastStep) 2 1
  | .ADDMOD => entry (simple opAddmod) (constGasFunc gasMidStep) 3 1
  | .MULMOD => entry (simple opMulmod) (constGasFunc gasMidStep) 3 1
  | .EXP => entry (simple opExp) gasExp 2 1
  | .SIGNEXTEND => entry (simple opSignExtend) (constGasFunc gasFastStep) 2 1
  | .LT => entry (simple opLt) (constGasFunc gasFastestStep) 2 1
  | .GT => entry (simple opGt) (constGasFunc gasFastestStep) 2 1
  | .SLT => entry (simple opSlt) (constGasFunc gasFastestStep) 2 1
  | .SGT => entry (simple opSgt) (constGasFunc gasFastestStep) 2 1
  | .EQ => entry (simple opEq) (constGasFunc gasFastestStep) 2 1
  | .ISZERO => entry (simple opIszero) (constGasFunc gasFastestStep) 1 1
  | .AND => entry (simple opAnd) (constGasFunc gasFastestStep) 2 1
  | .XOR => entry (simple opXor) (constGasFunc gasFastestStep) 2 1
  | .OR => entry (simple opOr) (constGasFunc gasFastestStep) 2 1
  | .NOT => entry (simple opNot) (constGasFunc gasFastestStep) 1 1
  | .BYTE => entry (simple opByte) (constGasFunc gasFastestStep) 2 1
  | .SHA3 => { entry (simple opSha3) gasSha3 2 1 with
      memorySize := some memorySha3 }
  | .ADDRESS => entry (simple opAddress) (constGasFunc gasQuickStep) 0 1
  | .BALANCE => entry (simple opBalance) gasBalance 1 1
  | .ORIGIN => entry (simple opOrigin) (constGasFunc gasQuickStep) 0 1
  | .CALLER => entry (simple opCaller) (constGasFunc gasQuickStep) 0 1
  | .CALLVALUE => entry (simple opCallValue) (constGasFunc gasQuickStep) 0 1
  | .CALLDATALOAD => entry (simple opCallDataLoad) (constGasFunc gasFastestStep) 1 1
  | .CALLDATASIZE => entry (simple opCallDataSize) (constGasFunc gasQuickStep) 0 1
  | .CALLDATACOPY => { entry (simple opCallDataCopy) gasCallDataCopy 3 0 with
      memorySize := some memoryCallDataCopy }
  | .CODESIZE => entry (simple opCodeSize) (constGasFunc gasQuickStep) 0 1
  | .CODECOPY => { entry (simple opCodeCopy) gasCodeCopy 3 0 with
      memorySize := some memoryCodeCopy }
  | .GASPRICE => entry (simple opGasprice) (constGasFunc gasQuickStep) 0 1
  | .EXTCODESIZE => entry (simple opExtCodeSize) gasExtCodeSize 1 1
  | .EXTCODECOPY => { entry (simple opExtCodeCopy) gasExtCodeCopy 4 0 with
      memorySize := some memoryExtCodeCopy }
  | .BLOCKHASH => entry (simple opBlockhash) (constGasFunc gasExtStep) 1 1
  | .COINBASE => entry (simple opCoinbase) (constGasFunc gasQuickStep) 0 1
  | .TIMESTAMP => entry (simple opTimestamp) (constGasFunc gasQuickStep) 0 1
  | .NUMBER => entry (simple opNumber) (constGasFunc gasQuickStep) 0 1
  | .DIFFICULTY => entry (simple opDifficulty) (constGasFunc gasQuickStep) 0 1
  | .GASLIMIT => entry (simple opGasLimit) (constGasFunc gasQuickStep) 0 1
  | .POP => entry (simple opPop) (constGasFunc gasQuickStep) 1 0
  | .MLOAD => { entry (simple opMload) gasMLoad 1 1 with
      memorySize := some memoryMLoad }
  | .MSTORE => { entry (simple opMstore) gasMStore 2 0 with
      memorySize := some memoryMStore }
  | .MSTORE8 => { entry (simple opMstore8) gasMStore8 2 0 with
      memorySize := some memoryMStore8 }
  | .SLOAD => entry (simple opSload) gasSLoad 1 1
  | .SSTORE => { entry (simple opSstore) gasSStore 2 0 with
      writes := true }
  | .JUMP => { entry (simple opJump) (constGasFunc gasMidStep) 1 0 with
      jumps := true }
  | .JUMPI => { entry (simple opJumpi) (constGasFunc gasSlowStep) 2 0 with
      jumps := true }
  | .PC => entry (simple opPc) (constGasFunc gasQuickStep) 0 1
  | .MSIZE => entry (simple opMsize) (constGasFunc gasQuickStep) 0 1
  | .GAS => entry (simple opGas) (constGasFunc gasQuickStep) 0 1
  | .JUMPDEST => entry (simple opJumpdest) (constGasFunc jumpdestGas) 0 0
  | .PUSH n => entry (simple (makePush (n + 1))) gasPush 0 1
  | .DUP n => entry (simple (makeDup (n + 1))) gasDup (n + 1) (n + 2)
  | .SWAP n => entry (simple (makeSwap (n + 1))) gasSwap (n + 2) (n + 2)
  | .LOG n => { entry (simple (makeLog n)) (makeGasLog (UInt64.ofNat n)) (n + 2) 0 with
      memorySize := some memoryLog, writes := true }
  | .CREATE => { entry opCreate gasCreate 3 1 with
      memorySize := some memoryCreate, writes := true, returns := true }
  | .CALL => { entry opCall gasCall 7 1 with
      memorySize := some memoryCall, returns := true }
  | .CALLCODE => { entry opCallCode gasCallCode 7 1 with
      memorySize := some memoryCall, returns := true }
  | .RETURN => { entry (simple opReturn) gasReturn 2 0 with
      memorySize := some memoryReturn, halts := true }
  | .SELFDESTRUCT => { entry (simple opSuicide) gasSuicide 1 0 with
      halts := true, writes := true }
  | .STATICCALL => { entry opStaticCall gasStaticCall 6 1 with
      memorySize := some memoryStaticCall, returns := true }
  | .RETURNDATASIZE => entry (simple opReturnDataSize) (constGasFunc gasQuickStep) 0 1
  | .RETURNDATACOPY => { entry (simple opReturnDataCopy) gasReturnDataCopy 3 0 with
      memorySize := some memoryReturnDataCopy }
  | .REVERT => { entry (simple opRevert) gasRevert 2 0 with
      memorySize := some memoryRevert, reverts := true, returns := true }
  | .DELEGATECALL => { entry opDelegateCall gasDelegateCall 6 1 with
      memorySize := some memoryDelegateCall, returns := true }

def frontierInstructionSet : OpCode → Option Operation
  | .DELEGATECALL | .STATICCALL | .RETURNDATASIZE | .RETURNDATACOPY | .REVERT => none
  | op => some (operation op)

def homesteadInstructionSet : OpCode → Option Operation
  | .DELEGATECALL => some (operation .DELEGATECALL)
  | op => frontierInstructionSet op

def byzantiumInstructionSet : OpCode → Option Operation
  | .STATICCALL => some (operation .STATICCALL)
  | .RETURNDATASIZE => some (operation .RETURNDATASIZE)
  | .RETURNDATACOPY => some (operation .RETURNDATACOPY)
  | .REVERT => some (operation .REVERT)
  | op => homesteadInstructionSet op

/-- `cfg.JumpTable`, indexed by the opcodes that some set has. -/
abbrev JumpTable := OpCode → Option Operation

/-- The default table that `NewInterpreter` chooses. -/
def Env.jumpTable (env : Env) : JumpTable :=
  if env.isByzantium then byzantiumInstructionSet
  else if env.isHomestead then homesteadInstructionSet
  else frontierInstructionSet

theorem Env.jumpTable_eq {env : Env} {op : OpCode} {o : Operation}
    (h : env.jumpTable op = some o) : o = operation op := by
  unfold jumpTable at h
  split_ifs at h
  all_goals
    cases op <;>
      simp [byzantiumInstructionSet, homesteadInstructionSet, frontierInstructionSet] at h <;>
      exact h.symm

end MiniEvm
