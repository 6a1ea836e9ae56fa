import MiniEvm.Vm.Interpreter

namespace MiniEvm

open Math Framework

namespace OpCode

/-- The key and the exact integer result of `ADD`, `SUB`, `MUL` and `DIV` by a non-zero divisor. -/
def exactResult : OpCode → Stack → Option (String × Int)
  | ADD, x :: y :: _ => some (keyAdd, x + y)
  | SUB, x :: y :: _ => some (keySub, x - y)
  | MUL, x :: y :: _ => some (keyMul, x * y)
  | DIV, x :: y :: _ => if y ≠ 0 then some (keyDiv, x / y) else none
  | _, _ => none

theorem exactResult_key {op : OpCode} {st : Stack} {key : String} {v : Int}
    (h : op.exactResult st = some (key, v)) : stringToHash key ∈ markerSlots := by
  unfold exactResult at h
  split at h
  case h_4 =>
    split_ifs at h
    cases h
    decide
  case h_5 => cases h
  all_goals
    cases h
    decide

/-- The slot and the value of an `SSTORE`. -/
def stored : OpCode → Stack → Option (Hash × Hash)
  | SSTORE, x :: val :: _ => some (bigToHash x, bigToHash val)
  | _, _ => none

/-- What an instruction that enters no frame does to the machine. -/
def effect (op : OpCode) (env : Env) (evm : Evm) (fr : Frame) : Evm :=
  match op, fr.stack with
  | BALANCE, x :: _ => { evm with stateDB := (evm.stateDB.getBalance (bigToAddress x)).2 }
  | SLOAD, x :: _ =>
    let (val, db) := evm.stateDB.getState fr.contract.self (bigToHash x)
    ({ evm with stateDB := db } : Evm).emit (.callback .SLOAD (bigToHash x) (Hash.big val))
  | SSTORE, x :: val :: _ =>
    let db := evm.stateDB.setState fr.contract.self (bigToHash x) (bigToHash val)
    ({ evm with stateDB := db } : Evm).emit (.callback .SSTORE (bigToHash x) val)
  | SELFDESTRUCT, x :: _ =>
    let (balance, db) := evm.stateDB.getBalance fr.contract.self
    { evm with stateDB := (db.addBalance (bigToAddress x) balance).suicide fr.contract.self }
  | LOG n, mStart :: mSize :: st =>
    let data := (fr.mem.get (int64 mStart) (int64 mSize)).getD []
    let log : Log := ⟨fr.contract.self, (st.take n).map bigToHash, data, uint64 env.blockNumber⟩
    { evm with stateDB := evm.stateDB.addLog log }
  | op, st =>
    match op.exactResult st with
    | some (key, v) => markOverflow key v evm fr
    | none => evm

def isLog : OpCode → Bool
  | LOG _ => true
  | _ => false

def isJump : OpCode → Bool
  | JUMP | JUMPI => true
  | _ => false

theorem effect_jump (env : Env) (evm : Evm) (fr : Frame) : JUMP.effect env evm fr = evm := by
  simp [effect, exactResult]

theorem effect_jumpi (env : Env) (evm : Evm) (fr : Frame) : JUMPI.effect env evm fr = evm := by
  simp [effect, exactResult]

end OpCode

/-- Executing leaves the contract and the size of the memory alone and never moves back. -/
structure Kept (fr fr' : Frame) : Prop where
  contract : fr'.contract = fr.contract
  len : fr'.mem.len = fr.mem.len
  lastGasCost : fr'.mem.lastGasCost = fr.mem.lastGasCost
  pc : fr.pc ≤ fr'.pc

theorem Kept.withStack (fr : Frame) (st : Stack) : Kept fr (fr.withStack st) :=
  ⟨rfl, rfl, rfl, Nat.le_refl _⟩

theorem Memory.set_spec {m m' : Memory} {offset size : UInt64} {value : Bytes}
    (h : m.set offset size value = some m') :
    m'.len = m.len ∧ m'.lastGasCost = m.lastGasCost := by
  unfold Memory.set at h
  split_ifs at h
  · obtain ⟨region, hr, rfl⟩ := Option.map_eq_some_iff.mp h
    obtain ⟨hlo, hhi, -⟩ := slice_eq_some.mp hr
    exact ⟨overwrite_length _ _ _ (hlo.trans hhi), rfl⟩
  · cases h
    exact ⟨rfl, rfl⟩

theorem Kept.withMem {fr : Frame} {st : Stack} {m : Memory} {offset size : UInt64} {value : Bytes}
    (h : fr.mem.set offset size value = some m) : Kept fr { fr with stack := st, mem := m } :=
  ⟨rfl, (Memory.set_spec h).1, (Memory.set_spec h).2, Nat.le_refl _⟩

/-- An instruction that changes nothing but its own frame. -/
def SimpleFn.Local (f : SimpleFn) : Prop :=
  ∀ env evm fr r, f env evm fr = some r → r.evm = evm ∧ Kept fr r.frame

theorem pushOp_local (f : Env → Evm → Frame → Int) : (pushOp f).Local := by
  rintro env evm fr r h
  cases h
  exact ⟨rfl, Kept.withStack ..⟩

theorem unaryOp_local (f : Env → Evm → Frame → Int → Int) : (unaryOp f).Local := by
  intro env evm fr r h
  unfold unaryOp at h
  split at h <;> cases h
  exact ⟨rfl, Kept.withStack ..⟩

theorem readOp_local (f : Frame → Int → Option Bytes) : (readOp f).Local := by
  intro env evm fr r h
  unfold readOp at h
  split at h
  · obtain ⟨b, -, rfl⟩ := Option.map_eq_some_iff.mp h
    exact ⟨rfl, Kept.withStack ..⟩
  · cases h

theorem binaryOp_local (f : Int → Int → Int) : (binaryOp f).Local := by
  intro env evm fr r h
  unfold binaryOp at h
  split at h <;> cases h
  exact ⟨rfl, Kept.withStack ..⟩

theorem ternaryOp_local (f : Int → Int → Int → Int) : (ternaryOp f).Local := by
  intro env evm fr r h
  unfold ternaryOp at h
  split at h <;> cases h
  exact ⟨rfl, Kept.withStack ..⟩

theorem copyToMemory_spec {data : Bytes} {evm : Evm} {fr : Frame} {memOffset dataOffset l : Int}
    {st : Stack} {r : ExecResult} (h : copyToMemory data evm fr memOffset dataOffset l st = some r) :
    r.evm = evm ∧ Kept fr r.frame := by
  obtain ⟨b, -, h⟩ := Option.bind_eq_some_iff.mp h
  obtain ⟨m, hm, rfl⟩ := Option.map_eq_some_iff.mp h
  exact ⟨rfl, Kept.withMem hm⟩

theorem copyOp_local (data : Frame → Bytes) : (copyOp data).Local := by
  intro env evm fr r h
  unfold copyOp at h
  split at h
  · exact copyToMemory_spec h
  · cases h

theorem opExtCodeCopy_local : opExtCodeCopy.Local := by
  intro env evm fr r h
  unfold opExtCodeCopy at h
  split at h
  · exact copyToMemory_spec h
  · cases h

theorem opReturnDataCopy_local : opReturnDataCopy.Local := by
  intro env evm fr r h
  unfold opReturnDataCopy at h
  split at h
  · simp only at h
    split_ifs at h
    · cases h
      exact ⟨rfl, Kept.withStack ..⟩
    · obtain ⟨b, -, h⟩ := Option.bind_eq_some_iff.mp h
      obtain ⟨m, hm, rfl⟩ := Option.map_eq_some_iff.mp h
      exact ⟨rfl, Kept.withMem hm⟩
  · cases h

theorem opSignExtend_local : opSignExtend.Local := by
  intro env evm fr r h
  unfold opSignExtend at h
  split at h
  · split_ifs at h
    · split at h
      · obtain ⟨-, h⟩ := Option.ite_none_right_eq_some.mp h
        cases h
        exact ⟨rfl, Kept.withStack ..⟩
      · cases h
    · cases h
      exact ⟨rfl, Kept.withStack ..⟩
  · cases h

theorem opSha3_local : opSha3.Local := by
  intro env evm fr r h
  unfold opSha3 at h
  split at h
  · obtain ⟨b, -, rfl⟩ := Option.map_eq_some_iff.mp h
    exact ⟨rfl, Kept.withStack ..⟩
  · cases h

theorem opPop_local : opPop.Local := by
  intro env evm fr r h
  unfold opPop at h
  split at h <;> cases h
  exact ⟨rfl, Kept.withStack ..⟩

theorem opMstore_local : opMstore.Local := by
  intro env evm fr r h
  unfold opMstore at h
  split at h
  · obtain ⟨m, hm, rfl⟩ := Option.map_eq_some_iff.mp h
    exact ⟨rfl, Kept.withMem hm⟩
  · cases h

theorem opMstore8_local : opMstore8.Local := by
  intro env evm fr r h
  unfold opMstore8 at h
  split at h
  · split_ifs at h
    cases h
    exact ⟨rfl, rfl, List.length_set .., rfl, Nat.le_refl _⟩
  · cases h

theorem opReturn_local : opReturn.Local := by
  intro env evm fr r h
  unfold opReturn at h
  split at h
  · obtain ⟨b, -, rfl⟩ := Option.map_eq_some_iff.mp h
    exact ⟨rfl, Kept.withStack ..⟩
  · cases h

theorem opStop_local : opStop.Local := by
  intro env evm fr r h
  cases h
  exact ⟨rfl, Kept.withStack fr fr.stack⟩

theorem makePush_local (size : Nat) : (makePush size).Local := by
  intro env evm fr r h
  obtain ⟨b, -, rfl⟩ := Option.map_eq_some_iff.mp h
  exact ⟨rfl, rfl, rfl, rfl, Nat.le_add_right ..⟩

theorem makeDup_local (size : Nat) : (makeDup size).Local := by
  intro env evm fr r h
  obtain ⟨x, -, rfl⟩ := Option.map_eq_some_iff.mp h
  exact ⟨rfl, Kept.withStack ..⟩

theorem makeSwap_local (size : Nat) : (makeSwap size).Local := by
  intro env evm fr r h
  unfold makeSwap at h
  split at h
  · obtain ⟨x, -, rfl⟩ := Option.map_eq_some_iff.mp h
    exact ⟨rfl, Kept.withStack ..⟩
  · cases h

/-- What executing an instruction that enters no frame can do. -/
structure SimpleSpec (op : OpCode) (env : Env) (evm : Evm) (fr : Frame) (r : ExecResult) : Prop where
  evm : r.evm = op.effect env evm fr
  kept : op.isJump = false → Kept fr r.frame
  contract : r.frame.contract = { fr.contract with jumpdests := r.frame.contract.jumpdests }
  mem : op.isJump = true → r.frame.mem = fr.mem

namespace SimpleSpec

variable {op : OpCode} {env : Env} {evm : Evm} {fr : Frame} {r : ExecResult}

theorem of_kept (hj : op.isJump = false) (he : r.evm = op.effect env evm fr)
    (hk : Kept fr r.frame) : SimpleSpec op env evm fr r where
  evm := he
  kept _ := hk
  contract := by rw [hk.contract]
  mem h := by simp [hj] at h

/-- A local instruction whose effect is empty. -/
theorem of_local {f : SimpleFn} (hf : f.Local) (hj : op.isJump = false)
    (he : op.effect env evm fr = evm) (h : f env evm fr = some r) : SimpleSpec op env evm fr r := by
  obtain ⟨hevm, hk⟩ := hf _ _ _ _ h
  exact of_kept hj (hevm.trans he.symm) hk

theorem of_arithOp {key : String} {f : Int → Int → Int} (hj : op.isJump = false)
    (he : ∀ x y st, fr.stack = x :: y :: st →
      op.effect env evm fr = markOverflow key (f x y) evm fr)
    (h : arithOp key f env evm fr = some r) : SimpleSpec op env evm fr r := by
  unfold arithOp at h
  split at h
  · rename_i x y st hst
    cases h
    exact of_kept hj (he x y st hst).symm (Kept.withStack ..)
  · cases h

theorem of_opDiv (h : opDiv env evm fr = some r) : SimpleSpec .DIV env evm fr r := by
  unfold opDiv at h
  split at h
  · rename_i x y st hst
    split_ifs at h with hy
    · cases h
      exact of_kept rfl (by simp [OpCode.effect, OpCode.exactResult, hst, hy, stackResult])
        (Kept.withStack ..)
    · cases h
      exact of_kept rfl (by simp [OpCode.effect, OpCode.exactResult, hst, hy, stackResult])
        (Kept.withStack ..)
  · cases h

/-- A jump changes the program counter, the stack and the analysis. -/
theorem of_jumpTo {pos : Int} {st : Stack} (hj : op.isJump = true)
    (he : op.effect env evm fr = evm) (h : jumpTo evm fr pos st = some r) :
    SimpleSpec op env evm fr r := by
  obtain ⟨⟨ok, d⟩, -, rfl⟩ := Option.map_eq_some_iff.mp h
  cases ok
  all_goals exact ⟨he.symm, fun hn => by simp [hj] at hn, rfl, fun _ => rfl⟩

theorem of_opJump (h : opJump env evm fr = some r) : SimpleSpec .JUMP env evm fr r := by
  unfold opJump at h
  split at h
  · exact of_jumpTo rfl (OpCode.effect_jump ..) h
  · cases h

theorem of_opJumpi (h : opJumpi env evm fr = some r) : SimpleSpec .JUMPI env evm fr r := by
  unfold opJumpi at h
  split at h
  · split_ifs at h
    · exact of_jumpTo rfl (OpCode.effect_jumpi ..) h
    · cases h
      exact ⟨(OpCode.effect_jumpi ..).symm, fun hn => by simp [OpCode.isJump] at hn, rfl, fun _ => rfl⟩
  · cases h

theorem of_opBalance (h : opBalance env evm fr = some r) : SimpleSpec .BALANCE env evm fr r := by
  unfold opBalance at h
  split at h
  · rename_i x st hst
    cases h
    exact of_kept rfl (by simp [OpCode.effect, hst, stackResult, StateDB.getBalance])
      (Kept.withStack ..)
  · cases h

theorem of_opSload (h : opSload env evm fr = some r) : SimpleSpec .SLOAD env evm fr r := by
  unfold opSload at h
  split at h
  · rename_i x st hst
    cases h
    exact of_kept rfl (by simp [OpCode.effect, hst, stackResult, StateDB.getState]) (Kept.withStack ..)
  · cases h

theorem of_opSstore (h : opSstore env evm fr = some r) : SimpleSpec .SSTORE env evm fr r := by
  unfold opSstore at h
  split at h
  · rename_i x val st hst
    cases h
    exact of_kept rfl (by simp [OpCode.effect, hst, stackResult]) (Kept.withStack ..)
  · cases h

theorem of_opSuicide (h : opSuicide env evm fr = some r) :
    SimpleSpec .SELFDESTRUCT env evm fr r := by
  unfold opSuicide at h
  split at h
  · rename_i x st hst
    cases h
    exact of_kept rfl (by simp [OpCode.effect, hst, stackResult, StateDB.getBalance])
      (Kept.withStack ..)
  · cases h

theorem of_makeLog {n : Fin 5} (h : makeLog n env evm fr = some r) :
    SimpleSpec (.LOG n) env evm fr r := by
  unfold makeLog at h
  split at h
  · rename_i mStart mSize st hst
    split_ifs at h
    obtain ⟨d, hd, rfl⟩ := Option.map_eq_some_iff.mp h
    exact of_kept rfl (by simp [OpCode.effect, hst, hd, stackResult]) (Kept.withStack ..)
  · cases h

end SimpleSpec

theorem simple_eq_ok {f : SimpleFn} {env : Env} {run : RunFn} {evm : Evm} {fr : Frame}
    {r : ExecResult} : simple f env run evm fr = .ok r ↔ f env evm fr = some r :=
  Outcome.ofOption_eq_ok

theorem execute_eq_simple {op : OpCode} (hc : op.isCall = false) :
    ∃ f, (operation op).execute = simple f := by
  cases op
  case CREATE | CALL | CALLCODE | DELEGATECALL | STATICCALL => cases hc
  all_goals
    simp only [operation, entry]
    exact ⟨_, rfl⟩

/-- One specification for all instructions that enter no frame. -/
theorem execute_simple {op : OpCode} {env : Env} {run : RunFn} {evm : Evm} {fr : Frame}
    {r : ExecResult} (hc : op.isCall = false)
    (h : (operation op).execute env run evm fr = .ok r) : SimpleSpec op env evm fr r := by
  cases op
  case CREATE | CALL | CALLCODE | DELEGATECALL | STATICCALL => cases hc
  all_goals
    simp only [operation, entry] at h
    replace h := simple_eq_ok.mp h
  case ADD | SUB | MUL =>
    exact .of_arithOp rfl (by
      intro x y st hst
      simp [OpCode.effect, OpCode.exactResult, hst]) h
  case DIV => exact .of_opDiv h
  case JUMP => exact .of_opJump h
  case JUMPI => exact .of_opJumpi h
  case BALANCE => exact .of_opBalance h
  case SLOAD => exact .of_opSload h
  case SSTORE => exact .of_opSstore h
  case SELFDESTRUCT => exact .of_opSuicide h
  case LOG n => exact .of_makeLog h
  all_goals
    refine .of_local ?_ rfl ?_ h
    rotate_left
    · simp [OpCode.effect, OpCode.exactResult]
  case SDIV | MOD | SMOD | EXP | LT | GT | SLT | SGT | EQ | AND | OR | XOR | BYTE =>
    exact binaryOp_local _
  case ADDMOD | MULMOD => exact ternaryOp_local _
  case ISZERO | NOT | EXTCODESIZE | BLOCKHASH => exact unaryOp_local _
  case CALLDATALOAD | MLOAD => exact readOp_local _
  case CALLDATACOPY | CODECOPY => exact copyOp_local _
  case SIGNEXTEND => exact opSignExtend_local
  case SHA3 => exact opSha3_local
  case EXTCODECOPY => exact opExtCodeCopy_local
  case RETURNDATACOPY => exact opReturnDataCopy_local
  case POP => exact opPop_local
  case MSTORE => exact opMstore_local
  case MSTORE8 => exact opMstore8_local
  case RETURN | REVERT => exact opReturn_local
  case STOP | JUMPDEST => exact opStop_local
  case PUSH n => exact makePush_local _
  case DUP n => exact makeDup_local _
  case SWAP n => exact makeSwap_local _
  all_goals exact pushOp_local _

/-- What computing the gas of an instruction does to the state. -/
def OpCode.gasEffect (op : OpCode) (env : Env) (db : StateDB) (fr : Frame) : StateDB :=
  match op, fr.stack with
  | .SSTORE, x :: _ => (db.getState fr.contract.self (bigToHash x)).2
  | .SELFDESTRUCT, _ =>
    let db := if env.isEIP150 && env.isEIP158 then (db.getBalance fr.contract.self).2 else db
    (db.hasSuicided fr.contract.self).2
  | _, _ => db

/-- A gas function changes the state as above, `callGasTemp`, and the remembered memory fee. -/
structure GasSpec (op : OpCode) (env : Env) (evm : Evm) (fr : Frame) (g : GasResult) : Prop where
  evm : g.evm = { evm with
    stateDB := op.gasEffect env evm.stateDB fr, callGasTemp := g.evm.callGasTemp }
  store : g.mem.store = fr.mem.store

theorem memoryGasCost_store (mem : Memory) (n : UInt64) :
    (memoryGasCost mem n).2.store = mem.store := by
  unfold memoryGasCost
  split_ifs
  · rfl
  · rfl
  · simp only
    split_ifs <;> rfl

theorem chargeCall_spec (gt : GasTable) (evm : Evm) (fr : Frame) (mem : Memory)
    (base : Except VmError UInt64) (callCost : Int) :
    (chargeCall gt evm fr mem base callCost).evm = { evm with
      callGasTemp := (chargeCall gt evm fr mem base callCost).evm.callGasTemp } ∧
    (chargeCall gt evm fr mem base callCost).mem = mem := by
  unfold chargeCall
  split
  · exact ⟨rfl, rfl⟩
  · split <;> exact ⟨rfl, rfl⟩

namespace GasSpec

variable {op : OpCode} {env : Env} {evm : Evm} {fr : Frame} {g : GasResult} {n : UInt64}

theorem of_same (he : op.gasEffect env evm.stateDB fr = evm.stateDB) (hevm : g.evm = evm)
    (hmem : g.mem.store = fr.mem.store) : GasSpec op env evm fr g where
  evm := by rw [hevm, he]
  store := hmem

theorem of_chargeCall {gt : GasTable} {base : Except VmError UInt64} {callCost : Int}
    (he : op.gasEffect env evm.stateDB fr = evm.stateDB) :
    GasSpec op env evm fr (chargeCall gt evm fr (memoryGasCost fr.mem n).2 base callCost) where
  evm := by rw [he]; exact (chargeCall_spec ..).1
  store := by rw [(chargeCall_spec ..).2, memoryGasCost_store]

end GasSpec

/-- One specification for all gas functions. -/
theorem gasCost_spec {op : OpCode} {env : Env} {evm : Evm} {fr : Frame} {n : UInt64}
    {g : GasResult} (h : (operation op).gasCost env evm fr n = some g) :
    GasSpec op env evm fr g := by
  cases op
  case SSTORE =>
    obtain ⟨y, hy, h⟩ := Option.bind_eq_some_iff.mp h
    obtain ⟨x, hx, rfl⟩ := Option.map_eq_some_iff.mp h
    cases hst : fr.stack with
    | nil => simp [hst, Stack.back] at hx
    | cons a st =>
      obtain rfl : a = x := by simpa [hst, Stack.back] using hx
      exact ⟨by simp [OpCode.gasEffect, hst], rfl⟩
  case SELFDESTRUCT =>
    obtain ⟨x, hx, rfl⟩ := Option.map_eq_some_iff.mp h
    refine ⟨?_, rfl⟩
    simp only [OpCode.gasEffect, StateDB.empty, StateDB.exist]
    cases env.isEIP150 <;> cases env.isEIP158 <;> rfl
  case CALL =>
    obtain ⟨v, -, h⟩ := Option.bind_eq_some_iff.mp h
    obtain ⟨a, -, h⟩ := Option.bind_eq_some_iff.mp h
    obtain ⟨c, -, rfl⟩ := Option.map_eq_some_iff.mp h
    exact .of_chargeCall rfl
  case CALLCODE =>
    obtain ⟨v, -, h⟩ := Option.bind_eq_some_iff.mp h
    obtain ⟨c, -, rfl⟩ := Option.map_eq_some_iff.mp h
    exact .of_chargeCall rfl
  case DELEGATECALL | STATICCALL =>
    obtain ⟨c, -, rfl⟩ := Option.map_eq_some_iff.mp h
    exact .of_chargeCall rfl
  case LOG k =>
    obtain ⟨l, -, rfl⟩ := Option.map_eq_some_iff.mp h
    split
    · exact .of_same rfl rfl rfl
    · exact .of_same rfl rfl (memoryGasCost_store ..)
  case CALLDATACOPY | CODECOPY | EXTCODECOPY | RETURNDATACOPY | SHA3 =>
    obtain ⟨l, -, rfl⟩ := Option.map_eq_some_iff.mp h
    exact .of_same rfl rfl (memoryGasCost_store ..)
  case MLOAD | MSTORE | MSTORE8 | CREATE | RETURN | REVERT =>
    cases h
    exact .of_same rfl rfl (memoryGasCost_store ..)
  case EXP =>
    obtain ⟨e, -, rfl⟩ := Option.map_eq_some_iff.mp h
    exact .of_same rfl rfl rfl
  all_goals
    cases h
    exact .of_same rfl rfl rfl

end MiniEvm
