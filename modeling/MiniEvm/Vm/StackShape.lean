import MiniEvm.Vm.Effects

namespace MiniEvm

open Math Framework

@[simp] theorem Frame.withStack_stack (fr : Frame) (st : Stack) : (fr.withStack st).stack = st := rfl

@[simp] theorem Frame.withStack_withStack (fr : Frame) (st st' : Stack) :
    (fr.withStack st).withStack st' = fr.withStack st' := rfl

@[simp] theorem Frame.withStack_pc (fr : Frame) (st : Stack) : (fr.withStack st).pc = fr.pc := rfl

@[simp] theorem Frame.withStack_mem (fr : Frame) (st : Stack) : (fr.withStack st).mem = fr.mem := rfl

@[simp] theorem Frame.withStack_contract (fr : Frame) (st : Stack) :
    (fr.withStack st).contract = fr.contract := rfl

/-- The same result over more items at the bottom of the stack. -/
def ExecResult.above (r : ExecResult) (st : Stack) : ExecResult :=
  { r with frame := r.frame.withStack (r.frame.stack ++ st) }

/-- What an execution of `pop` operands leaves of them, and where it leaves the program counter;
`skip` is absent for the jumps. -/
structure ExecResult.Leaves (r : ExecResult) (fr : Frame) (push : Nat) (skip : Option Nat) : Prop where
  length : r.err = none → r.frame.stack.length = push
  pc : ∀ k, skip = some k → r.frame.pc = fr.pc + k

theorem ExecResult.Leaves.of_eq {r : ExecResult} {fr : Frame} {push : Nat}
    (hlen : r.frame.stack.length = push) (hpc : r.frame.pc = fr.pc) : r.Leaves fr push (some 0) :=
  ⟨fun _ => hlen, by rintro k ⟨⟩; exact hpc⟩

/-- The function reads no more than the `pop` top items, and leaves `push` in their place. -/
structure SimpleFn.Shaped (f : SimpleFn) (pop push : Nat) (skip : Option Nat) : Prop where
  reads : ∀ env evm (fr : Frame) (args st : Stack), args.length = pop →
    f env evm (fr.withStack (args ++ st)) = (f env evm (fr.withStack args)).map (·.above st)
  leaves : ∀ env evm (fr : Frame) (args : Stack) r, args.length = pop →
    f env evm (fr.withStack args) = some r → r.Leaves fr push skip

namespace SimpleFn.Shaped

open ExecResult (Leaves)

theorem of_pushOp {f : Env → Evm → Frame → Int}
    (hf : ∀ env evm fr st, f env evm (fr.withStack st) = f env evm fr) :
    (pushOp f).Shaped 0 1 (some 0) where
  reads env evm fr args st hlen := by
    obtain rfl := List.length_eq_zero_iff.mp hlen
    simp [pushOp, hf, stackResult, ExecResult.above]
  leaves env evm fr args r hlen h := by
    cases h
    exact .of_eq (by simp [stackResult, hlen]) rfl

theorem of_unaryOp {f : Env → Evm → Frame → Int → Int}
    (hf : ∀ env evm fr st, f env evm (fr.withStack st) = f env evm fr) :
    (unaryOp f).Shaped 1 1 (some 0) where
  reads env evm fr args st hlen := by
    obtain ⟨x, rfl⟩ := List.length_eq_one_iff.mp hlen
    simp [unaryOp, hf, stackResult, ExecResult.above]
  leaves env evm fr args r hlen h := by
    obtain ⟨x, rfl⟩ := List.length_eq_one_iff.mp hlen
    cases h
    exact .of_eq rfl rfl

theorem of_readOp {f : Frame → Int → Option Bytes} (hf : ∀ fr st, f (fr.withStack st) = f fr) :
    (readOp f).Shaped 1 1 (some 0) where
  reads env evm fr args st hlen := by
    obtain ⟨x, rfl⟩ := List.length_eq_one_iff.mp hlen
    simp only [readOp, Frame.withStack_stack, List.cons_append, List.nil_append, hf]
    cases f fr x <;> rfl
  leaves env evm fr args r hlen h := by
    obtain ⟨x, rfl⟩ := List.length_eq_one_iff.mp hlen
    obtain ⟨b, -, rfl⟩ := Option.map_eq_some_iff.mp h
    exact .of_eq rfl rfl

/-- Instructions with one operand that cannot fail, up to what they do to the machine. -/
theorem of_one {f : SimpleFn} {push : Nat} (effect : Env → Evm → Frame → Int → Evm)
    (out : Env → Evm → Frame → Int → Stack) (hout : ∀ env evm fr x, (out env evm fr x).length = push)
    (hf : ∀ env evm (fr : Frame) x st, f env evm (fr.withStack (x :: st)) =
      some (stackResult (effect env evm fr x) fr (out env evm fr x ++ st))) :
    f.Shaped 1 push (some 0) where
  reads env evm fr args st hlen := by
    obtain ⟨x, rfl⟩ := List.length_eq_one_iff.mp hlen
    rw [List.cons_append, hf, hf, List.nil_append, List.append_nil]
    rfl
  leaves env evm fr args r hlen h := by
    obtain ⟨x, rfl⟩ := List.length_eq_one_iff.mp hlen
    rw [hf] at h
    cases h
    exact .of_eq (by simp [stackResult, hout]) rfl

/-- Instructions with two operands that cannot fail, up to what they do to the machine. -/
theorem of_two {f : SimpleFn} {push : Nat} (effect : Env → Evm → Frame → Int → Int → Evm)
    (out : Int → Int → Stack) (hout : ∀ x y, (out x y).length = push)
    (hf : ∀ env evm (fr : Frame) x y st, f env evm (fr.withStack (x :: y :: st)) =
      some (stackResult (effect env evm fr x y) fr (out x y ++ st))) :
    f.Shaped 2 push (some 0) where
  reads env evm fr args st hlen := by
    obtain ⟨x, y, rfl⟩ := List.length_eq_two.mp hlen
    rw [List.cons_append, List.cons_append, hf, hf, List.nil_append, List.append_nil]
    rfl
  leaves env evm fr args r hlen h := by
    obtain ⟨x, y, rfl⟩ := List.length_eq_two.mp hlen
    rw [hf] at h
    cases h
    exact .of_eq (by simp [stackResult, hout]) rfl

theorem of_binaryOp (f : Int → Int → Int) : (binaryOp f).Shaped 2 1 (some 0) :=
  of_two (fun _ evm _ _ _ => evm) (fun x y => [f x y]) (fun _ _ => rfl) fun _ _ _ _ _ _ => rfl

theorem of_arithOp (key : String) (f : Int → Int → Int) : (arithOp key f).Shaped 2 1 (some 0) :=
  of_two (fun _ evm fr x y => markOverflow key (f x y) evm fr) (fun x y => [u256 (f x y)])
    (fun _ _ => rfl) fun _ _ _ _ _ _ => rfl

theorem of_opDiv : opDiv.Shaped 2 1 (some 0) := by
  refine of_two (fun _ evm fr x y => if y ≠ 0 then markOverflow keyDiv (x / y) evm fr else evm)
    (fun x y => [if y ≠ 0 then u256 (x / y) else 0]) (fun _ _ => rfl) ?_
  intro env evm fr x y st
  simp only [opDiv, Frame.withStack_stack]
  split_ifs <;> rfl

theorem of_ternaryOp (f : Int → Int → Int → Int) : (ternaryOp f).Shaped 3 1 (some 0) where
  reads env evm fr args st hlen := by
    obtain ⟨x, y, z, rfl⟩ := List.length_eq_three.mp hlen
    rfl
  leaves env evm fr args r hlen h := by
    obtain ⟨x, y, z, rfl⟩ := List.length_eq_three.mp hlen
    cases h
    exact .of_eq rfl rfl

/-- An instruction without operands. -/
theorem of_opStop : opStop.Shaped 0 0 (some 0) where
  reads env evm fr args st hlen := by
    obtain rfl := List.length_eq_zero_iff.mp hlen
    rfl
  leaves env evm fr args r hlen h := by
    cases h
    exact .of_eq hlen rfl

/-- One or two items are popped, and one is left either way. -/
theorem of_opSignExtend : opSignExtend.Shaped 2 1 (some 0) where
  reads env evm fr args st hlen := by
    obtain ⟨x, y, rfl⟩ := List.length_eq_two.mp hlen
    simp only [opSignExtend, Frame.withStack_stack, List.cons_append, List.nil_append]
    split_ifs <;> rfl
  leaves env evm fr args r hlen h := by
    obtain ⟨x, y, rfl⟩ := List.length_eq_two.mp hlen
    simp only [opSignExtend, Frame.withStack_stack] at h
    split_ifs at h <;> cases h <;> exact .of_eq rfl rfl

theorem of_opSha3 : opSha3.Shaped 2 1 (some 0) where
  reads env evm fr args st hlen := by
    obtain ⟨x, y, rfl⟩ := List.length_eq_two.mp hlen
    simp only [opSha3, Frame.withStack_stack, Frame.withStack_mem, List.cons_append, List.nil_append]
    cases fr.mem.get (int64 x) (int64 y) <;> rfl
  leaves env evm fr args r hlen h := by
    obtain ⟨x, y, rfl⟩ := List.length_eq_two.mp hlen
    obtain ⟨d, -, rfl⟩ := Option.map_eq_some_iff.mp h
    exact .of_eq rfl rfl

theorem of_opReturn : opReturn.Shaped 2 0 (some 0) where
  reads env evm fr args st hlen := by
    obtain ⟨x, y, rfl⟩ := List.length_eq_two.mp hlen
    simp only [opReturn, Frame.withStack_stack, Frame.withStack_mem, List.cons_append, List.nil_append]
    cases fr.mem.get (int64 x) (int64 y) <;> rfl
  leaves env evm fr args r hlen h := by
    obtain ⟨x, y, rfl⟩ := List.length_eq_two.mp hlen
    obtain ⟨d, -, rfl⟩ := Option.map_eq_some_iff.mp h
    exact .of_eq rfl rfl

theorem of_opMstore : opMstore.Shaped 2 0 (some 0) where
  reads env evm fr args st hlen := by
    obtain ⟨x, y, rfl⟩ := List.length_eq_two.mp hlen
    simp only [opMstore, Frame.withStack_stack, Frame.withStack_mem, List.cons_append,
      List.nil_append]
    cases fr.mem.set (uint64 x) 32 (paddedBigBytes y 32) <;> rfl
  leaves env evm fr args r hlen h := by
    obtain ⟨x, y, rfl⟩ := List.length_eq_two.mp hlen
    obtain ⟨m, -, rfl⟩ := Option.map_eq_some_iff.mp h
    exact .of_eq rfl rfl

theorem of_opMstore8 : opMstore8.Shaped 2 0 (some 0) where
  reads env evm fr args st hlen := by
    obtain ⟨x, y, rfl⟩ := List.length_eq_two.mp hlen
    simp only [opMstore8, Frame.withStack_stack, Frame.withStack_mem, List.cons_append,
      List.nil_append]
    by_cases h : 0 ≤ int64 x ∧ int64 x < fr.mem.len <;> simp [h, ExecResult.above, Frame.withStack]
  leaves env evm fr args r hlen h := by
    obtain ⟨x, y, rfl⟩ := List.length_eq_two.mp hlen
    simp only [opMstore8, Frame.withStack_stack] at h
    split_ifs at h
    cases h
    exact .of_eq rfl rfl

theorem copyToMemory_above (data : Bytes) (evm : Evm) (fr : Frame) (memOffset dataOffset l : Int)
    (st st' : Stack) : copyToMemory data evm (fr.withStack st') memOffset dataOffset l st =
      (copyToMemory data evm fr memOffset dataOffset l []).map (·.above st) := by
  simp only [copyToMemory, Frame.withStack_mem]
  cases getDataBig data dataOffset l with
  | none => rfl
  | some b =>
    simp only [Option.bind_some]
    cases fr.mem.set (uint64 memOffset) (uint64 l) b <;> rfl

theorem copyToMemory_leaves {data : Bytes} {evm : Evm} {fr : Frame} {memOffset dataOffset l : Int}
    {r : ExecResult} {st : Stack}
    (h : copyToMemory data evm (fr.withStack st) memOffset dataOffset l [] = some r) :
    r.Leaves fr 0 (some 0) := by
  obtain ⟨b, -, h⟩ := Option.bind_eq_some_iff.mp h
  obtain ⟨m, -, rfl⟩ := Option.map_eq_some_iff.mp h
  exact .of_eq rfl rfl

theorem of_copyOp {data : Frame → Bytes} (hd : ∀ fr st, data (fr.withStack st) = data fr) :
    (copyOp data).Shaped 3 0 (some 0) where
  reads env evm fr args st hlen := by
    obtain ⟨x, y, z, rfl⟩ := List.length_eq_three.mp hlen
    simp only [copyOp, Frame.withStack_stack, List.cons_append, List.nil_append, hd]
    rw [copyToMemory_above, copyToMemory_above _ _ _ _ _ _ [], Option.map_map]
    cases copyToMemory (data fr) evm fr x y z [] <;> simp [ExecResult.above]
  leaves env evm fr args r hlen h := by
    obtain ⟨x, y, z, rfl⟩ := List.length_eq_three.mp hlen
    exact copyToMemory_leaves h

theorem of_opExtCodeCopy : opExtCodeCopy.Shaped 4 0 (some 0) where
  reads env evm fr args st hlen := by
    obtain ⟨a, args, rfl⟩ := List.exists_cons_of_length_eq_add_one hlen
    obtain ⟨x, y, z, rfl⟩ := List.length_eq_three.mp (Nat.succ.inj hlen)
    simp only [opExtCodeCopy, Frame.withStack_stack, List.cons_append, List.nil_append]
    rw [copyToMemory_above, copyToMemory_above _ _ _ _ _ _ [], Option.map_map]
    cases copyToMemory _ evm fr x y z [] <;> simp [ExecResult.above]
  leaves env evm fr args r hlen h := by
    obtain ⟨a, args, rfl⟩ := List.exists_cons_of_length_eq_add_one hlen
    obtain ⟨x, y, z, rfl⟩ := List.length_eq_three.mp (Nat.succ.inj hlen)
    exact copyToMemory_leaves h

theorem of_opReturnDataCopy : opReturnDataCopy.Shaped 3 0 (some 0) where
  reads env evm fr args st hlen := by
    obtain ⟨x, y, z, rfl⟩ := List.length_eq_three.mp hlen
    simp only [opReturnDataCopy, Frame.withStack_stack, Frame.withStack_mem, List.cons_append,
      List.nil_append]
    split_ifs
    · rfl
    · cases slice evm.returnData (uint64 y).toNat (uint64 (y + z)).toNat with
      | none => rfl
      | some b =>
        simp only [Option.bind_some]
        cases fr.mem.set (uint64 x) (uint64 z) b <;> rfl
  leaves env evm fr args r hlen h := by
    obtain ⟨x, y, z, rfl⟩ := List.length_eq_three.mp hlen
    simp only [opReturnDataCopy, Frame.withStack_stack] at h
    split_ifs at h
    · cases h
      exact .of_eq rfl rfl
    · obtain ⟨b, -, h⟩ := Option.bind_eq_some_iff.mp h
      obtain ⟨m, -, rfl⟩ := Option.map_eq_some_iff.mp h
      exact .of_eq rfl rfl

theorem jumpTo_above (evm : Evm) (fr : Frame) (pos : Int) (st st' : Stack) :
    jumpTo evm (fr.withStack st') pos st = (jumpTo evm fr pos []).map (·.above st) := by
  simp only [jumpTo, Frame.withStack_contract]
  cases fr.contract.jumpdests.has fr.contract.codeHash fr.contract.code pos with
  | none => rfl
  | some x => cases hx : x.1 <;> simp [hx, ExecResult.above, Frame.withStack]

theorem jumpTo_leaves {evm : Evm} {fr fr' : Frame} {pos : Int} {r : ExecResult}
    (h : jumpTo evm fr pos [] = some r) : r.Leaves fr' 0 none := by
  obtain ⟨⟨ok, d⟩, -, rfl⟩ := Option.map_eq_some_iff.mp h
  refine ⟨fun _ => ?_, fun k hk => by cases hk⟩
  simp only
  split_ifs <;> rfl

theorem of_opJump : opJump.Shaped 1 0 none where
  reads env evm fr args st hlen := by
    obtain ⟨x, rfl⟩ := List.length_eq_one_iff.mp hlen
    simp only [opJump, Frame.withStack_stack, List.cons_append, List.nil_append]
    rw [jumpTo_above, jumpTo_above _ _ _ [], Option.map_map]
    cases jumpTo evm fr x [] <;> simp [ExecResult.above]
  leaves env evm fr args r hlen h := by
    obtain ⟨x, rfl⟩ := List.length_eq_one_iff.mp hlen
    exact jumpTo_leaves h

theorem of_opJumpi : opJumpi.Shaped 2 0 none where
  reads env evm fr args st hlen := by
    obtain ⟨x, y, rfl⟩ := List.length_eq_two.mp hlen
    simp only [opJumpi, Frame.withStack_stack, List.cons_append, List.nil_append]
    split_ifs
    · rw [jumpTo_above, jumpTo_above _ _ _ [], Option.map_map]
      cases jumpTo evm fr x [] <;> simp [ExecResult.above]
    · rfl
  leaves env evm fr args r hlen h := by
    obtain ⟨x, y, rfl⟩ := List.length_eq_two.mp hlen
    simp only [opJumpi, Frame.withStack_stack] at h
    split_ifs at h
    · exact jumpTo_leaves h
    · cases h
      exact ⟨fun _ => rfl, fun k hk => by cases hk⟩

theorem of_makeLog (n : Nat) : (makeLog n).Shaped (n + 2) 0 (some 0) where
  reads env evm fr args st hlen := by
    obtain ⟨x, y, topics, rfl⟩ := Stack.exists_two (by omega : 2 ≤ args.length)
    have hn : topics.length = n := by simpa using hlen
    have htake : (topics ++ st).take n = topics.take n := by
      rw [List.take_append_of_le_length (by omega)]
    have hdrop : (topics ++ st).drop n = st := by
      rw [← hn, List.drop_left]
    have hle : n ≤ (topics ++ st).length := by
      rw [List.length_append]
      omega
    simp only [makeLog, Frame.withStack_stack, Frame.withStack_mem, Frame.withStack_contract,
      List.cons_append, if_pos hle, if_pos (Nat.le_of_eq hn.symm), htake, hdrop]
    cases fr.mem.get (int64 x) (int64 y) with
    | none => rfl
    | some d => simp [stackResult, ExecResult.above, ← hn]
  leaves env evm fr args r hlen h := by
    obtain ⟨x, y, topics, rfl⟩ := Stack.exists_two (by omega : 2 ≤ args.length)
    have hn : topics.length = n := by simpa using hlen
    simp only [makeLog, Frame.withStack_stack, if_pos (Nat.le_of_eq hn.symm)] at h
    obtain ⟨d, -, rfl⟩ := Option.map_eq_some_iff.mp h
    exact .of_eq (by simp [stackResult, ← hn]) rfl

theorem of_makePush (n : Nat) : (makePush n).Shaped 0 1 (some n) where
  reads env evm fr args st hlen := by
    obtain rfl := List.length_eq_zero_iff.mp hlen
    simp only [makePush, Frame.withStack_contract, Frame.withStack_pc]
    cases slice fr.contract.code _ _ <;> rfl
  leaves env evm fr args r hlen h := by
    obtain ⟨b, -, rfl⟩ := Option.map_eq_some_iff.mp h
    refine ⟨fun _ => by simp [hlen], ?_⟩
    rintro k ⟨⟩
    rfl

theorem of_makeDup (n : Nat) : (makeDup (n + 1)).Shaped (n + 1) (n + 2) (some 0) where
  reads env evm fr args st hlen := by
    have hget : (args ++ st)[n]? = args[n]? := List.getElem?_append_left (by omega)
    simp only [makeDup, Stack.back, Frame.withStack_stack, Nat.add_sub_cancel, hget]
    cases args[n]? <;> rfl
  leaves env evm fr args r hlen h := by
    obtain ⟨x, -, rfl⟩ := Option.map_eq_some_iff.mp h
    exact .of_eq (by simp [stackResult, hlen]) rfl

theorem of_makeSwap (n : Nat) : (makeSwap (n + 1)).Shaped (n + 2) (n + 2) (some 0) where
  reads env evm fr args st hlen := by
    obtain ⟨top, args, rfl⟩ := List.exists_cons_of_length_eq_add_one hlen
    have hn : args.length = n + 1 := by simpa using hlen
    have hget : (args ++ st)[n]? = args[n]? := List.getElem?_append_left (by omega)
    have hset : (args ++ st).set n top = args.set n top ++ st := by
      rw [List.set_append_left _ _ (by omega)]
    simp only [makeSwap, Frame.withStack_stack, List.cons_append, Nat.add_sub_cancel, hget, hset]
    cases args[n]? <;> rfl
  leaves env evm fr args r hlen h := by
    obtain ⟨top, args, rfl⟩ := List.exists_cons_of_length_eq_add_one hlen
    obtain ⟨x, -, rfl⟩ := Option.map_eq_some_iff.mp h
    exact .of_eq (by simpa [stackResult] using hlen) rfl

end SimpleFn.Shaped

/-- How far the instruction moves the program counter before the loop adds one. -/
def OpCode.skip : OpCode → Option Nat
  | JUMP | JUMPI => none
  | PUSH n => some (n + 1)
  | _ => some 0

open SimpleFn.Shaped in
/-- Every instruction that enters no frame has the shape that the jump table declares. -/
theorem execute_shaped {op : OpCode} (hc : op.isCall = false) :
    ∃ f, (operation op).execute = simple f ∧
      f.Shaped (operation op).pop (operation op).push op.skip := by
  cases op
  case CREATE | CALL | CALLCODE | DELEGATECALL | STATICCALL => cases hc
  all_goals
    simp only [operation, entry]
    refine ⟨_, rfl, ?_⟩
  case ADD | SUB | MUL => exact of_arithOp _ _
  case DIV => exact of_opDiv
  case SDIV | MOD | SMOD | EXP | LT | GT | SLT | SGT | EQ | AND | OR | XOR | BYTE =>
    exact of_binaryOp _
  case ADDMOD | MULMOD => exact of_ternaryOp _
  case ISZERO | NOT | EXTCODESIZE | BLOCKHASH => exact of_unaryOp fun _ _ _ _ => rfl
  case CALLDATALOAD | MLOAD => exact of_readOp fun _ _ => rfl
  case CALLDATACOPY | CODECOPY => exact of_copyOp fun _ _ => rfl
  case SIGNEXTEND => exact of_opSignExtend
  case SHA3 => exact of_opSha3
  case EXTCODECOPY => exact of_opExtCodeCopy
  case RETURNDATACOPY => exact of_opReturnDataCopy
  case MSTORE => exact of_opMstore
  case MSTORE8 => exact of_opMstore8
  case RETURN | REVERT => exact of_opReturn
  case STOP | JUMPDEST => exact of_opStop
  case JUMP => exact of_opJump
  case JUMPI => exact of_opJumpi
  case PUSH n => exact of_makePush _
  case DUP n => exact of_makeDup _
  case SWAP n => exact of_makeSwap _
  case LOG n => exact of_makeLog _
  case POP =>
    exact of_one (fun _ evm _ _ => evm) (fun _ _ _ _ => []) (fun _ _ _ _ => rfl)
      fun _ _ _ _ _ => rfl
  case BALANCE =>
    exact of_one (fun _ evm _ x => { evm with stateDB := (evm.stateDB.getBalance (bigToAddress x)).2 })
      (fun _ evm _ x => [(evm.stateDB.getBalance (bigToAddress x)).1]) (fun _ _ _ _ => rfl)
      fun _ _ _ _ _ => rfl
  case SLOAD =>
    exact of_one (fun env evm fr x => OpCode.SLOAD.effect env evm (fr.withStack [x]))
      (fun _ evm fr x => [Hash.big (evm.stateDB.getState fr.contract.self (bigToHash x)).1])
      (fun _ _ _ _ => rfl) fun _ _ _ _ _ => rfl
  case SELFDESTRUCT =>
    exact of_one (fun env evm fr x => OpCode.SELFDESTRUCT.effect env evm (fr.withStack [x]))
      (fun _ _ _ _ => []) (fun _ _ _ _ => rfl) fun _ _ _ _ _ => rfl
  case SSTORE =>
    exact of_two (fun env evm fr x y => OpCode.SSTORE.effect env evm (fr.withStack [x, y]))
      (fun _ _ => []) (fun _ _ => rfl) fun _ _ _ _ _ _ => rfl
  all_goals exact of_pushOp fun _ _ _ _ => rfl

end MiniEvm
