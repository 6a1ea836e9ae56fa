import MiniEvm.Framework.Cells
import MiniEvm.Vm.Entry
import MiniEvm.Vm.Step

namespace MiniEvm

open Math Framework

/-! The interpreter on references: the items of a stack and the value of a contract are big integers
that instructions change in place, and all frames share one pool of them. -/

def poolLimit : Nat := 256

/-- The references at the start of an iteration: on the stack of the frame, in the pool, and what
the suspended frames hold, the values of the live contracts included. -/
structure InUse where
  stack : List Nat
  pool : List Nat
  held : List Nat

/-- The big integers and, as a ghost, the references at every iteration so far. -/
structure Ints extends Cells Int where
  boundaries : List InUse

/-- The local variables of `Interpreter.Run`; `value` is the reference `contract.value`. -/
structure PtrFrame where
  pc : Nat
  stack : List Nat
  mem : Memory
  contract : Contract
  value : Nat

/-- What the references stand for. -/
def PtrFrame.view (f : PtrFrame) (a : Cells Int) : Frame :=
  ⟨f.pc, f.stack.map a.value, f.mem, { f.contract with value := a.value f.value }⟩

namespace IntProg

abbrev Source := Int → Work Int → Option Int

/-- A value that no integer of the program matters for. -/
def const (v : Int) : Source := fun _ _ => some v

/-- `contract.value`. -/
def callValue : Source := fun value _ => some value

/-- An item of the stack. -/
def item (i : Nat) : Source := fun _ w => w.stack[i]?

def arg (r : Nat) (f : Int → Int) : Source := fun _ w => (w.var r).map f

def arg2 (r s : Nat) (f : Int → Int → Int) : Source := fun _ w =>
  (w.var r).bind fun x => (w.var s).map fun y => f x y

def test (r : Nat) (p : Int → Bool) : Int → Work Int → Option Bool := fun _ w => (w.var r).map p

def test2 (r s : Nat) (p : Int → Int → Bool) : Int → Work Int → Option Bool := fun _ w =>
  (w.var r).bind fun x => (w.var s).map fun y => p x y

def pops : Nat → CellProg Int → CellProg Int
  | 0, k => k
  | n + 1, k => .pop (pops n k)

/-- `stack.push(intPool.get().Set(...))`. -/
def pushPooled (f : Source) : CellProg Int := .take f (.push 0 .done)

/-- `stack.push(new(big.Int).Set(...))` of a value that is not among the operands. -/
def pushNew (v : Int) : CellProg Int := .new (const v) (.push 0 .done)

/-- `x.Op(x, y)`, `math.U256(x)`, `stack.push(x)` and `intPool.put(y)`. -/
def wrapped (f : Int → Int → Int) : CellProg Int :=
  .pop (.pop (.set 0 (arg2 0 1 f) (.set 0 (arg 0 u256) (.push 0 (.put [1] .done)))))

/-- `stack.push(x.Op(x, y))` and `intPool.put(y)`. -/
def bitwise (f : Int → Int → Int) : CellProg Int :=
  .pop (.pop (.set 0 (arg2 0 1 f) (.push 0 (.put [1] .done))))

/-- `math.S256` of variable `r`: a new integer for the upper half, else the same. There are `n`
variables before. -/
def signed (r n : Nat) (k : Nat → Nat → CellProg Int) : CellProg Int :=
  .branch (test r fun x => x < tt255) (k r n) (.new (arg r s256) (k n (n + 1)))

/-- The end of a comparison of the variables `x` and `y`: one from the pool or a new zero. There are
`n` variables before. -/
def compared (x y n : Nat) (p : Int → Int → Bool) : CellProg Int :=
  .branch (test2 x y p) (.take (const 1) (.push n (.put [x, y] .done)))
    (.new (const 0) (.push n (.put [x, y] .done)))

end IntProg

open IntProg

/-- `x.Div(x.Abs(x), y.Abs(y))` or `x.Mod`, times `n`. -/
def signedResult (x y n : Nat) (f : Int → Int → Int) : CellProg Int :=
  .set x (arg x fun v => v.natAbs) (.set y (arg y fun v => v.natAbs) (.set x (arg2 x y f)
    (.set x (arg2 x n fun v s => v * s) (.set x (arg x u256) (.push x (.put [y] .done))))))

/-- The sign is that of a product in an integer of the pool that is not given back; neither are the
operands of a division by zero. -/
def cellsSdiv : CellProg Int :=
  .pop (signed 0 1 fun x n => .pop (signed n (n + 1) fun y m =>
    .branch (test y fun v => v = 0) (.new (const 0) (.push m .done))
      (.new (const 0) (.take (arg2 x y fun v w => v * w)
        (.branch (test (m + 1) fun v => v < 0)
          (.set m (const (-1)) (signedResult x y m fun v w => v / w))
          (.set m (const 1) (signedResult x y m fun v w => v / w)))))))

def cellsSmod : CellProg Int :=
  .pop (signed 0 1 fun x n => .pop (signed n (n + 1) fun y m =>
    .branch (test y fun v => v = 0) (.new (const 0) (.push m (.put [y] .done)))
      (.new (const 0) (.branch (test x fun v => v < 0)
        (.set m (const (-1)) (signedResult x y m fun v w => v % w))
        (.set m (const 1) (signedResult x y m fun v w => v % w))))))

/-- The mask is built in the integer of the index. -/
def cellsSignExtend : CellProg Int :=
  .pop (.branch (test 0 fun back => back < 31)
    (.pop (.branch (test2 0 1 fun back num => num.testBit (uint64 back * 8 + 7).toNat)
      (.set 0 (arg 0 fun back => 2^(uint64 back * 8 + 7).toNat) (.set 0 (arg 0 fun mask => mask - 1)
        (.set 0 (arg 0 fun mask => -mask - 1) (.set 1 (arg2 1 0 Int.lor)
          (.set 1 (arg 1 u256) (.push 1 (.put [0] .done)))))))
      (.set 0 (arg 0 fun back => 2^(uint64 back * 8 + 7).toNat) (.set 0 (arg 0 fun mask => mask - 1)
        (.set 1 (arg2 1 0 Int.land) (.set 1 (arg 1 u256) (.push 1 (.put [0] .done))))))))
    (.put [0] .done))

/-- `x.Op(x, y)`, `x.Mod(x, z)`, unless `z` is not positive. -/
def cellsModular (f : Int → Int → Int) : CellProg Int :=
  .pop (.pop (.pop (.branch (test 2 fun z => z > 0)
    (.set 0 (arg2 0 1 f) (.set 0 (arg2 0 2 fun x z => x % z) (.set 0 (arg 0 u256)
      (.push 0 (.put [1, 2] .done)))))
    (.new (const 0) (.push 3 (.put [1, 2] .done))))))

/-- What an instruction that enters no frame does to the integers. `out` is the result where it does
not depend on integers of the stack alone, and `ok` whether there was no error. -/
def OpCode.cells (op : OpCode) (env : Env) (out : Int) (ok : Bool) : CellProg Int :=
  match op with
  | STOP | JUMPDEST => .done
  | ADD => wrapped (· + ·)
  | SUB => wrapped (· - ·)
  | MUL => wrapped (· * ·)
  | DIV => .pop (.pop (.branch (test 1 fun y => y ≠ 0)
      (.set 0 (arg2 0 1 (· / ·)) (.set 0 (arg 0 u256) (.push 0 (.put [1] .done))))
      (.new (const 0) (.push 2 (.put [1] .done)))))
  | SDIV => cellsSdiv
  | MOD => .pop (.pop (.branch (test 1 fun y => y = 0)
      (.new (const 0) (.push 2 (.put [1] .done)))
      (.set 0 (arg2 0 1 (· % ·)) (.set 0 (arg 0 u256) (.push 0 (.put [1] .done))))))
  | SMOD => cellsSmod
  | ADDMOD => cellsModular (· + ·)
  | MULMOD => cellsModular (· * ·)
  -- `math.Exp` leaves its last square in `base`
  | EXP => .pop (.pop (.new (arg2 0 1 fun b e => (bigExp b e).1)
      (.set 0 (arg2 0 1 fun b e => (bigExp b e).2) (.push 2 (.put [0, 1] .done)))))
  | SIGNEXTEND => cellsSignExtend
  | LT => .pop (.pop (compared 0 1 2 fun x y => x < y))
  | GT => .pop (.pop (compared 0 1 2 fun x y => x > y))
  | SLT => .pop (signed 0 1 fun x n => .pop (signed n (n + 1) fun y m =>
      compared x y m fun v w => v < s256 w))
  | SGT => .pop (signed 0 1 fun x n => .pop (signed n (n + 1) fun y m =>
      compared x y m fun v w => v > w))
  | EQ => .pop (.pop (compared 0 1 2 fun x y => x = y))
  | ISZERO => .pop (.branch (test 0 fun x => x > 0) (.new (const 0) (.push 1 (.put [0] .done)))
      (.take (const 1) (.push 1 (.put [0] .done))))
  | AND => bitwise Int.land
  | OR => bitwise Int.lor
  | XOR => bitwise Int.xor
  | NOT => .pop (.set 0 (arg 0 fun x => -x - 1) (.set 0 (arg 0 u256) (.push 0 .done)))
  | BYTE => .pop (.poke (fun value w => (item 0 value w).bind fun val => (w.var 0).map fun th =>
      if th < 32 then ((bigByte val 32 (int64 th)).toNat : Int) else 0) (.put [0] .done))
  | SHA3 => pops 2 (.new (const out) (.push 2 (.put [0, 1] .done)))
  | ADDRESS | ORIGIN | CALLER | COINBASE | TIMESTAMP | NUMBER | DIFFICULTY | GASLIMIT => pushNew out
  | BALANCE | CALLDATALOAD | SLOAD => .pop (.new (const out) (.push 1 .done))
  | CALLVALUE => pushPooled callValue
  | CALLDATASIZE | RETURNDATASIZE | CODESIZE | GASPRICE | PC | MSIZE | GAS | PUSH _ =>
    pushPooled (const out)
  | CALLDATACOPY | RETURNDATACOPY | CODECOPY => pops 3 (.put [0, 1, 2] .done)
  | EXTCODESIZE => .pop (.set 0 (const out) (.push 0 .done))
  | EXTCODECOPY => pops 4 (.put [1, 2, 3] .done)
  | BLOCKHASH => .pop (.take (const (env.blockNumber - 257))
      (.new (const out) (.push 2 (.put [0, 1] .done))))
  | POP => .pop (.put [0] .done)
  | MLOAD => .pop (.new (const out) (.push 1 (.put [0] .done)))
  | MSTORE | RETURN | REVERT => pops 2 (.put [0, 1] .done)
  | MSTORE8 => pops 2 .done
  | SSTORE => pops 2 (.put [1] .done)
  | JUMP => .pop (if ok then .put [0] .done else .done)
  | JUMPI => pops 2 (if ok then .put [0, 1] .done else .done)
  | SELFDESTRUCT => .pop .done
  | LOG n => pops (n + 2) (.put [0, 1] .done)
  | DUP n => pushPooled (item n)
  | SWAP n => .swap (n + 1) .done
  | CREATE | CALL | CALLCODE | DELEGATECALL | STATICCALL => .done

/-- The start of an instruction that enters a frame: its operands are taken from the stack, and the
value of a call is truncated in place. -/
def OpCode.opening : OpCode → CellProg Int
  | CREATE => pops 3 .done
  | CALL | CALLCODE => .pop (.put [0] (pops 6 (.set 2 (arg 2 u256) .done)))
  | DELEGATECALL | STATICCALL => .pop (.put [0] (pops 5 .done))
  | _ => .done

/-- Its end: the status or the address is pushed and the operands go back to the pool. -/
def OpCode.closing (out : Int) : OpCode → CellProg Int
  | CREATE => .new (const out) (.push 3 (.put [0, 1, 2] .done))
  | CALL | CALLCODE => .new (const out) (.push 7 (.put [1, 2, 3, 4, 5, 6] .done))
  | DELEGATECALL | STATICCALL => .new (const out) (.push 6 (.put [1, 2, 3, 4, 5] .done))
  | _ => .done

/-- The reference that the callee's contract gets as its value; a static call makes a new one. -/
def OpCode.valueCell (op : OpCode) (f : PtrFrame) (w : Work Nat) : Option Nat :=
  match op with
  | CREATE => w.var 0
  | CALL | CALLCODE => w.var 2
  | DELEGATECALL => some f.value
  | _ => none

/-- `Interpreter.Run` on references: the contract's value is a reference, and `held` are the
references of the suspended frames. -/
abbrev PtrRunFn :=
  Evm → Ints → Contract → Nat → Bytes → List Nat → Outcome Evm (RunResult × Ints)

def runContractPtr (env : Env) (run : PtrRunFn) (evm : Evm) (a : Ints) (contract : Contract)
    (value : Nat) (input : Bytes) (held : List Nat) : Outcome Evm (RunResult × Ints) :=
  let evm := evm.emit (.enter evm.depth contract input)
  match contract.codeAddr.bind env.precompiles with
  | some p =>
    Outcome.ofOption evm ((runPrecompiledContract env.crypto p input contract).map
      fun (ret, err, contract) => (⟨ret, err, evm, contract⟩, a))
  | none => run evm a contract value input held

/-- `new(big.Int)`. -/
def Ints.newInt (a : Ints) : Nat × Ints :=
  (a.alloc.1, { a with toCells := a.alloc.2.write a.alloc.1 0 })

/-- The five entry points; the value of the contract is a given reference or a new one. -/
def Entry.invokePtr (env : Env) (run : PtrRunFn) (evm : Evm) (a : Ints) (caller : ContractRef)
    (gas : UInt64) (value : Option Nat) (held : List Nat) (e : Entry) :
    Outcome Evm (CreateResult × Ints) :=
  (Outcome.ofOption evm (e.prepare env evm caller gas)).bind fun
    | .inl r => .ok (r, a)
    | .inr l =>
      (match value with
        | some c => runContractPtr env run l.evm a l.contract c l.input held
        | none => runContractPtr env run l.evm a.newInt.2 l.contract a.newInt.1 l.input
            (a.newInt.1 :: held)).bind fun (r, a) => .ok (e.conclude env (!evm.readOnly) l r, a)

/-- What an instruction leaves. -/
structure PtrResult where
  ret : Bytes
  err : Option VmError
  evm : Evm
  frame : PtrFrame
  ints : Ints

/-- The integers after a program on them, and the frame with the stack that it leaves. -/
def ExecResult.withCells (res : ExecResult) (a : Ints) (value : Nat) (s : Cells Int × Work Nat) :
    PtrResult :=
  ⟨res.ret, res.err, res.evm, ⟨res.frame.pc, s.2.stack, res.frame.mem, res.frame.contract, value⟩,
    { a with toCells := s.1 }⟩

/-- An instruction that enters no frame. -/
def OpCode.executeCells (op : OpCode) (env : Env) (evm : Evm) (a : Ints) (f : PtrFrame) :
    Outcome Evm PtrResult :=
  ((operation op).execute env (fun _ _ _ => .timeout) evm (f.view a.toCells)).bind fun res =>
    (Outcome.ofOption evm ((op.cells env (res.frame.stack.headD 0) res.err.isNone).run poolLimit f.value
      a.toCells ⟨[], f.stack⟩)).bind fun s => .ok (res.withCells a f.value s)

/-- The operands that an instruction has taken and the rest of the stack, read again. -/
def reread (w : Work Nat) (a : Cells Int) : Stack :=
  w.vars.map (fun c => (c.map a.value).getD 0) ++ w.stack.map a.value

/-- An instruction that enters a frame. Its operands are held while the callee runs, and are read
again when it has returned. -/
def OpCode.executeCall (op : OpCode) (env : Env) (run : PtrRunFn) (evm : Evm) (a : Ints)
    (f : PtrFrame) (held : List Nat) : Outcome Evm PtrResult :=
  let fr := f.view a.toCells
  (Outcome.ofOption evm (op.invocation env evm fr)).bind fun i =>
    (Outcome.ofOption evm (op.opening.run poolLimit f.value a.toCells ⟨[], f.stack⟩)).bind fun s =>
      (i.entry.invokePtr env run evm { a with toCells := s.1 } (.contract i.caller) i.gas
        (op.valueCell f s.2) (s.2.live ++ held)).bind fun (r, a) =>
          (op.resume env { fr with stack := reread s.2 a.toCells } r).bind fun res =>
            (Outcome.ofOption evm ((op.closing (res.frame.stack.headD 0)).run poolLimit f.value
              a.toCells s.2)).bind fun s => .ok (res.withCells a f.value s)

def OpCode.executePtr (op : OpCode) (env : Env) (run : PtrRunFn) (evm : Evm) (a : Ints) (f : PtrFrame)
    (held : List Nat) : Outcome Evm PtrResult :=
  if op.isCall then op.executeCall env run evm a f held else op.executeCells env evm a f

inductive PtrStep where
  | next (evm : Evm) (f : PtrFrame) (a : Ints)
  | done (r : RunResult) (a : Ints)

/-- `finish` on references. -/
def finishPtr (o : Operation) (res : PtrResult) : PtrStep :=
  let evm := if o.returns then { res.evm with returnData := res.ret } else res.evm
  let contract := (res.frame.view res.ints.toCells).contract
  match res.err with
  | some e => .done ⟨[], some e, evm, contract⟩ res.ints
  | none =>
    if o.reverts then .done ⟨res.ret, some .executionReverted, evm, contract⟩ res.ints
    else if o.halts then .done ⟨res.ret, none, evm, contract⟩ res.ints
    else if o.jumps then .next evm res.frame res.ints
    else .next evm { res.frame with pc := res.frame.pc + 1 } res.ints

def performPtr (env : Env) (run : PtrRunFn) (evm : Evm) (a : Ints) (f : PtrFrame) (held : List Nat)
    (ft : Fetched) : Outcome Evm PtrStep :=
  let evm := evm.attempting (f.view a.toCells) ft.op
  (Outcome.ofOption evm (charge env ft.operation evm (f.view a.toCells) ft.memorySize)).bind
    fun (paid, evm, fr) =>
      if paid then
        let f := { f with mem := (fr.expand ft.memorySize).mem, contract := fr.contract }
        (ft.op.executePtr env run (evm.executing (f.view a.toCells) ft.op) a f held).bind fun res =>
          .ok (finishPtr ft.operation res)
      else .ok (.done ⟨[], some .outOfGas, evm, fr.contract⟩ a)

/-- One iteration; the references in use are recorded first. -/
def stepPtr (env : Env) (run : PtrRunFn) (evm : Evm) (a : Ints) (f : PtrFrame) (held : List Nat) :
    Outcome Evm PtrStep :=
  let a := { a with boundaries := a.boundaries ++ [⟨f.stack, a.pool, held⟩] }
  (Outcome.ofOption evm (fetch env env.jumpTable evm (f.view a.toCells))).bind fun
    | .error e => .ok (.done ⟨[], some e, evm, (f.view a.toCells).contract⟩ a)
    | .ok ft => performPtr env run evm a f held ft

def loopPtr (env : Env) (run : PtrRunFn) (held : List Nat) :
    Nat → Evm → Ints → PtrFrame → Outcome Evm (RunResult × Ints)
  | 0, _, _, _ => .timeout
  | n + 1, evm, a, f =>
    if evm.abort then .ok (⟨[], none, evm, (f.view a.toCells).contract⟩, a)
    else (stepPtr env run evm a f held).bind fun
      | .next evm f a => loopPtr env run held n evm a f
      | .done r a => .ok (r, a)

def interpreterRunPtr (env : Env) : Nat → PtrRunFn
  | 0 => fun _ _ _ _ _ _ => .timeout
  | n + 1 => fun evm a contract value input held =>
    let evm := { evm with depth := evm.depth + 1, returnData := [] }
    let result : Outcome Evm (RunResult × Ints) :=
      if contract.code = [] then .ok (⟨[], none, evm, contract⟩, a)
      else loopPtr env (interpreterRunPtr env n) held n evm a
        ⟨0, [], Memory.new, { contract with input := input }, value⟩
    result.bind fun (r, a) => .ok ({ r with evm := { r.evm with depth := r.evm.depth - 1 } }, a)

/-- An entry point on references. -/
def Entry.startPtr (env : Env) (fuel : Nat) (evm : Evm) (a : Ints) (caller : ContractRef)
    (gas : UInt64) (value : Option Nat) (held : List Nat) (e : Entry) :
    Outcome Evm (CreateResult × Ints) :=
  e.invokePtr env (interpreterRunPtr env fuel) evm a caller gas value held

end MiniEvm
