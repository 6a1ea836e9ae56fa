import MiniEvm.Vm.JumpTable

namespace MiniEvm

open Math Framework

/-- The write protection of a read-only machine; the third item of a `CALL` is its value. -/
def enforceRestrictions (env : Env) (evm : Evm) (op : OpCode) (o : Operation) (st : Stack) :
    Option VmError :=
  if env.isByzantium && evm.readOnly &&
      (o.writes || (op = .CALL && (st.back 2).any fun v => bitLen v > 0)) then
    some .writeProtection
  else none

/-- The memory the instruction needs, in whole words. -/
def memorySizeFor (o : Operation) (st : Stack) : Option (Except VmError UInt64) :=
  match o.memorySize with
  | none => some (.ok 0)
  | some f => (f st).map fun v => do
      let memSize ← checked (bigUint64 v)
      checked (safeMul (toWordSize memSize) 32)

/-- An instruction that passed the checks made before its gas is computed. -/
structure Fetched where
  op : OpCode
  operation : Operation
  memorySize : UInt64

/-- Opcode, stack and write checks, and the memory size. -/
def fetch (env : Env) (jt : JumpTable) (evm : Evm) (fr : Frame) :
    Option (Except VmError Fetched) :=
  let b := fr.contract.getByte fr.pc
  match (OpCode.ofByte b).bind fun op => (jt op).map (op, ·) with
  | none => some (.error (.invalidOpcode b))
  | some (op, o) =>
    match fr.stack.validate o.pop o.push with
    | some e => some (.error e)
    | none =>
      match enforceRestrictions env evm op o fr.stack with
      | some e => some (.error e)
      | none => (memorySizeFor o fr.stack).map (·.map (⟨op, o, ·⟩))

/-- Whether the gas could be paid, and what computing and paying it leaves. -/
def charge (env : Env) (o : Operation) (evm : Evm) (fr : Frame) (memorySize : UInt64) :
    Option (Bool × Evm × Frame) :=
  if env.disableGasMetering then some (true, evm, fr)
  else (o.gasCost env evm fr memorySize).map fun g =>
    let fr := { fr with mem := g.mem }
    match g.cost with
    | .error _ => (false, g.evm, fr)
    | .ok cost =>
      match fr.contract.useGas cost with
      | none => (false, g.evm, fr)
      | some contract => (true, g.evm, { fr with contract := contract })

def Frame.expand (fr : Frame) (memorySize : UInt64) : Frame :=
  if memorySize > 0 then { fr with mem := fr.mem.resize memorySize } else fr

/-- One iteration of the loop ends the frame or goes on. -/
inductive StepResult where
  | next (evm : Evm) (fr : Frame)
  | done (r : RunResult)

/-- What the interpreter does with the outcome of an instruction. -/
def finish (o : Operation) (res : ExecResult) : StepResult :=
  let evm := if o.returns then { res.evm with returnData := res.ret } else res.evm
  match res.err with
  | some e => .done ⟨[], some e, evm, res.frame.contract⟩
  | none =>
    if o.reverts then .done ⟨res.ret, some .executionReverted, evm, res.frame.contract⟩
    else if o.halts then .done ⟨res.ret, none, evm, res.frame.contract⟩
    else if o.jumps then .next evm res.frame
    else .next evm { res.frame with pc := res.frame.pc + 1 }

/-- Pays for a fetched instruction and executes it. -/
def perform (env : Env) (run : RunFn) (evm : Evm) (fr : Frame) (f : Fetched) :
    Outcome Evm StepResult :=
  let evm := evm.emit (.attempt evm.toWorld fr f.op)
  (Outcome.ofOption evm (charge env f.operation evm fr f.memorySize)).bind fun (paid, evm, fr) =>
    if paid then
      let fr := fr.expand f.memorySize
      (f.operation.execute env run (evm.emit (.exec evm.toWorld fr f.op)) fr).bind fun res =>
        .ok (finish f.operation res)
    else .ok (.done ⟨[], some .outOfGas, evm, fr.contract⟩)

def step (env : Env) (jt : JumpTable) (run : RunFn) (evm : Evm) (fr : Frame) :
    Outcome Evm StepResult :=
  (Outcome.ofOption evm (fetch env jt evm fr)).bind fun
    | .error e => .ok (.done ⟨[], some e, evm, fr.contract⟩)
    | .ok f => perform env run evm fr f

/-- The main loop, for at most the given number of iterations. -/
def loop (env : Env) (jt : JumpTable) (run : RunFn) : Nat → Evm → Frame → Outcome Evm RunResult
  | 0, _, _ => .timeout
  | n + 1, evm, fr =>
    if evm.abort then .ok ⟨[], none, evm, fr.contract⟩
    else (step env jt run evm fr).bind fun
      | .next evm fr => loop env jt run n evm fr
      | .done r => .ok r

/-- The frame that a run starts with. -/
def Frame.start (contract : Contract) (input : Bytes) : Frame :=
  ⟨0, [], Memory.new, { contract with input := input }⟩

/-- `Interpreter.Run`. The number bounds both the iterations of a frame and the nesting. -/
def interpreterRun (env : Env) (jt : JumpTable) : Nat → RunFn
  | 0 => fun _ _ _ => .timeout
  | n + 1 => fun evm contract input =>
    let evm := { evm with depth := evm.depth + 1, returnData := [] }
    let result : Outcome Evm RunResult :=
      if contract.code = [] then .ok ⟨[], none, evm, contract⟩
      else loop env jt (interpreterRun env jt n) n evm (Frame.start contract input)
    result.bind fun r => .ok { r with evm := { r.evm with depth := r.evm.depth - 1 } }

/-- An entry point of a machine with the default jump table of its fork. -/
def Entry.start (env : Env) (fuel : Nat) (evm : Evm) (caller : ContractRef) (gas : UInt64)
    (e : Entry) : Outcome Evm CreateResult :=
  e.invoke env (interpreterRun env env.jumpTable fuel) evm caller gas

end MiniEvm
