import MiniEvm.Vm.Step

namespace MiniEvm

open Math Framework

/-! The interpreter without the overflow instrumentation: `opAdd`, `opSub`, `opMul` and `opDiv` push
the result modulo 2^256 and leave the store alone. -/

def plainArith (f : Int → Int → Int) : SimpleFn := binaryOp fun x y => u256 (f x y)

def plainDiv : SimpleFn := binaryOp fun x y => if y ≠ 0 then u256 (x / y) else 0

namespace OpCode

/-- The instrumented instructions. -/
def isMarking : OpCode → Bool
  | ADD | SUB | MUL | DIV => true
  | _ => false

/-- How an instruction is executed, with or without the marks. -/
def executeWith (marks : Bool) (op : OpCode) : ExecFn :=
  match marks, op with
  | false, ADD => simple (plainArith (· + ·))
  | false, SUB => simple (plainArith (· - ·))
  | false, MUL => simple (plainArith (· * ·))
  | false, DIV => simple plainDiv
  | _, op => (operation op).execute

/-- What executing an instruction does to the machine, with or without the marks. -/
def effectWith (marks : Bool) (op : OpCode) (env : Env) (evm : Evm) (fr : Frame) : Evm :=
  if marks || !op.isMarking then op.effect env evm fr else evm

end OpCode

/-- The entry of an instruction with or without the marks: only its execution differs. -/
def operationWith (marks : Bool) (op : OpCode) : Operation :=
  { operation op with execute := op.executeWith marks }

/-- The jump table of the fork with or without the marks. -/
def Env.tableWith (env : Env) (marks : Bool) : JumpTable := fun op =>
  (env.jumpTable op).map fun _ => operationWith marks op

/-- The plain interpreter. -/
def Entry.startPlain (env : Env) (fuel : Nat) (evm : Evm) (caller : ContractRef) (gas : UInt64)
    (e : Entry) : Outcome Evm CreateResult :=
  e.invoke env (interpreterRun env (env.tableWith false) fuel) evm caller gas

theorem operationWith_true (op : OpCode) : operationWith true op = operation op := by
  have h : op.executeWith true = (operation op).execute := by cases op <;> rfl
  rw [operationWith, h]

/-- With the marks it is the table of the program. -/
theorem Env.tableWith_true (env : Env) : env.tableWith true = env.jumpTable := by
  funext op
  rw [tableWith]
  cases h : env.jumpTable op with
  | none => rfl
  | some o =>
    rw [Env.jumpTable_eq h, Option.map_some, operationWith_true]

theorem OpCode.executeWith_call {op : OpCode} (marks : Bool) (hc : op.isCall = true) :
    op.executeWith marks = (operation op).execute := by
  cases op
  case CREATE | CALL | CALLCODE | DELEGATECALL | STATICCALL => cases marks <;> rfl
  all_goals cases hc

theorem OpCode.executeWith_unmarking {op : OpCode} (marks : Bool) (h : op.isMarking = false) :
    op.executeWith marks = (operation op).execute := by
  cases op
  case ADD | SUB | MUL | DIV => cases h
  all_goals cases marks <;> rfl

/-- Fetching is the same but for the entry that is found. -/
theorem fetch_tableWith (env : Env) (marks : Bool) (evm : Evm) (fr : Frame) :
    fetch env (env.tableWith marks) evm fr = (fetch env env.jumpTable evm fr).map
      (·.map fun f => { f with operation := operationWith marks f.op }) := by
  unfold fetch
  simp only
  cases hop : OpCode.ofByte (fr.contract.getByte fr.pc) with
  | none => rfl
  | some op =>
    cases hjt : env.jumpTable op with
    | none => simp [Env.tableWith, hjt, Except.map]
    | some o =>
      obtain rfl := Env.jumpTable_eq hjt
      have hvalid : fr.stack.validate (operationWith marks op).pop (operationWith marks op).push =
          fr.stack.validate (operation op).pop (operation op).push := rfl
      have hallowed : enforceRestrictions env evm op (operationWith marks op) fr.stack =
          enforceRestrictions env evm op (operation op) fr.stack := rfl
      have hsize : memorySizeFor (operationWith marks op) fr.stack =
          memorySizeFor (operation op) fr.stack := rfl
      simp only [Option.bind_some, Env.tableWith, hjt, Option.map_some, hvalid, hallowed, hsize]
      cases fr.stack.validate (operation op).pop (operation op).push with
      | some e => rfl
      | none =>
        cases enforceRestrictions env evm op (operation op) fr.stack with
        | some e => rfl
        | none =>
          obtain _ | _ | n := memorySizeFor (operation op) fr.stack <;> rfl

end MiniEvm
