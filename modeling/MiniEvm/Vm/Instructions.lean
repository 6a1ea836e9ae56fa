import MiniEvm.Vm.Evm
import MiniEvm.Vm.GasTable

namespace MiniEvm

open Math Framework

/-- What an execution function returns, with the machine and the frame it leaves. -/
structure ExecResult where
  ret : Bytes
  err : Option VmError
  evm : Evm
  frame : Frame

/-- An `executionFunc`; the interpreter is passed for the instructions that enter a frame. -/
abbrev ExecFn := Env → RunFn → Evm → Frame → Outcome Evm ExecResult

/-- An instruction that enters no frame; absent results are run-time panics. -/
abbrev SimpleFn := Env → Evm → Frame → Option ExecResult

def simple (f : SimpleFn) : ExecFn := fun env _ evm fr => Outcome.ofOption evm (f env evm fr)

def Frame.withStack (fr : Frame) (st : Stack) : Frame := { fr with stack := st }

/-- No data, no error, and only the stack changed. -/
def stackResult (evm : Evm) (fr : Frame) (st : Stack) : ExecResult := ⟨[], none, evm, fr.withStack st⟩

/-- Pushes a value that depends on the machine and the frame. -/
def pushOp (f : Env → Evm → Frame → Int) : SimpleFn := fun env evm fr =>
  some (stackResult evm fr (f env evm fr :: fr.stack))

/-- Replaces the top item. -/
def unaryOp (f : Env → Evm → Frame → Int → Int) : SimpleFn := fun env evm fr =>
  match fr.stack with
  | x :: st => some (stackResult evm fr (f env evm fr x :: st))
  | _ => none

/-- Replaces the top item by a word read from a byte slice. -/
def readOp (f : Frame → Int → Option Bytes) : SimpleFn := fun _ evm fr =>
  match fr.stack with
  | x :: st => (f fr x).map fun b => stackResult evm fr ((ofBytes b : Int) :: st)
  | _ => none

/-- Replaces the two top items. -/
def binaryOp (f : Int → Int → Int) : SimpleFn := fun _ evm fr =>
  match fr.stack with
  | x :: y :: st => some (stackResult evm fr (f x y :: st))
  | _ => none

/-- Replaces the three top items. -/
def ternaryOp (f : Int → Int → Int → Int) : SimpleFn := fun _ evm fr =>
  match fr.stack with
  | x :: y :: z :: st => some (stackResult evm fr (f x y z :: st))
  | _ => none

def keyAdd : String := "Nyanpass. Overflow detected: Add"
def keySub : String := "Nyanpass. Overflow detected: Sub"
def keyMul : String := "Nyanpass. Overflow detected: Mul"
def keyDiv : String := "Nyanpass. Overflow detected: Div"

/-- The storage slots that the overflow check writes. -/
def markerSlots : List Hash := [keyAdd, keySub, keyMul, keyDiv].map stringToHash

/-- Stores the program counter under `key` when truncation changed the result. -/
def markOverflow (key : String) (result : Int) (evm : Evm) (fr : Frame) : Evm :=
  if result ≠ u256 result then
    { evm with
      stateDB := evm.stateDB.setState fr.contract.self (stringToHash key) (bigToHash (int64 fr.pc)) }
  else evm

/-- `opAdd`, `opSub` and `opMul` up to the operation and the key. -/
def arithOp (key : String) (f : Int → Int → Int) : SimpleFn := fun _ evm fr =>
  match fr.stack with
  | x :: y :: st =>
    some (stackResult (markOverflow key (f x y) evm fr) fr (u256 (f x y) :: st))
  | _ => none

def opAdd : SimpleFn := arithOp keyAdd (· + ·)
def opSub : SimpleFn := arithOp keySub (· - ·)
def opMul : SimpleFn := arithOp keyMul (· * ·)

/-- Division by zero gives zero and marks nothing. -/
def opDiv : SimpleFn := fun _ evm fr =>
  match fr.stack with
  | x :: y :: st =>
    if y ≠ 0 then
      some (stackResult (markOverflow keyDiv (x / y) evm fr) fr (u256 (x / y) :: st))
    else some (stackResult evm fr (0 :: st))
  | _ => none

def opSdiv : SimpleFn := binaryOp fun x y =>
  let (x, y) := (s256 x, s256 y)
  if y = 0 then 0
  else u256 ((x.natAbs / y.natAbs : Nat) * (if x * y < 0 then -1 else 1))

def opMod : SimpleFn := binaryOp fun x y => if y = 0 then 0 else u256 (x % y)

def opSmod : SimpleFn := binaryOp fun x y =>
  let (x, y) := (s256 x, s256 y)
  if y = 0 then 0
  else u256 ((x.natAbs % y.natAbs : Nat) * (if x < 0 then -1 else 1))

def opExp : SimpleFn := binaryOp fun base exponent => (bigExp base exponent).1

/-- Pops the number only when the byte index is below 31. -/
def opSignExtend : SimpleFn := fun _ evm fr =>
  match fr.stack with
  | back :: st =>
    if back < 31 then
      match st with
      | num :: st =>
        let bit := (uint64 back * 8 + 7).toNat
        let mask : Int := 2^bit - 1
        let ext := if num.testBit bit then num.lor (-mask - 1) else num.land mask
        -- `num.Bit(int(bit))` rejects a negative index
        if bit < 2^63 then some (stackResult evm fr (u256 ext :: st)) else none
      | _ => none
    else some (stackResult evm fr st)
  | _ => none

def opNot : SimpleFn := unaryOp fun _ _ _ x => u256 (-x - 1)
def opLt : SimpleFn := binaryOp fun x y => if x < y then 1 else 0
def opGt : SimpleFn := binaryOp fun x y => if x > y then 1 else 0
def opSlt : SimpleFn := binaryOp fun x y => if s256 x < s256 (s256 y) then 1 else 0
def opSgt : SimpleFn := binaryOp fun x y => if s256 x > s256 y then 1 else 0
def opEq : SimpleFn := binaryOp fun x y => if x = y then 1 else 0
def opIszero : SimpleFn := unaryOp fun _ _ _ x => if x > 0 then 0 else 1
def opAnd : SimpleFn := binaryOp Int.land
def opOr : SimpleFn := binaryOp Int.lor
def opXor : SimpleFn := binaryOp Int.xor

def opByte : SimpleFn := binaryOp fun th val =>
  if th < 32 then (bigByte val 32 (int64 th)).toNat else 0

def opAddmod : SimpleFn := ternaryOp fun x y z => if z > 0 then u256 ((x + y) % z) else 0
def opMulmod : SimpleFn := ternaryOp fun x y z => if z > 0 then u256 (x * y % z) else 0

def opSha3 : SimpleFn := fun env evm fr =>
  match fr.stack with
  | offset :: size :: st =>
    (fr.mem.get (int64 offset) (int64 size)).map fun data =>
      stackResult evm fr (Hash.big (env.crypto.keccak256 data) :: st)
  | _ => none

def opAddress : SimpleFn := pushOp fun _ _ fr => Address.big fr.contract.self

def opBalance : SimpleFn := fun _ evm fr =>
  match fr.stack with
  | x :: st =>
    let (balance, db) := evm.stateDB.getBalance (bigToAddress x)
    some (stackResult { evm with stateDB := db } fr (balance :: st))
  | _ => none

def opOrigin : SimpleFn := pushOp fun env _ _ => Address.big env.origin
def opCaller : SimpleFn := pushOp fun _ _ fr => Address.big fr.contract.callerAddress
def opCallValue : SimpleFn := pushOp fun _ _ fr => fr.contract.value

/-- `x.Uint64()` as a slice bound; a non-negative `x` is at most a length here and not cut. -/
def sliceBound (x : Int) : Nat := if x < 0 then (uint64 x).toNat else x.toNat

/-- The bytes `[start, start+size)` of `data`, zero-padded; absent on bad bounds. -/
def getDataBig (data : Bytes) (start size : Int) : Option Bytes :=
  let s := min start data.length
  let e := min (s + size) data.length
  (slice data (sliceBound s) (sliceBound e)).map fun b =>
    rightPad b (if (uint64 size).toNat < 2^63 then (uint64 size).toNat else 0)

def opCallDataLoad : SimpleFn := readOp fun fr x => getDataBig fr.contract.input x 32

def opCallDataSize : SimpleFn := pushOp fun _ _ fr => fr.contract.input.length

/-- Copies `length` bytes of `data` from `dataOffset` to `memOffset`, padded with zeros. -/
def copyToMemory (data : Bytes) (evm : Evm) (fr : Frame) (memOffset dataOffset length : Int)
    (st : Stack) : Option ExecResult :=
  (getDataBig data dataOffset length).bind fun b =>
    (fr.mem.set (uint64 memOffset) (uint64 length) b).map fun mem =>
      ⟨[], none, evm, { fr with stack := st, mem := mem }⟩

/-- `opCallDataCopy` and `opCodeCopy` up to the bytes they copy. -/
def copyOp (data : Frame → Bytes) : SimpleFn := fun _ evm fr =>
  match fr.stack with
  | memOffset :: dataOffset :: length :: st =>
    copyToMemory (data fr) evm fr memOffset dataOffset length st
  | _ => none

def opCallDataCopy : SimpleFn := copyOp fun fr => fr.contract.input

def opReturnDataSize : SimpleFn := pushOp fun _ evm _ => evm.returnData.length

/-- Unlike the other copies, reading past the end is an error. -/
def opReturnDataCopy : SimpleFn := fun _ evm fr =>
  match fr.stack with
  | memOffset :: dataOffset :: length :: st =>
    let last := dataOffset + length
    if bitLen last > 64 ∨ evm.returnData.length < (uint64 last).toNat then
      some ⟨[], some .returnDataOutOfBounds, evm, fr.withStack st⟩
    else
      (slice evm.returnData (uint64 dataOffset).toNat (uint64 last).toNat).bind fun b =>
        (fr.mem.set (uint64 memOffset) (uint64 length) b).map fun mem =>
          ⟨[], none, evm, { fr with stack := st, mem := mem }⟩
  | _ => none

def opExtCodeSize : SimpleFn := unaryOp fun _ evm _ a => evm.stateDB.getCodeSize (bigToAddress a)

def opCodeSize : SimpleFn := pushOp fun _ _ fr => fr.contract.code.length

def opCodeCopy : SimpleFn := copyOp fun fr => fr.contract.code

def opExtCodeCopy : SimpleFn := fun _ evm fr =>
  match fr.stack with
  | addr :: memOffset :: codeOffset :: length :: st =>
    copyToMemory (evm.stateDB.getCode (bigToAddress addr)) evm fr memOffset codeOffset length st
  | _ => none

def opGasprice : SimpleFn := pushOp fun env _ _ => env.gasPrice

def opBlockhash : SimpleFn := unaryOp fun env _ _ num =>
  if num > env.blockNumber - 257 ∧ num < env.blockNumber then Hash.big (env.getHash (uint64 num))
  else 0

def opCoinbase : SimpleFn := pushOp fun env _ _ => Address.big env.coinbase
def opTimestamp : SimpleFn := pushOp fun env _ _ => u256 env.time
def opNumber : SimpleFn := pushOp fun env _ _ => u256 env.blockNumber
def opDifficulty : SimpleFn := pushOp fun env _ _ => u256 env.difficulty
def opGasLimit : SimpleFn := pushOp fun env _ _ => u256 env.gasLimit.toNat

def opPop : SimpleFn := fun _ evm fr =>
  match fr.stack with
  | _ :: st => some (stackResult evm fr st)
  | _ => none

def opMload : SimpleFn := readOp fun fr offset => fr.mem.get (int64 offset) 32

def opMstore : SimpleFn := fun _ evm fr =>
  match fr.stack with
  | mStart :: val :: st =>
    (fr.mem.set (uint64 mStart) 32 (paddedBigBytes val 32)).map fun mem =>
      ⟨[], none, evm, { fr with stack := st, mem := mem }⟩
  | _ => none

/-- Writes the store directly, without `Memory.Set`. -/
def opMstore8 : SimpleFn := fun _ evm fr =>
  match fr.stack with
  | off :: val :: st =>
    if 0 ≤ int64 off ∧ int64 off < fr.mem.len then
      let store := fr.mem.store.set (int64 off).toNat (UInt8.ofNat (int64 val % 256).toNat)
      some ⟨[], none, evm, { fr with stack := st, mem := { fr.mem with store := store } }⟩
    else none
  | _ => none

def opSload : SimpleFn := fun _ evm fr =>
  match fr.stack with
  | x :: st =>
    let loc := bigToHash x
    let (val, db) := evm.stateDB.getState fr.contract.self loc
    some (stackResult (({ evm with stateDB := db } : Evm).emit (.callback .SLOAD loc (Hash.big val)))
      fr (Hash.big val :: st))
  | _ => none

def opSstore : SimpleFn := fun _ evm fr =>
  match fr.stack with
  | x :: val :: st =>
    let loc := bigToHash x
    let db := evm.stateDB.setState fr.contract.self loc (bigToHash val)
    some (stackResult (({ evm with stateDB := db } : Evm).emit (.callback .SSTORE loc val)) fr st)
  | _ => none

/-- Looks the destination up under the contract's own `CodeHash`, filling the shared map. -/
def jumpTo (evm : Evm) (fr : Frame) (pos : Int) (st : Stack) : Option ExecResult :=
  (fr.contract.jumpdests.has fr.contract.codeHash fr.contract.code pos).map fun (ok, d) =>
    let fr : Frame := { fr with stack := st, contract := { fr.contract with jumpdests := d } }
    if ok then ⟨[], none, evm, { fr with pc := (uint64 pos).toNat }⟩
    else ⟨[], some (.invalidJump (fr.contract.getByte (uint64 pos).toNat) pos), evm, fr⟩

def opJump : SimpleFn := fun _ evm fr =>
  match fr.stack with
  | pos :: st => jumpTo evm fr pos st
  | _ => none

def opJumpi : SimpleFn := fun _ evm fr =>
  match fr.stack with
  | pos :: cond :: st =>
    if cond ≠ 0 then jumpTo evm fr pos st
    else some ⟨[], none, evm, { fr with stack := st, pc := fr.pc + 1 }⟩
  | _ => none

def opJumpdest : SimpleFn := fun _ evm fr => some ⟨[], none, evm, fr⟩

def opPc : SimpleFn := pushOp fun _ _ fr => fr.pc
def opMsize : SimpleFn := pushOp fun _ _ fr => fr.mem.len
def opGas : SimpleFn := pushOp fun _ _ fr => fr.contract.gas.toNat

/-- The gas that `CREATE` hands over, and the contract that keeps the rest. -/
def endow (env : Env) (c : Contract) : UInt64 × Contract :=
  let gas := if env.isEIP150 then c.gas - c.gas / 64 else c.gas
  (gas, (c.useGas gas).getD c)

/-- The end of `CREATE`: the address or zero, and the gas back. -/
def finishCreate (env : Env) (fr : Frame) (contract : Contract) (st : Stack) (r : CreateResult) :
    ExecResult :=
  let pushed :=
    if env.isHomestead ∧ r.err = some .codeStoreOutOfGas then 0
    else if r.err ≠ none ∧ r.err ≠ some .codeStoreOutOfGas then 0
    else Address.big r.contractAddr
  let contract := { contract with gas := contract.gas + r.leftOverGas, jumpdests := r.jumpdests }
  ⟨if r.err = some .executionReverted then r.ret else [], none, r.evm,
    { fr with stack := pushed :: st, contract := contract }⟩

def opCreate : ExecFn := fun env run evm fr =>
  match fr.stack with
  | value :: offset :: size :: st =>
    (Outcome.ofOption evm (fr.mem.get (int64 offset) (int64 size))).bind fun input =>
      let (gas, contract) := endow env fr.contract
      (evm.create env run (.contract contract) input gas value).bind fun r =>
        .ok (finishCreate env fr contract st r)
  | _ => .panic evm

/-- The common end of the call instructions: the status word, the output and the gas back. -/
def finishCall (fr : Frame) (st : Stack) (retOffset retSize : Int) (r : CallResult) :
    Outcome Evm ExecResult :=
  let mem :=
    if r.err = none ∨ r.err = some .executionReverted then
      fr.mem.set (uint64 retOffset) (uint64 retSize) r.ret
    else some fr.mem
  (Outcome.ofOption r.evm mem).bind fun mem =>
    let contract := { fr.contract with
      gas := fr.contract.gas + r.leftOverGas, jumpdests := r.jumpdests }
    .ok ⟨r.ret, none, r.evm, { fr with
      stack := (if r.err = none then 1 else 0) :: st, mem := mem, contract := contract }⟩

/-- The gas for the callee: `callGasTemp` and, with a value, the stipend. -/
def calleeGas (evm : Evm) (value : Int) : UInt64 :=
  if value ≠ 0 then evm.callGasTemp + callStipend else evm.callGasTemp

def opCall : ExecFn := fun env run evm fr =>
  match fr.stack with
  | _ :: addr :: value :: inOffset :: inSize :: retOffset :: retSize :: st =>
    (Outcome.ofOption evm (fr.mem.get (int64 inOffset) (int64 inSize))).bind fun args =>
      (evm.call env run (.contract fr.contract) (bigToAddress addr) args
        (calleeGas evm (u256 value)) (u256 value)).bind (finishCall fr st retOffset retSize)
  | _ => .panic evm

def opCallCode : ExecFn := fun env run evm fr =>
  match fr.stack with
  | _ :: addr :: value :: inOffset :: inSize :: retOffset :: retSize :: st =>
    (Outcome.ofOption evm (fr.mem.get (int64 inOffset) (int64 inSize))).bind fun args =>
      (evm.callCode env run (.contract fr.contract) (bigToAddress addr) args
        (calleeGas evm (u256 value)) (u256 value)).bind (finishCall fr st retOffset retSize)
  | _ => .panic evm

def opDelegateCall : ExecFn := fun env run evm fr =>
  match fr.stack with
  | _ :: addr :: inOffset :: inSize :: retOffset :: retSize :: st =>
    (Outcome.ofOption evm (fr.mem.get (int64 inOffset) (int64 inSize))).bind fun args =>
      (evm.delegateCall env run (.contract fr.contract) (bigToAddress addr) args
        evm.callGasTemp).bind (finishCall fr st retOffset retSize)
  | _ => .panic evm

def opStaticCall : ExecFn := fun env run evm fr =>
  match fr.stack with
  | _ :: addr :: inOffset :: inSize :: retOffset :: retSize :: st =>
    (Outcome.ofOption evm (fr.mem.get (int64 inOffset) (int64 inSize))).bind fun args =>
      (evm.staticCall env run (.contract fr.contract) (bigToAddress addr) args
        evm.callGasTemp).bind (finishCall fr st retOffset retSize)
  | _ => .panic evm

/-- `opReturn` and `opRevert`; they differ in the flags of the jump table. -/
def opReturn : SimpleFn := fun _ evm fr =>
  match fr.stack with
  | offset :: size :: st =>
    (fr.mem.get (int64 offset) (int64 size)).map fun ret => ⟨ret, none, evm, fr.withStack st⟩
  | _ => none

def opRevert : SimpleFn := opReturn

def opStop : SimpleFn := fun _ evm fr => some ⟨[], none, evm, fr⟩

/-- The balance is credited to the beneficiary and stays where it was. -/
def opSuicide : SimpleFn := fun _ evm fr =>
  match fr.stack with
  | x :: st =>
    let (balance, db) := evm.stateDB.getBalance fr.contract.self
    let db := (db.addBalance (bigToAddress x) balance).suicide fr.contract.self
    some (stackResult { evm with stateDB := db } fr st)
  | _ => none

def makeLog (size : Nat) : SimpleFn := fun env evm fr =>
  match fr.stack with
  | mStart :: mSize :: st =>
    if size ≤ st.length then
      (fr.mem.get (int64 mStart) (int64 mSize)).map fun d =>
        let log : Log := ⟨fr.contract.self, (st.take size).map bigToHash, d, uint64 env.blockNumber⟩
        stackResult { evm with stateDB := evm.stateDB.addLog log } fr (st.drop size)
    else none
  | _ => none

/-- A push that runs past the end of the code is padded with zeros. -/
def makePush (size : Nat) : SimpleFn := fun _ evm fr =>
  let startMin := min fr.contract.code.length (fr.pc + 1)
  let endMin := min fr.contract.code.length (startMin + size)
  (slice fr.contract.code startMin endMin).map fun b =>
    ⟨[], none, evm, { fr with
      stack := (ofBytes (rightPad b size) : Int) :: fr.stack, pc := fr.pc + size }⟩

def makeDup (size : Nat) : SimpleFn := fun _ evm fr =>
  (fr.stack.back (size - 1)).map fun x => stackResult evm fr (x :: fr.stack)

def makeSwap (size : Nat) : SimpleFn := fun _ evm fr =>
  match fr.stack with
  | top :: st => st[size - 1]?.map fun x => stackResult evm fr (x :: st.set (size - 1) top)
  | _ => none

end MiniEvm
