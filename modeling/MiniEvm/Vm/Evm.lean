import MiniEvm.Rlp.Encode
import MiniEvm.Vm.Contracts

namespace MiniEvm

open Math Framework

/-- `crypto.CreateAddress`: the last twenty bytes of the hash. The error of the encoder is dropped, and
there would be nothing to hash. -/
def createAddress (crypto : Crypto) (b : Address) (nonce : UInt64) : Address :=
  let data := Rlp.encodeToBytes (.list [.bytes (Address.bytes b), .uint nonce])
  BitVec.ofNat 160 (crypto.keccak256 (data.toOption.getD [])).toNat

/-- `run`: a precompiled contract at the code address, else the interpreter. -/
def runContract (env : Env) (run : RunFn) (evm : Evm) (contract : Contract) (input : Bytes) :
    Outcome Evm RunResult :=
  let evm := evm.emit (.enter evm.depth contract input)
  match contract.codeAddr.bind env.precompiles with
  | some p =>
    Outcome.ofOption evm ((runPrecompiledContract env.crypto p input contract).map
      fun (ret, err, contract) => ⟨ret, err, evm, contract⟩)
  | none => run evm contract input

/-- What the four call functions return. `jumpdests` is the state of the map that the callee
shares with a calling contract: the caller continues with it. -/
structure CallResult where
  ret : Bytes
  leftOverGas : UInt64
  err : Option VmError
  evm : Evm
  jumpdests : Destinations

/-- `contract.UseGas(contract.Gas)`. -/
def Contract.useAllGas (c : Contract) : Contract := (c.useGas c.gas).getD c

/-- The common end of the call functions: a failed run is reverted, and any error but a revert
consumes the gas that is left. -/
def settle (snapshot : Int) (r : RunResult) : CallResult :=
  match r.err with
  | none => ⟨r.ret, r.contract.gas, none, r.evm, r.contract.jumpdests⟩
  | some e =>
    let evm := { r.evm with stateDB := r.evm.stateDB.revertToSnapshot snapshot }
    let contract := if e = .executionReverted then r.contract else r.contract.useAllGas
    ⟨r.ret, contract.gas, some e, evm, contract.jumpdests⟩

namespace Evm

def call (env : Env) (run : RunFn) (evm : Evm) (caller : ContractRef) (addr : Address)
    (input : Bytes) (gas : UInt64) (value : Int) : Outcome Evm CallResult :=
  if env.noRecursion ∧ evm.depth > 0 then .ok ⟨[], gas, none, evm, caller.jumpdests⟩
  else if evm.depth > callCreateDepth then .ok ⟨[], gas, some .depth, evm, caller.jumpdests⟩
  else
    let (can, db) := canTransfer evm.stateDB caller.address value
    let evm := { evm with stateDB := db }
    if !can then .ok ⟨[], gas, some .insufficientBalance, evm, caller.jumpdests⟩
    else
      let snapshot := evm.stateDB.snapshot
      if !evm.stateDB.exist addr ∧ env.precompiles addr = none ∧ env.isEIP158 ∧ value = 0 then
        .ok ⟨[], gas, none, evm, caller.jumpdests⟩
      else
        let db := if evm.stateDB.exist addr then evm.stateDB else evm.stateDB.createAccount addr
        let db := transfer db caller.address addr value
        let evm := { evm with stateDB := db }
        let contract := (Contract.new caller addr value gas).setCallCode addr
          (db.getCodeHash addr) (db.getCode addr)
        (runContract env run evm contract input).bind fun r => .ok (settle snapshot r)

def callCode (env : Env) (run : RunFn) (evm : Evm) (caller : ContractRef) (addr : Address)
    (input : Bytes) (gas : UInt64) (value : Int) : Outcome Evm CallResult :=
  if env.noRecursion ∧ evm.depth > 0 then .ok ⟨[], gas, none, evm, caller.jumpdests⟩
  else if evm.depth > callCreateDepth then .ok ⟨[], gas, some .depth, evm, caller.jumpdests⟩
  else
    let (can, db) := canTransfer evm.stateDB caller.address value
    let evm := { evm with stateDB := db }
    if !can then .ok ⟨[], gas, some .insufficientBalance, evm, caller.jumpdests⟩
    else
      let snapshot := evm.stateDB.snapshot
      let contract := (Contract.new caller caller.address value gas).setCallCode addr
        (evm.stateDB.getCodeHash addr) (evm.stateDB.getCode addr)
      (runContract env run evm contract input).bind fun r => .ok (settle snapshot r)

/-- The `nil` value of the new contract is replaced by the parent's before anything reads it. -/
def delegateCall (env : Env) (run : RunFn) (evm : Evm) (caller : ContractRef) (addr : Address)
    (input : Bytes) (gas : UInt64) : Outcome Evm CallResult :=
  if env.noRecursion ∧ evm.depth > 0 then .ok ⟨[], gas, none, evm, caller.jumpdests⟩
  else if evm.depth > callCreateDepth then .ok ⟨[], gas, some .depth, evm, caller.jumpdests⟩
  else
    let snapshot := evm.stateDB.snapshot
    (Outcome.ofOption evm ((Contract.new caller caller.address 0 gas).asDelegate caller)).bind
      fun contract =>
        let contract := contract.setCallCode addr (evm.stateDB.getCodeHash addr)
          (evm.stateDB.getCode addr)
        (runContract env run evm contract input).bind fun r => .ok (settle snapshot r)

/-- Only the outermost static call sets the flag, and it clears it on every way out. -/
def staticCall (env : Env) (run : RunFn) (evm : Evm) (caller : ContractRef) (addr : Address)
    (input : Bytes) (gas : UInt64) : Outcome Evm CallResult :=
  if env.noRecursion ∧ evm.depth > 0 then .ok ⟨[], gas, none, evm, caller.jumpdests⟩
  else if evm.depth > callCreateDepth then .ok ⟨[], gas, some .depth, evm, caller.jumpdests⟩
  else
    let outermost := !evm.readOnly
    let evm := if outermost then { evm with readOnly := true } else evm
    let snapshot := evm.stateDB.snapshot
    let contract := (Contract.new caller addr 0 gas).setCallCode addr
      (evm.stateDB.getCodeHash addr) (evm.stateDB.getCode addr)
    (runContract env run evm contract input).bind fun r =>
      let res := settle snapshot r
      .ok (if outermost then { res with evm := { res.evm with readOnly := false } } else res)

end Evm

structure CreateResult extends CallResult where
  contractAddr : Address

/-- The end of `Create`: pay for the code and store it, then settle errors. -/
def settleCreate (env : Env) (snapshot : Int) (contractAddr : Address) (r : RunResult) :
    CreateResult :=
  let maxCodeSizeExceeded : Bool := env.isEIP158 ∧ r.ret.length > maxCodeSize
  let (err, db, contract) :=
    if r.err = none ∧ !maxCodeSizeExceeded then
      match r.contract.useGas (UInt64.ofNat r.ret.length * createDataGas) with
      | some contract => (none, r.evm.stateDB.setCode contractAddr r.ret, contract)
      | none => (some .codeStoreOutOfGas, r.evm.stateDB, r.contract)
    else (r.err, r.evm.stateDB, r.contract)
  let fails : Bool := maxCodeSizeExceeded ∨
    (err ≠ none ∧ (env.isHomestead ∨ err ≠ some .codeStoreOutOfGas))
  let db := if fails then db.revertToSnapshot snapshot else db
  let contract := if fails ∧ err ≠ some .executionReverted then contract.useAllGas else contract
  let err := if maxCodeSizeExceeded ∧ err = none then some .maxCodeSizeExceeded else err
  ⟨⟨r.ret, contract.gas, err, { r.evm with stateDB := db }, contract.jumpdests⟩, contractAddr⟩

/-- `SetNonce(a, GetNonce(a) + 1)`. -/
def StateDB.raiseNonce (db : StateDB) (a : Address) : StateDB := db.setNonce a (db.getNonce a + 1)

/-- Whether the address of a new contract is taken. -/
def collides (env : Env) (db : StateDB) (contractAddr : Address) : Bool :=
  db.getNonce contractAddr ≠ 0 ||
    (db.getCodeHash contractAddr ≠ 0 && db.getCodeHash contractAddr ≠ env.crypto.keccak256 [])

/-- The account of a new contract: reset, given its first nonce and the value. -/
def newAccount (env : Env) (db : StateDB) (creator contractAddr : Address) (value : Int) :
    StateDB :=
  let db := db.createAccount contractAddr
  let db := if env.isEIP158 then db.setNonce contractAddr 1 else db
  transfer db creator contractAddr value

/-- The nonce is raised and the account reset before `NoRecursion` is looked at. -/
def Evm.create (env : Env) (run : RunFn) (evm : Evm) (caller : ContractRef) (code : Bytes)
    (gas : UInt64) (value : Int) : Outcome Evm CreateResult :=
  if evm.depth > callCreateDepth then
    .ok ⟨⟨[], gas, some .depth, evm, caller.jumpdests⟩, 0⟩
  else
    let (can, db) := canTransfer evm.stateDB caller.address value
    if !can then
      .ok ⟨⟨[], gas, some .insufficientBalance, { evm with stateDB := db }, caller.jumpdests⟩, 0⟩
    else
      let contractAddr := createAddress env.crypto caller.address (db.getNonce caller.address)
      let db := db.raiseNonce caller.address
      if collides env db contractAddr then
        .ok ⟨⟨[], 0, some .contractAddressCollision, { evm with stateDB := db },
          caller.jumpdests⟩, 0⟩
      else
        let snapshot := db.snapshot
        let evm := { evm with stateDB := newAccount env db caller.address contractAddr value }
        let contract := (Contract.new caller contractAddr value gas).setCallCode contractAddr
          (env.crypto.keccak256 code) code
        if env.noRecursion ∧ evm.depth > 0 then
          .ok ⟨⟨[], gas, none, evm, caller.jumpdests⟩, contractAddr⟩
        else
          (runContract env run evm contract []).bind fun r =>
            .ok (settleCreate env snapshot contractAddr r)

/-- A call of one of the five entry points, without the gas. -/
inductive Entry where
  | call (addr : Address) (input : Bytes) (value : Int)
  | callCode (addr : Address) (input : Bytes) (value : Int)
  | delegateCall (addr : Address) (input : Bytes)
  | staticCall (addr : Address) (input : Bytes)
  | create (code : Bytes) (value : Int)

/-- The five entry points as one; only `Create` reports the address of a contract. -/
def Entry.invoke (env : Env) (run : RunFn) (evm : Evm) (caller : ContractRef) (gas : UInt64) :
    Entry → Outcome Evm CreateResult
  | call addr input value => (evm.call env run caller addr input gas value).bind fun r => .ok ⟨r, 0⟩
  | callCode addr input value =>
    (evm.callCode env run caller addr input gas value).bind fun r => .ok ⟨r, 0⟩
  | delegateCall addr input =>
    (evm.delegateCall env run caller addr input gas).bind fun r => .ok ⟨r, 0⟩
  | staticCall addr input => (evm.staticCall env run caller addr input gas).bind fun r => .ok ⟨r, 0⟩
  | create code value => evm.create env run caller code gas value

end MiniEvm
