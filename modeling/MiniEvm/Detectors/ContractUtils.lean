import MiniEvm.Vm.Interpreter

namespace MiniEvm

open Math Framework

def contractcreator : String := "One key to rule them all"

/-- The context and configuration of `DeployContracts`; `now` is the time of the start. -/
def deployEnv (crypto : Crypto) (now : Int) : Env where
  crypto := crypto
  getHash n := bigToHash (int64 n.toNat)
  origin := 0
  gasPrice := 100
  coinbase := 0
  gasLimit := 0
  blockNumber := 4370001
  time := now
  difficulty := 100
  chainConfig := mainnetChainConfig
  noRecursion := true
  disableGasMetering := false

/-- The context of `OverFlowDetector.Init`, where contracts may call each other. -/
def overFlowDetectorEnv (crypto : Crypto) (now : Int) : Env :=
  { deployEnv crypto now with noRecursion := false }

/-- The first with a stand-in for the hash functions, for concrete runs. -/
def sampleEnv : Env := deployEnv .zero 0

/-- The second with the stand-in. -/
def recursiveEnv : Env := overFlowDetectorEnv .zero 0

/-- The gas that every call of the detectors is given. -/
def detectorGas : UInt64 := 100000000000

/-- `evm.Call` on a machine with the default jump table of its fork. -/
def Evm.runCall (env : Env) (fuel : Nat) (evm : Evm) (caller : ContractRef) (addr : Address)
    (input : Bytes) (gas : UInt64) (value : Int) : Outcome Evm CallResult :=
  evm.call env (interpreterRun env env.jumpTable fuel) caller addr input gas value

/-- `SimpleContract.Call`. -/
def simpleContractCall (env : Env) (fuel : Nat) (evm : Evm) (address caller : Address)
    (calldata : Bytes) : Outcome Evm CallResult :=
  evm.runCall env fuel (.account caller) address calldata detectorGas 0

/-- A `StateDB` as the Go program holds it: a reference to a map, and a slice. -/
structure StateHandle where
  stateMap : Nat
  logs : List Log

/-- `copier.Copy` between two `StateDB`, a function of another project. It is assumed to assign the
fields, the map as a reference. -/
structure Copier where
  copy : StateHandle → StateHandle → StateHandle
  assigns : ∀ dst src, copy dst src = src

/-- The fields of `ContractUtils` that are used after deployment, with the function that copies
states. The maps live on a heap; the `stateDB` inside `evm` is loaded from there before every use. -/
structure ContractUtils where
  copier : Copier
  contractCreater : Address
  mainAddress : Address
  heap : List (Address → Option State)
  state : StateHandle
  stateBackup : Option StateHandle
  evm : Evm

namespace ContractUtils

/-- What `cu.state` points to, and so also `cu.evm.StateDB`. -/
def db (cu : ContractUtils) : StateDB where
  stateMap := cu.heap.getD cu.state.stateMap fun _ => none
  logs := cu.state.logs
  history := cu.evm.stateDB.history

def loaded (cu : ContractUtils) : Evm := { cu.evm with stateDB := cu.db }

/-- Writes back what an operation on the shared `StateDB` and the machine left. -/
def store (cu : ContractUtils) (evm : Evm) : ContractUtils :=
  { cu with
    heap := cu.heap.set cu.state.stateMap evm.stateDB.stateMap
    state := { cu.state with logs := evm.stateDB.logs }
    evm := evm }

/-- `state.New()` followed by the copy. -/
def backupStates (cu : ContractUtils) : ContractUtils :=
  let new : StateHandle := ⟨cu.heap.length, []⟩
  { cu with heap := cu.heap ++ [fun _ => none], stateBackup := some (cu.copier.copy new cu.state) }

/-- Only called after `backupStates`. -/
def restoreStates (cu : ContractUtils) : ContractUtils :=
  match cu.stateBackup with
  | some backup => { cu with state := cu.copier.copy cu.state backup }
  | none => cu

def setStorage (cu : ContractUtils) (loc : Hash) (value : Int) : ContractUtils :=
  let evm := cu.loaded
  cu.store { evm with stateDB :=
    evm.stateDB.setState cu.mainAddress loc (bytesToHash (paddedBigBytes (u256 value) 32)) }

def getStorage (cu : ContractUtils) (loc : Hash) : Hash × ContractUtils :=
  let evm := cu.loaded
  let (val, db) := evm.stateDB.getState cu.mainAddress loc
  (val, cu.store { evm with stateDB := db })

/-- `cu.evm.Call` with the result and the utilities it leaves. -/
def call (cu : ContractUtils) (env : Env) (fuel : Nat) (caller addr : Address) (calldata : Bytes)
    (gas : UInt64) (value : Int) : Outcome Evm (CallResult × ContractUtils) :=
  (cu.loaded.runCall env fuel (.account caller) addr calldata gas value).bind fun r =>
    .ok (r, cu.store r.evm)

/-- `cu.evm.Create`. -/
def create (cu : ContractUtils) (env : Env) (fuel : Nat) (caller : Address) (code : Bytes)
    (gas : UInt64) (value : Int) : Outcome Evm (CreateResult × ContractUtils) :=
  (cu.loaded.create env (interpreterRun env env.jumpTable fuel) (.account caller) code gas
    value).bind fun r => .ok (r, cu.store r.evm)

/-- The utilities of a contract deployed at `0x100`, for concrete runs. -/
def deployed (code : Bytes) : ContractUtils where
  copier := ⟨fun _ src => src, fun _ _ => rfl⟩
  contractCreater := 7
  mainAddress := 0x100
  heap := [(StateDB.new.setCode 0x100 code).stateMap]
  state := ⟨0, []⟩
  stateBackup := none
  evm := Evm.new (StateDB.new.setCode 0x100 code)

end ContractUtils

end MiniEvm
