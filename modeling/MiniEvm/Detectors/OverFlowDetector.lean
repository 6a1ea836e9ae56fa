import MiniEvm.Detectors.ContractUtils
import MiniEvm.Detectors.Inputs
import MiniEvm.Framework.Loop

namespace MiniEvm

open Math Framework Abi

/-- The first topic of the log that reports an overflow. -/
def overflowTopic : Hash := 0xFEE46111846A282E8199035721DD0334C2BC5C016AE4E72B924003431D6A8759

/-- The scan of `state.Logs`; absent where `Topics[0]` is out of range. -/
def foundOverflow (logs : List Log) : Option Bool :=
  logs.foldlM (fun found log => log.topics.head?.map fun topic => found || topic == overflowTopic)
    false

/-- The fields of `OverFlowDetector` that a run reads or writes. -/
structure OverFlowDetector where
  owner : Address
  attacker : Address
  contractAddress : Address
  victims : List Address
  evm : Evm
  abi : ABI Argument
  executionresult : Option VmError
  detected : Bool
  attackvector : Option Bytes
  unpackedinput : Option (List Value)

namespace OverFlowDetector

/-- `InitExternalAccount`: the accounts with their first balances and nonces. -/
def initExternalAccount (attacker owner : Address) (victims : List Address) : StateDB :=
  let db := (StateDB.new.addBalance attacker 100).addBalance owner 100
  let db := (db.setNonce attacker 20).setNonce owner 20
  victims.foldl (fun db addr => db.addBalance addr 100) db

def init (abi : ABI Argument) : OverFlowDetector :=
  let attacker := bytesToAddress "Attacker".toByteArray.data.toList
  let owner := bytesToAddress "Owner".toByteArray.data.toList
  { owner := owner
    attacker := attacker
    contractAddress := 0
    victims := generateAddress
    evm := Evm.new (initExternalAccount attacker owner generateAddress)
    abi := abi
    executionresult := none
    detected := false
    attackvector := none
    unpackedinput := none }

variable (env : Env) (fuel : Nat)

def createContract (ofd : OverFlowDetector) (addr : Address) (code : Bytes) (value : Int) :
    Outcome Evm (Option VmError × OverFlowDetector) :=
  (ofd.evm.create env (interpreterRun env env.jumpTable fuel) (.account addr) code detectorGas
    value).bind fun r =>
      .ok (r.err, { ofd with
        evm := r.evm
        contractAddress := if r.err = none then r.contractAddr else ofd.contractAddress })

def functionCall (ofd : OverFlowDetector) (sender receiver : Address) (input : Bytes) (value : Int) :
    Outcome Evm (CallResult × OverFlowDetector) :=
  (ofd.evm.runCall env fuel (.account sender) receiver input detectorGas value).bind fun r =>
    .ok (r, { ofd with evm := r.evm, executionresult := r.err })

/-- Absent on an error; the arguments are not passed on. -/
def erc20GetAccountInfo (ofd : OverFlowDetector) (instruction : String) :
    Outcome Evm (Option Int × OverFlowDetector) :=
  match ofd.abi.pack env.crypto instruction [] with
  | .panic => .panic ofd.evm
  | .error _ => .ok (none, ofd)
  | .ok packed =>
    (ofd.functionCall env fuel ofd.owner ofd.contractAddress packed 0).bind fun (r, ofd) =>
      .ok (if r.err = none then some (ofBytes r.ret : Int) else none, ofd)

/-- Errors are ignored. -/
def erc20Transfer (caller receiver : Address) (amount : Int) (ofd : OverFlowDetector) :
    Outcome Evm OverFlowDetector :=
  match ofd.abi.pack env.crypto "transfer" [addressValue receiver, .num .ptr amount] with
  | .panic => .panic ofd.evm
  | .error _ => .ok ofd
  | .ok packed =>
    (ofd.functionCall env fuel caller ofd.contractAddress packed 0).bind fun (_, ofd) => .ok ofd

/-- `InitAttackerToken` and `InitVictimsToken`: a share of the supply for each receiver. -/
def initToken (receivers : List Address) (ofd : OverFlowDetector) : Outcome Evm OverFlowDetector :=
  (ofd.erc20GetAccountInfo env fuel "totalSupply").bind fun (totalSupply, ofd) =>
    match totalSupply with
    | none => .ok ofd
    | some totalSupply =>
      forEach (fun receiver => erc20Transfer env fuel ofd.owner receiver (totalSupply / 10000))
        receivers ofd

def initAttackerToken (ofd : OverFlowDetector) : Outcome Evm OverFlowDetector :=
  ofd.initToken env fuel [ofd.attacker]

def initVictimsToken (ofd : OverFlowDetector) : Outcome Evm OverFlowDetector :=
  ofd.initToken env fuel ofd.victims

/-- The body of the loop. When the tuple is stored, `Pack` has already reduced its integers in place;
earlier tuples may share them, which by `Abi.ABI.pack_reduced` makes no difference to the call data. -/
def tryProduct (function : String) (product : List Value) (ofd : OverFlowDetector) :
    Outcome Evm OverFlowDetector :=
  match ofd.abi.pack env.crypto function product with
  | .panic => .panic ofd.evm
  | .error _ => .ok ofd
  | .ok packed =>
    (ofd.functionCall env fuel ofd.attacker ofd.contractAddress packed 0).bind fun (r, ofd) =>
      if r.err = none then
        (Outcome.ofOption ofd.evm (foundOverflow ofd.evm.stateDB.logs)).bind fun found =>
          .ok (if found then
            { ofd with
              attackvector := some packed
              detected := true
              unpackedinput := some (product.map Value.reduced) }
          else ofd)
      else .ok ofd

/-- The method `OverFlowDetector`; `iter` is `cartesian.Iter`, which sends the tuples in some
order. -/
def overFlowDetector (iter : List (List Value) → List (List Value)) (ofd : OverFlowDetector)
    (code : Bytes) (function : String) (initAttacker initVictims : Bool) :
    Outcome Evm OverFlowDetector :=
  let ofd := { ofd with detected := false, attackvector := none, unpackedinput := none }
  (ofd.createContract env fuel ofd.owner code 0).bind fun (err, ofd) =>
    if err ≠ none then .ok { ofd with detected := false }
    else
      (if initAttacker then ofd.initAttackerToken env fuel else .ok ofd).bind fun ofd =>
        (if initVictims then ofd.initVictimsToken env fuel else .ok ofd).bind fun ofd =>
          match generateInputsByABI ofd.abi function with
          | none => .ok ofd
          | some d => forEach (tryProduct env fuel function) (iter d) ofd

end OverFlowDetector

end MiniEvm
