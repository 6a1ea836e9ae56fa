import MiniEvm.Abi.Method
import MiniEvm.Detectors.ContractUtils
import MiniEvm.Framework.Loop

namespace MiniEvm

open Math Framework Abi

def contractattacker : String := "Contract Attacker...maybe"

/-- An entry of `solcout.Contracts`: the decoded bytecode, and the interface where it decodes. -/
structure SolcContract where
  name : String
  bin : Bytes
  abi : Option (ABI Argument)

/-- A map from names, in one of the orders in which Go may visit it. -/
structure SolcOutput where
  contracts : List SolcContract
  nodup : (contracts.map SolcContract.name).Nodup

/-- `len(abidecode.Methods)+len(abidecode.Events)`. -/
def Abi.ABI.methodsAndEvents (abi : ABI Argument) : Nat :=
  abi.methods.entries.length + abi.events.entries.length

/-- The fields of `SimpleContract`, apart from the machine that all share. -/
structure SimpleContract where
  name : String
  address : Address
  bin : Bytes
  abi : ABI Argument

/-- What the loop of `DeployContracts` changes. `contracts` is the map `cu.Contracts`, whose keys are
those of the compiler's output and so are written once; `main` is absent while `cu.MainContract` is
the zero value. `created` records which constructors have succeeded and is read by nothing. -/
structure Deployment where
  evm : Evm
  contracts : List SimpleContract
  main : Option SimpleContract
  methodsandeventscount : Nat
  created : List (SolcContract × Bool)

namespace Deployment

/-- The state before the loop. -/
def start : Deployment :=
  let creater := stringToAddress contractcreator
  let attacker := stringToAddress contractattacker
  let state := ((StateDB.new.addBalance creater 100).addBalance attacker 100)
  let state := (state.setNonce creater 20).setNonce attacker 20
  { evm := Evm.new state, contracts := [], main := none, methodsandeventscount := 0, created := [] }

/-- What is left to do after `cu.evm.Create` returned; the new account gets its balance even if the
constructor failed. -/
def register (d : Deployment) (c : SolcContract) (r : CreateResult) : Deployment :=
  let evm := { r.evm with stateDB := r.evm.stateDB.addBalance r.contractAddr 100 }
  let d := { d with evm := evm, created := d.created ++ [(c, decide (r.err = none))] }
  if r.err ≠ none then d
  else
    match c.abi with
    | none => d
    | some abidecode =>
      let contract : SimpleContract := ⟨c.name, r.contractAddr, c.bin, abidecode⟩
      let d := { d with contracts := d.contracts ++ [contract] }
      if abidecode.methodsAndEvents > d.methodsandeventscount then
        { d with main := some contract, methodsandeventscount := abidecode.methodsAndEvents }
      else d

/-- One round of the loop. -/
def deploy (env : Env) (fuel : Nat) (c : SolcContract) (d : Deployment) : Outcome Evm Deployment :=
  (d.evm.create env (interpreterRun env env.jumpTable fuel)
    (.account (stringToAddress contractcreator)) c.bin detectorGas 0).bind fun r =>
      .ok (d.register c r)

end Deployment

/-- `DeployContracts` after the compiler has run, visiting the contracts in this order. -/
def deployContracts (env : Env) (fuel : Nat) (order : List SolcContract) : Outcome Evm Deployment :=
  forEach (Deployment.deploy env fuel) order .start

end MiniEvm
