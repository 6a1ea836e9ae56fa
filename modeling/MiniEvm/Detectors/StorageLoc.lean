import MiniEvm.Abi.Method
import MiniEvm.Detectors.FuzzInt
import MiniEvm.Framework.Added

namespace MiniEvm

open Math Framework Abi

/-- `SetSkippedVars`. -/
def skippedVars (names : List String) : List String :=
  if names.length > 0 then names else ["name", "symbol", "totalSupply", "decimals"]

/-- What `FilterOutConstantNumABI` keeps: constant methods without inputs and with one number as
output. -/
def isConstantNum (method : Abi.Method Argument) : Bool :=
  method.const && method.inputs.length = 0 &&
    match method.outputs with
    | [output] =>
      match output.type with
      | .uint _ | .int _ => true
      | _ => false
    | _ => false

def filterOutConstantNumABI (abi : ABI Argument) : List (String × Abi.Method Argument) :=
  (abi.methods.entries.map fun e => (e.1, e.2)).filter fun m => isConstantNum m.2

/-- An order in which Go may visit the map of the constant methods. -/
structure ConstantABI (abi : ABI Argument) where
  methods : List (String × Abi.Method Argument)
  perm : methods.Perm (filterOutConstantNumABI abi)

/-- The variables `touched` and `storageLoc` of `TouchSload` after an event: the callback looks at
its first invocation from `opSload`. -/
def touch : Bool × Hash → Event → Bool × Hash
  | (touched, storageLoc), .callback site loc _ =>
    if !touched && site = .SLOAD then (true, loc) else (touched, storageLoc)
  | s, _ => s

/-- What the callback has stored after these events; initially the zero hash. -/
def touchedLoc (evs : List Event) : Hash := (evs.foldl touch (false, 0)).2

/-- `TouchSload`: the location, the error of the call and what the call added to the trace. -/
def touchSload (env : Env) (fuel : Nat) (cu : ContractUtils) (contractaddr : Address)
    (abiin : Abi.Method Argument) :
    Outcome Evm (Hash × Option VmError × List Event × ContractUtils) :=
  (cu.call env fuel cu.contractCreater contractaddr (abiin.id env.crypto) detectorGas 0).bind
    fun (r, cu') =>
      let evs := added cu.evm.trace r.evm.trace
      .ok (touchedLoc evs, r.err, evs, cu')

/-- The loop of `GetStorageLoc`. The map is written once for each key; `calls` records what the call
of each getter did and is read by nothing. -/
structure StorageLocs where
  cu : ContractUtils
  storageLoc : List (String × Hash)
  calls : List (String × List Event)

def locate (env : Env) (fuel : Nat) (skipped : List String) (method : String × Abi.Method Argument)
    (s : StorageLocs) : Outcome Evm StorageLocs :=
  if method.1 ∈ skipped then .ok s
  else
    -- the error of the call is dropped
    (touchSload env fuel s.cu s.cu.mainAddress method.2).bind fun (loc, _, evs, cu) =>
      .ok ⟨cu, s.storageLoc ++ [(method.1, loc)], s.calls ++ [(method.1, evs)]⟩

/-- `GetStorageLoc` on the utilities of a deployed contract. -/
def getStorageLoc (env : Env) (fuel : Nat) {abi : ABI Argument} (constantABI : ConstantABI abi)
    (skipped : List String) (cu : ContractUtils) : Outcome Evm StorageLocs :=
  forEach (locate env fuel skipped) constantABI.methods ⟨cu, [], []⟩

end MiniEvm
