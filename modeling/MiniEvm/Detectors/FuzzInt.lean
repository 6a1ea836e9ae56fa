import MiniEvm.Detectors.ContractUtils
import MiniEvm.Framework.BufferedWriter
import MiniEvm.Framework.Loop
import MiniEvm.State.Observation

namespace MiniEvm

open Math Framework

/-- The keys `add`, `sub`, `mul` and `div` of the detectors: a common beginning and the name. -/
def keyPrefix : String := "Nyanpass. Overflow detected: "

def checkedKeys : List String := ["Add", "Sub", "Mul", "Div"].map (keyPrefix ++ ·)

/-- The loop of `CheckOverflowStorage`: stops at the first slot that is not empty. -/
def checkKeys (address : Address) : List String → StateDB → Bool × StateDB
  | [], db => (false, db)
  | op :: ops, db =>
    let (res, db) := db.getState address (stringToHash op)
    if res ≠ 0 then (true, db) else checkKeys address ops db

def checkOverflowStorage (address : Address) (db : StateDB) : Bool × StateDB :=
  checkKeys address checkedKeys db

theorem checkKeys_same (address : Address) (keys : List String) (db : StateDB) :
    db.Same (checkKeys address keys db).2 := by
  induction keys generalizing db with
  | nil => exact .refl _
  | cons op ops ih =>
    have hget := db.getState_same address (stringToHash op)
    simp only [checkKeys]
    split_ifs
    · exact hget
    · exact hget.trans (ih _)

theorem checkKeys_iff (address : Address) (keys : List String) (db : StateDB) :
    (checkKeys address keys db).1 = true ↔ ∃ k ∈ keys, db.slot address (stringToHash k) ≠ 0 := by
  induction keys generalizing db with
  | nil => simp [checkKeys]
  | cons op ops ih =>
    have hval : (db.getState address (stringToHash op)).1 = db.slot address (stringToHash op) := rfl
    have hslot := (db.getState_same address (stringToHash op)).slot address
    simp only [checkKeys, hval, List.mem_cons, exists_eq_or_imp]
    split_ifs with h
    · exact iff_of_true rfl (.inl h)
    · rw [ih]
      simp only [hslot]
      exact (or_iff_right h).symm

theorem checkedKeys_eq : checkedKeys.map stringToHash = markerSlots := by decide

/-- The check reports exactly a non-empty marker slot. -/
theorem checkOverflowStorage_iff (address : Address) (db : StateDB) :
    (checkOverflowStorage address db).1 = true ↔ ∃ k ∈ markerSlots, db.slot address k ≠ 0 := by
  rw [checkOverflowStorage, checkKeys_iff, ← checkedKeys_eq]
  simp

def storageMutateNum : Nat := 100
def maxRuns : Nat := 100

/-- The size of a `bufio.Writer`. -/
def bufioSize : Nat := 4096

/-- What `GenTable` renders: a row for every constant and one for the method. -/
structure Table where
  storage : List (String × Hash)
  method : String
  calldata : Bytes

/-- A method of the ABI with the random choices of the fuzzer: what `FuzzStorage` stores, in the
order in which it visits the locations, and the calldata of every run. -/
structure Method where
  sig : String
  const : Bool
  mutations : Nat → List (Hash × Int)
  calldata : Nat → Nat → Bytes

/-- The fields of `FuzzInt` that a run reads. `constants` are the names with their locations,
`render` the writes that a rendered table takes, and `methods` those of the main contract in the
order in which the map is visited. -/
structure FuzzInt where
  constants : List (String × Hash)
  render : Table → List Bytes
  methods : List Method

/-- An attack vector: its table, the utilities before the call and what the call returned. -/
structure Report where
  table : Table
  before : ContractUtils
  result : CallResult

/-- What happened to the log file. -/
inductive LogEntry where
  | report (r : Report)
  | flush

/-- The state of `FuzzContracts`; `log` is for the proofs only. -/
structure Fuzzing where
  contracts : ContractUtils
  writer : BufferedWriter UInt8
  attackVectorCnt : Nat
  log : List LogEntry

namespace ContractUtils

/-- The values of the constants, as `getConstantsTable` and `GenTable` read them. -/
def readConstants (cu : ContractUtils) : List (String × Hash) → List (String × Hash) × ContractUtils
  | [] => ([], cu)
  | (name, loc) :: rest =>
    let (value, cu) := cu.getStorage loc
    let (values, cu) := readConstants cu rest
    ((name, value) :: values, cu)

def fuzzStorage (cu : ContractUtils) (mutations : List (Hash × Int)) : ContractUtils :=
  mutations.foldl (fun cu (loc, n) => cu.setStorage loc n) cu

/-- `CheckOverflowStorage` on the shared `StateDB`. -/
def checkOverflow (cu : ContractUtils) : Bool × ContractUtils :=
  let evm := cu.loaded
  let (found, db) := checkOverflowStorage cu.mainAddress evm.stateDB
  (found, cu.store { evm with stateDB := db })

end ContractUtils

namespace FuzzInt

variable (fi : FuzzInt) (env : Env) (fuel : Nat)

/-- `GenTable` and the counter. -/
def report (method : Method) (calldata : Bytes) (before : ContractUtils) (result : CallResult)
    (s : Fuzzing) : Fuzzing :=
  let (storage, contracts) := s.contracts.readConstants fi.constants
  let table : Table := ⟨storage, method.sig, calldata⟩
  { contracts := contracts
    writer := (fi.render table).foldl (BufferedWriter.write bufioSize) s.writer
    attackVectorCnt := s.attackVectorCnt + 1
    log := s.log ++ [.report ⟨table, before, result⟩] }

/-- One fuzzed call. The table is made after the call and the restore. -/
def fuzzRun (method : Method) (calldata : Bytes) (s : Fuzzing) : Outcome Fuzzing Fuzzing :=
  let before := s.contracts.backupStates
  ((before.call env fuel before.contractCreater before.mainAddress calldata detectorGas 0).mapPanic
    fun evm => { s with contracts := before.store evm }).bind fun (result, contracts) =>
      let (overflowStateExist, contracts) := contracts.checkOverflow
      let s := { s with contracts := contracts.restoreStates }
      if result.err = none ∧ overflowStateExist then
        .ok (fi.report method calldata before result s)
      else .ok s

/-- The body of the inner loop; more than five vectors end the method. -/
def runBody (method : Method) (i j : Nat) (s : Fuzzing) : Outcome Fuzzing (Bool × Fuzzing) :=
  (fi.fuzzRun env fuel method (method.calldata i j) s).bind fun s =>
    if s.attackVectorCnt > 5 then
      .ok (true, { s with writer := s.writer.flush, log := s.log ++ [.flush] })
    else .ok (false, s)

/-- The body of the middle loop. -/
def mutateBody (method : Method) (i : Nat) (s : Fuzzing) : Outcome Fuzzing (Bool × Fuzzing) :=
  let contracts := s.contracts.fuzzStorage (method.mutations i)
  let (_, contracts) := contracts.readConstants fi.constants
  forBreak (fi.runBody env fuel method i) (List.range maxRuns) { s with contracts := contracts }

/-- The body of the outer loop. -/
def methodBody (method : Method) (s : Fuzzing) : Outcome Fuzzing (Bool × Fuzzing) :=
  if method.const then .ok (false, s)
  else
    (forBreak (fi.mutateBody env fuel method) (List.range storageMutateNum)
      { s with attackVectorCnt := 0 }).bind fun (_, s) => .ok (false, s)

/-- `FuzzContracts` up to its return, without the user interface. -/
def fuzzContracts (contracts : ContractUtils) : Outcome Fuzzing Fuzzing :=
  let (_, contracts) := contracts.readConstants fi.constants
  (forBreak (fi.methodBody env fuel) fi.methods ⟨contracts, .new, 0, []⟩).bind fun (_, s) => .ok s

/-- What is kept by a fuzzed call, a flush and the other operations on the utilities is kept by
all of `FuzzContracts`. -/
theorem fuzzContracts_meets {inv : Fuzzing → Prop}
    (hread : ∀ s, inv s →
      inv { s with contracts := (s.contracts.readConstants fi.constants).2 })
    (hstorage : ∀ s mutations, inv s →
      inv { s with contracts := s.contracts.fuzzStorage mutations })
    (hcount : ∀ s n, inv s → inv { s with attackVectorCnt := n })
    (hflush : ∀ s, inv s → inv { s with writer := s.writer.flush, log := s.log ++ [.flush] })
    (hrun : ∀ method calldata s, inv s →
      (fi.fuzzRun env fuel method calldata s).Meets inv inv)
    {contracts : ContractUtils} (h : inv ⟨contracts, .new, 0, []⟩) :
    (fi.fuzzContracts env fuel contracts).Meets inv inv := by
  have hbody : ∀ method i j s, inv s →
      (fi.runBody env fuel method i j s).Meets (fun r => inv r.2) inv := by
    intro method i j s hs
    refine (hrun method (method.calldata i j) s hs).bind (fun _ h => h) fun s hs => ?_
    split_ifs
    · exact hflush s hs
    · exact hs
  have hmutate : ∀ method i s, inv s →
      (fi.mutateBody env fuel method i s).Meets (fun r => inv r.2) inv := by
    intro method i s hs
    exact forBreak_meets (fun j _ => hbody method i j) (hread _ (hstorage s _ hs))
  have hmethod : ∀ method s, inv s →
      (fi.methodBody env fuel method s).Meets (fun r => inv r.2) inv := by
    intro method s hs
    unfold methodBody
    split_ifs
    · exact hs
    · refine Outcome.Meets.bind (forBreak_meets (fun i _ => hmutate method i) (hcount s 0 hs))
        (fun _ h => h) fun r hr => ?_
      exact hr
  refine Outcome.Meets.bind (forBreak_meets (fun method _ => hmethod method)
    (hread ⟨contracts, .new, 0, []⟩ h)) (fun _ h => h) fun r hr => ?_
  exact hr

end FuzzInt

end MiniEvm
