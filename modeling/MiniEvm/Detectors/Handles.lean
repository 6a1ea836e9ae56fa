import MiniEvm.Detectors.FuzzInt

namespace MiniEvm

open Math Framework

/-- The handles of a `ContractUtils`: which map it uses, and what it has backed up. -/
structure ContractUtils.SameHandles (cu cu' : ContractUtils) : Prop where
  stateMap : cu'.state.stateMap = cu.state.stateMap
  stateBackup : cu'.stateBackup = cu.stateBackup

namespace ContractUtils.SameHandles

theorem refl (cu : ContractUtils) : SameHandles cu cu := ⟨rfl, rfl⟩

theorem trans {cu cu' cu'' : ContractUtils} (h : SameHandles cu cu') (h' : SameHandles cu' cu'') :
    SameHandles cu cu'' :=
  ⟨h'.stateMap.trans h.stateMap, h'.stateBackup.trans h.stateBackup⟩

theorem store (cu : ContractUtils) (evm : Evm) : SameHandles cu (cu.store evm) := ⟨rfl, rfl⟩

end ContractUtils.SameHandles

namespace ContractUtils

variable {cu cu' : ContractUtils}

/-- Storing back accounts that nobody changed is not observable. -/
theorem store_same {evm : Evm} (h : cu.db.Same evm.stateDB) :
    cu.db.Same (cu.store evm).db := by
  have hheap : ∀ i, (cu.heap.set i evm.stateDB.stateMap).getD i (fun _ => none) =
      evm.stateDB.stateMap ∨ cu.heap.set i evm.stateDB.stateMap = cu.heap := by
    intro i
    by_cases hi : i < cu.heap.length
    · left
      simp [List.getD, hi]
    · right
      exact List.set_eq_of_length_le (Nat.le_of_not_lt hi)
  have haccount : (∀ a, (cu.store evm).db.account a = evm.stateDB.account a) ∨
      ∀ a, (cu.store evm).db.account a = cu.db.account a := by
    obtain hi | hi := hheap cu.state.stateMap
    · left
      intro a
      simp only [StateDB.account, db, store, hi]
    · right
      intro a
      simp only [StateDB.account, db, store, hi]
  have hlogs : (cu.store evm).db.logs = evm.stateDB.logs := rfl
  obtain ha | ha := haccount
  · exact h.trans (.of_account ha hlogs)
  · exact .of_account ha (hlogs.trans h.logs)

/-- Backing up is not observable: the backup refers to the same map. -/
theorem backupStates_db (cu : ContractUtils) : cu.backupStates.db = cu.db := by
  have hheap : (cu.heap ++ [fun _ => none]).getD cu.state.stateMap (fun _ => none) =
      cu.heap.getD cu.state.stateMap (fun _ => none) := by
    by_cases hi : cu.state.stateMap < cu.heap.length
    · rw [List.getD_append _ _ _ _ hi]
    · rw [List.getD_append_right _ _ _ _ (Nat.le_of_not_lt hi),
        List.getD_eq_default cu.heap _ (Nat.le_of_not_lt hi)]
      cases cu.state.stateMap - cu.heap.length <;> rfl
  simp only [db, backupStates, hheap]

theorem backupStates_stateBackup (cu : ContractUtils) :
    cu.backupStates.stateBackup = some cu.state := congrArg some (cu.copier.assigns _ _)

theorem restoreStates_eq {backup : StateHandle} (h : cu.stateBackup = some backup) :
    cu.restoreStates = { cu with state := backup } := by
  simp only [restoreStates, h, cu.copier.assigns]

/-- Restoring gives back the log list and keeps all accounts as they are now. -/
theorem restoreStates_db {logs : List Log}
    (h : cu.stateBackup = some ⟨cu.state.stateMap, logs⟩) :
    cu.restoreStates.db = { cu.db with logs := logs } := by
  rw [restoreStates_eq h]
  rfl

theorem restoreStates_handles {logs : List Log}
    (h : cu.stateBackup = some ⟨cu.state.stateMap, logs⟩) :
    cu.SameHandles cu.restoreStates := by
  rw [restoreStates_eq h]
  exact ⟨rfl, rfl⟩

/-- The map in use is on the heap. -/
def Valid (cu : ContractUtils) : Prop := cu.state.stateMap < cu.heap.length

/-- What is stored is what is loaded next. -/
theorem store_db (h : cu.Valid) (evm : Evm) : (cu.store evm).db = evm.stateDB := by
  have hheap : (cu.heap.set cu.state.stateMap evm.stateDB.stateMap).getD cu.state.stateMap
      (fun _ => none) = evm.stateDB.stateMap := by
    have hlt : cu.state.stateMap < cu.heap.length := h
    simp [List.getD, hlt]
  simp only [db, store, hheap]

theorem store_valid (h : cu.Valid) (evm : Evm) : (cu.store evm).Valid := by
  unfold Valid store
  rw [List.length_set]
  exact h

/-- The utilities after an operation that only looks at the state or moves log lists. -/
structure Agrees (cu cu' : ContractUtils) : Prop where
  mainAddress : cu'.mainAddress = cu.mainAddress
  contractCreater : cu'.contractCreater = cu.contractCreater
  depth : cu'.evm.depth = cu.evm.depth
  readOnly : cu'.evm.readOnly = cu.evm.readOnly
  abort : cu'.evm.abort = cu.evm.abort
  slot : ∀ a k, cu'.db.slot a k = cu.db.slot a k
  code : ∀ a, cu'.db.getCode a = cu.db.getCode a
  valid : cu.Valid → cu'.Valid

namespace Agrees

theorem refl (cu : ContractUtils) : Agrees cu cu :=
  ⟨rfl, rfl, rfl, rfl, rfl, fun _ _ => rfl, fun _ => rfl, id⟩

theorem trans {cu'' : ContractUtils} (h : Agrees cu cu') (h' : Agrees cu' cu'') : Agrees cu cu'' where
  mainAddress := h'.mainAddress.trans h.mainAddress
  contractCreater := h'.contractCreater.trans h.contractCreater
  depth := h'.depth.trans h.depth
  readOnly := h'.readOnly.trans h.readOnly
  abort := h'.abort.trans h.abort
  slot a k := (h'.slot a k).trans (h.slot a k)
  code a := (h'.code a).trans (h.code a)
  valid hv := h'.valid (h.valid hv)

/-- Storing an unobservable change of the state. -/
theorem store {db : StateDB} (h : cu.db.Same db) :
    Agrees cu (cu.store { cu.loaded with stateDB := db }) where
  mainAddress := rfl
  contractCreater := rfl
  depth := rfl
  readOnly := rfl
  abort := rfl
  slot := (store_same h).slot
  code := (store_same h).code
  valid hv := store_valid hv _

theorem backupStates (cu : ContractUtils) : Agrees cu cu.backupStates where
  mainAddress := rfl
  contractCreater := rfl
  depth := rfl
  readOnly := rfl
  abort := rfl
  slot a k := by rw [backupStates_db]
  code a := by rw [backupStates_db]
  valid hv := by
    unfold Valid ContractUtils.backupStates
    rw [List.length_append]
    exact Nat.lt_add_right _ hv

theorem restoreStates {logs : List Log} (h : cu.stateBackup = some ⟨cu.state.stateMap, logs⟩) :
    Agrees cu cu.restoreStates := by
  have hdb := restoreStates_db h
  have heq := restoreStates_eq h
  refine ⟨?_, ?_, ?_, ?_, ?_, fun a k => ?_, fun a => ?_, fun hv => ?_⟩
  case refine_6 =>
    rw [hdb]
    rfl
  case refine_7 =>
    rw [hdb]
    rfl
  all_goals
    rw [heq]
  exact hv

end Agrees

theorem getStorage_agrees (cu : ContractUtils) (loc : Hash) : cu.Agrees (cu.getStorage loc).2 :=
  .store (cu.db.getState_same cu.mainAddress loc)

theorem checkOverflow_agrees (cu : ContractUtils) : cu.Agrees cu.checkOverflow.2 :=
  .store (checkKeys_same cu.mainAddress checkedKeys cu.db)

/-- The constants are read without a trace, and are what the slots hold. -/
theorem readConstants_spec (cu : ContractUtils) (constants : List (String × Hash)) :
    (cu.readConstants constants).1 =
      constants.map (fun (name, loc) => (name, cu.db.slot cu.mainAddress loc)) ∧
    cu.Agrees (cu.readConstants constants).2 := by
  induction constants generalizing cu with
  | nil => exact ⟨rfl, .refl _⟩
  | cons c rest ih =>
    obtain ⟨name, loc⟩ := c
    have hget := cu.getStorage_agrees loc
    obtain ⟨hvalues, hagrees⟩ := ih (cu.getStorage loc).2
    refine ⟨?_, hget.trans hagrees⟩
    simp only [readConstants, List.map_cons, hvalues, hget.mainAddress, hget.slot]
    rfl

/-- The utilities after a fuzzed call that returned `result`. -/
def afterCall (before : ContractUtils) (result : CallResult) : ContractUtils :=
  (before.store result.evm).checkOverflow.2.restoreStates

theorem afterCall_agrees (cu : ContractUtils) (result : CallResult) :
    (cu.backupStates.store result.evm).Agrees (cu.backupStates.afterCall result) :=
  (checkOverflow_agrees _).trans (.restoreStates cu.backupStates_stateBackup)

end ContractUtils

namespace FuzzInt

variable (fi : FuzzInt) (env : Env) (fuel : Nat) (method : Method) (calldata : Bytes) (s : Fuzzing)

/-- A fuzzed call by what the call returns. -/
theorem fuzzRun_eq : fi.fuzzRun env fuel method calldata s =
    let before := s.contracts.backupStates
    ((before.loaded.runCall env fuel (.account before.contractCreater) before.mainAddress calldata
      detectorGas 0).mapPanic fun evm => { s with contracts := before.store evm }).bind
        fun result =>
          if result.err = none ∧
              (checkOverflowStorage before.mainAddress (before.store result.evm).db).1 then
            .ok (fi.report method calldata before result
              { s with contracts := before.afterCall result })
          else .ok { s with contracts := before.afterCall result } := by
  simp only [fuzzRun, ContractUtils.call]
  cases s.contracts.backupStates.loaded.runCall env fuel
    (.account s.contracts.backupStates.contractCreater) s.contracts.backupStates.mainAddress
    calldata detectorGas 0 <;> rfl

/-- What a fuzzed call can do: panic in the call, report its result, or go on. -/
theorem fuzzRun_meets {inv : Fuzzing → Prop}
    (hpanic : ∀ evm, inv { s with contracts := s.contracts.backupStates.store evm })
    (hreport : ∀ result,
      s.contracts.backupStates.loaded.runCall env fuel (.account s.contracts.contractCreater)
        s.contracts.mainAddress calldata detectorGas 0 = .ok result → result.err = none →
      (checkOverflowStorage s.contracts.mainAddress
        (s.contracts.backupStates.store result.evm).db).1 = true →
      inv (fi.report method calldata s.contracts.backupStates result
        { s with contracts := s.contracts.backupStates.afterCall result }))
    (hquiet : ∀ result,
      s.contracts.backupStates.loaded.runCall env fuel (.account s.contracts.contractCreater)
        s.contracts.mainAddress calldata detectorGas 0 = .ok result →
      inv { s with contracts := s.contracts.backupStates.afterCall result }) :
    (fi.fuzzRun env fuel method calldata s).Meets inv inv := by
  rw [fuzzRun_eq]
  have hcall : (s.contracts.backupStates.loaded.runCall env fuel
      (.account s.contracts.contractCreater) s.contracts.mainAddress calldata detectorGas 0).Meets
        (fun result => s.contracts.backupStates.loaded.runCall env fuel
          (.account s.contracts.contractCreater) s.contracts.mainAddress calldata detectorGas 0 =
            .ok result)
        (fun evm => inv { s with contracts := s.contracts.backupStates.store evm }) := by
    cases hx : s.contracts.backupStates.loaded.runCall env fuel
        (.account s.contracts.contractCreater) s.contracts.mainAddress calldata detectorGas 0 with
    | ok result => exact rfl
    | panic evm => exact hpanic evm
    | timeout => trivial
  refine Outcome.Meets.bind (.mapPanic hcall) (fun _ h => h) fun result hresult => ?_
  split_ifs with hfound
  · exact hreport result hresult hfound.1 hfound.2
  · exact hquiet result hresult

end FuzzInt

end MiniEvm
