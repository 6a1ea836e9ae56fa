import MiniEvm.Detectors.Handles

namespace MiniEvm

open Math Framework

/-- What the detectors do to a `ContractUtils` between a backup and its restore. -/
inductive UtilsOp where
  | call (caller addr : Address) (calldata : Bytes) (gas : UInt64) (value : Int)
  | create (caller : Address) (code : Bytes) (gas : UInt64) (value : Int)
  | setStorage (loc : Hash) (value : Int)

namespace UtilsOp

variable (env : Env) (fuel : Nat)

def run (cu : ContractUtils) : UtilsOp → Outcome Evm ContractUtils
  | call caller addr calldata gas value =>
    (cu.call env fuel caller addr calldata gas value).bind fun (_, cu) => .ok cu
  | create caller code gas value =>
    (cu.create env fuel caller code gas value).bind fun (_, cu) => .ok cu
  | setStorage loc value => .ok (cu.setStorage loc value)

def runAll : List UtilsOp → ContractUtils → Outcome Evm ContractUtils
  | [], cu => .ok cu
  | op :: ops, cu => (op.run env fuel cu).bind (runAll ops)

/-- An operation that leaves every account alone: a call or create that is refused before the
balance of the caller is read, and a store of the value that the slot already holds. -/
def Idle (cu : ContractUtils) : UtilsOp → Prop
  | call .. => (env.noRecursion ∧ cu.evm.depth > 0) ∨ cu.evm.depth > callCreateDepth
  | create .. => cu.evm.depth > callCreateDepth
  | setStorage loc value =>
    cu.db.slot cu.mainAddress loc = bytesToHash (paddedBigBytes (u256 value) 32)

instance (cu : ContractUtils) (op : UtilsOp) : Decidable (op.Idle env cu) :=
  match op with
  | call .. => inferInstanceAs (Decidable (_ ∨ _))
  | create .. => inferInstanceAs (Decidable (_ > _))
  | setStorage .. => inferInstanceAs (Decidable (_ = _))

/-- Every operation of the sequence is idle when its turn comes. -/
def AllIdle : List UtilsOp → ContractUtils → Prop
  | [], _ => True
  | op :: ops, cu => op.Idle env cu ∧ ∀ cu', op.run env fuel cu = .ok cu' → AllIdle ops cu'

end UtilsOp

section Operations

variable {env : Env} {fuel : Nat} {cu cu' : ContractUtils}

theorem UtilsOp.run_handles {op : UtilsOp} (h : op.run env fuel cu = .ok cu') :
    cu.SameHandles cu' := by
  cases op with
  | call caller addr calldata gas value =>
    obtain ⟨⟨r, cu₁⟩, hcall, h⟩ := Outcome.bind_eq_ok.mp h
    obtain ⟨r', -, hstore⟩ := Outcome.bind_eq_ok.mp hcall
    cases hstore
    cases h
    exact .store ..
  | create caller code gas value =>
    obtain ⟨⟨r, cu₁⟩, hcreate, h⟩ := Outcome.bind_eq_ok.mp h
    obtain ⟨r', -, hstore⟩ := Outcome.bind_eq_ok.mp hcreate
    cases hstore
    cases h
    exact .store ..
  | setStorage loc value =>
    cases h
    exact .store ..

theorem UtilsOp.runAll_handles {ops : List UtilsOp} (h : runAll env fuel ops cu = .ok cu') :
    cu.SameHandles cu' := by
  induction ops generalizing cu with
  | nil =>
    cases h
    exact .refl _
  | cons op ops ih =>
    obtain ⟨cu₁, hop, h⟩ := Outcome.bind_eq_ok.mp h
    exact (run_handles hop).trans (ih h)

theorem UtilsOp.run_idle {op : UtilsOp} (idle : op.Idle env cu)
    (h : op.run env fuel cu = .ok cu') : cu.db.Same cu'.db := by
  cases op with
  | call caller addr calldata gas value =>
    obtain ⟨⟨r, cu₁⟩, hcall, h⟩ := Outcome.bind_eq_ok.mp h
    obtain ⟨r', hrun, hstore⟩ := Outcome.bind_eq_ok.mp hcall
    cases hstore
    cases h
    have hevm : r.evm = cu.loaded := by
      unfold Evm.runCall Evm.call at hrun
      split_ifs at hrun with hno hdepth
      · cases hrun
        rfl
      · cases hrun
        rfl
      · exact absurd idle (not_or.mpr ⟨hno, hdepth⟩)
    rw [hevm]
    exact ContractUtils.store_same (.refl _)
  | create caller code gas value =>
    obtain ⟨⟨r, cu₁⟩, hcreate, h⟩ := Outcome.bind_eq_ok.mp h
    obtain ⟨r', hrun, hstore⟩ := Outcome.bind_eq_ok.mp hcreate
    cases hstore
    cases h
    have hevm : r.evm = cu.loaded := by
      have hdeep : cu.loaded.depth > callCreateDepth := idle
      unfold Evm.create at hrun
      rw [if_pos hdeep] at hrun
      cases hrun
      rfl
    rw [hevm]
    exact ContractUtils.store_same (.refl _)
  | setStorage loc value =>
    cases h
    exact ContractUtils.store_same (StateDB.setState_same idle)

theorem UtilsOp.runAll_idle {ops : List UtilsOp} (idle : AllIdle env fuel ops cu)
    (h : runAll env fuel ops cu = .ok cu') : cu.db.Same cu'.db := by
  induction ops generalizing cu with
  | nil =>
    cases h
    exact .refl _
  | cons op ops ih =>
    obtain ⟨cu₁, hop, h⟩ := Outcome.bind_eq_ok.mp h
    exact (run_idle idle.1 hop).trans (ih (idle.2 cu₁ hop) h)

end Operations

section RoundTrip

variable {cu cu' : ContractUtils}

/-- After the operations the backup still refers to the map in use. -/
theorem ContractUtils.SameHandles.backup (h : cu.backupStates.SameHandles cu') :
    cu'.stateBackup = some ⟨cu'.state.stateMap, cu.db.logs⟩ := by
  rw [h.stateBackup, h.stateMap, backupStates_stateBackup]
  rfl

end RoundTrip

/-- A restore, and a second one after further operations, gives back the log list of the backup; it
undoes nothing else, so that accounts are as they were at the backup if all operations since were
idle. -/
theorem restoreStates_of_idle {env : Env} {fuel : Nat} {cu cu₁ cu₂ : ContractUtils}
    {ops ops' : List UtilsOp} (h : UtilsOp.runAll env fuel ops cu.backupStates = .ok cu₁)
    (h' : UtilsOp.runAll env fuel ops' cu₁.restoreStates = .ok cu₂) :
    cu₁.restoreStates.db.logs = cu.db.logs ∧ cu₂.restoreStates.db.logs = cu.db.logs ∧
    (∀ a, cu₁.restoreStates.db.account a = cu₁.db.account a) ∧
    (UtilsOp.AllIdle env fuel ops cu.backupStates →
      cu.db.Same cu₁.restoreStates.db ∧
      (UtilsOp.AllIdle env fuel ops' cu₁.restoreStates → cu.db.Same cu₂.restoreStates.db)) := by
  have hhandles := UtilsOp.runAll_handles h
  have hbackup := hhandles.backup
  have hhandles' := (hhandles.trans (ContractUtils.restoreStates_handles hbackup)).trans
    (UtilsOp.runAll_handles h')
  have hdb := ContractUtils.restoreStates_db hbackup
  have hdb' := ContractUtils.restoreStates_db hhandles'.backup
  refine ⟨by rw [hdb], by rw [hdb'], fun a => by rw [hdb]; rfl, fun idle => ?_⟩
  have hsame : cu.db.Same cu₁.restoreStates.db := by
    have hrun := UtilsOp.runAll_idle idle h
    rw [ContractUtils.backupStates_db] at hrun
    rw [hdb]
    exact { hrun with logs := rfl }
  refine ⟨hsame, fun idle' => ?_⟩
  have hrun' := hsame.trans (UtilsOp.runAll_idle idle' h')
  rw [hdb']
  exact { hrun' with logs := rfl }

/-- A contract with two slots set. -/
def twoSlots : ContractUtils := ((ContractUtils.deployed []).setStorage 3 5).setStorage 4 6

theorem restoreStates_of_idle_rewrite : ∃ cu₁ cu₂,
    UtilsOp.runAll sampleEnv 9 [.setStorage 3 5] twoSlots.backupStates = .ok cu₁ ∧
    UtilsOp.runAll sampleEnv 9 [.setStorage 4 6] cu₁.restoreStates = .ok cu₂ ∧
    twoSlots.db.Same cu₂.restoreStates.db := by
  let cu₁ := twoSlots.backupStates.setStorage 3 5
  let cu₂ := cu₁.restoreStates.setStorage 4 6
  have h : UtilsOp.runAll sampleEnv 9 [.setStorage 3 5] twoSlots.backupStates = .ok cu₁ := rfl
  have h' : UtilsOp.runAll sampleEnv 9 [.setStorage 4 6] cu₁.restoreStates = .ok cu₂ := rfl
  have idle : UtilsOp.AllIdle sampleEnv 9 [.setStorage 3 5] twoSlots.backupStates :=
    ⟨by decide +kernel, fun _ _ => trivial⟩
  have idle' : UtilsOp.AllIdle sampleEnv 9 [.setStorage 4 6] cu₁.restoreStates :=
    ⟨by decide +kernel, fun _ _ => trivial⟩
  exact ⟨cu₁, cu₂, h, h', ((restoreStates_of_idle h h').2.2.2 idle).2 idle'⟩

/-- `SSTORE(0, 1)`. -/
def storeOne : Bytes := [0x60, 1, 0x60, 0, 0x55]

/-- The store of a call is still there after the restore. -/
theorem storeOne_not_restored : ∃ cu₁,
    UtilsOp.runAll sampleEnv 9 [.call 7 0x100 [] 100000 0]
      (ContractUtils.deployed storeOne).backupStates = .ok cu₁ ∧
    ¬ (ContractUtils.deployed storeOne).db.Same cu₁.restoreStates.db := by
  have hrun : (UtilsOp.runAll sampleEnv 9 [.call 7 0x100 [] 100000 0]
      (ContractUtils.deployed storeOne).backupStates).Returns fun cu₁ =>
        cu₁.restoreStates.db.slot 0x100 0 = 1 := by
    decide +kernel
  obtain ⟨cu₁, h, hslot⟩ := hrun.exists
  refine ⟨cu₁, h, fun hsame => ?_⟩
  have hzero := hsame.slot 0x100 0
  rw [hslot] at hzero
  revert hzero
  decide

end MiniEvm
