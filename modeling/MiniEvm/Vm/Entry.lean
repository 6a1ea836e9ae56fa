import MiniEvm.State.Observation
import MiniEvm.Vm.Interpreter

namespace MiniEvm

open Math Framework

/-- The checks that `NoRecursion` and the depth limit make. -/
def Passes (env : Env) (evm : Evm) : Prop :=
  ¬(env.noRecursion = true ∧ evm.depth > 0) ∧ evm.depth ≤ callCreateDepth

/-- What an entry point hands to `run`. -/
structure Launch where
  evm : Evm
  contract : Contract
  input : Bytes

/-- An entry point that returns before it runs anything. -/
def stopped (evm : Evm) (caller : ContractRef) (gas : UInt64) (err : Option VmError)
    (contractAddr : Address) : CreateResult :=
  ⟨⟨[], gas, err, evm, caller.jumpdests⟩, contractAddr⟩

/-- The contract that runs the code at `addr`. -/
def calleeContract (db : StateDB) (caller : ContractRef) (self addr : Address) (value : Int)
    (gas : UInt64) : Contract :=
  (Contract.new caller self value gas).setCallCode addr (db.getCodeHash addr) (db.getCode addr)

theorem Contract.useGas_jumpdests {c c' : Contract} {gas : UInt64} (h : c.useGas gas = some c') :
    c'.jumpdests = c.jumpdests := by
  unfold useGas at h
  split_ifs at h
  cases h
  rfl

theorem Contract.useAllGas_jumpdests (c : Contract) : c.useAllGas.jumpdests = c.jumpdests := by
  unfold useAllGas useGas
  split_ifs <;> rfl

theorem settleCreate_jumpdests (env : Env) (snapshot : Int) (addr : Address) (r : RunResult) :
    (settleCreate env snapshot addr r).jumpdests = r.contract.jumpdests := by
  unfold settleCreate
  simp only
  rw [apply_ite Contract.jumpdests, Contract.useAllGas_jumpdests, ite_self]
  split_ifs
  · split
    · rename_i hpaid
      exact Contract.useGas_jumpdests hpaid
    · rfl
  · rfl

namespace Entry

/-- The checks that every call makes first: the result when they fail. -/
def refuse (env : Env) (evm : Evm) (caller : ContractRef) (gas : UInt64) : Option CreateResult :=
  if env.noRecursion ∧ evm.depth > 0 then some (stopped evm caller gas none 0)
  else if evm.depth > callCreateDepth then some (stopped evm caller gas (some .depth) 0)
  else none

/-- The part of an entry point before `run`; absent when the caller cannot delegate. -/
def prepare (env : Env) (evm : Evm) (caller : ContractRef) (gas : UInt64) :
    Entry → Option (CreateResult ⊕ Launch)
  | call addr input value =>
    match refuse env evm caller gas with
    | some r => some (.inl r)
    | none =>
      let (can, db) := canTransfer evm.stateDB caller.address value
      if can then
        let db := transfer db caller.address addr value
        some (.inr ⟨{ evm with stateDB := db }, calleeContract db caller addr addr value gas, input⟩)
      else some (.inl (stopped { evm with stateDB := db } caller gas (some .insufficientBalance) 0))
  | callCode addr input value =>
    match refuse env evm caller gas with
    | some r => some (.inl r)
    | none =>
      let (can, db) := canTransfer evm.stateDB caller.address value
      if can then
        some (.inr ⟨{ evm with stateDB := db },
          calleeContract db caller caller.address addr value gas, input⟩)
      else some (.inl (stopped { evm with stateDB := db } caller gas (some .insufficientBalance) 0))
  | delegateCall addr input =>
    match refuse env evm caller gas with
    | some r => some (.inl r)
    | none => ((Contract.new caller caller.address 0 gas).asDelegate caller).map fun c =>
        .inr ⟨evm, c.setCallCode addr (evm.stateDB.getCodeHash addr) (evm.stateDB.getCode addr), input⟩
  | staticCall addr input =>
    match refuse env evm caller gas with
    | some r => some (.inl r)
    | none => some (.inr ⟨{ evm with readOnly := true },
        calleeContract evm.stateDB caller addr addr 0 gas, input⟩)
  | create code value =>
    if evm.depth > callCreateDepth then some (.inl (stopped evm caller gas (some .depth) 0))
    else
      let (can, db) := canTransfer evm.stateDB caller.address value
      if can then
        let contractAddr := createAddress env.crypto caller.address (db.getNonce caller.address)
        let db := db.raiseNonce caller.address
        if collides env db contractAddr then
          some (.inl (stopped { evm with stateDB := db } caller 0 (some .contractAddressCollision) 0))
        else
          let evm := { evm with stateDB := newAccount env db caller.address contractAddr value }
          if env.noRecursion ∧ evm.depth > 0 then
            some (.inl (stopped evm caller gas none contractAddr))
          else some (.inr ⟨evm, (Contract.new caller contractAddr value gas).setCallCode contractAddr
            (env.crypto.keccak256 code) code, []⟩)
      else some (.inl (stopped { evm with stateDB := db } caller gas (some .insufficientBalance) 0))

/-- The part after `run`. `outermost` is the flag of `StaticCall`. -/
def conclude (env : Env) (outermost : Bool) (l : Launch) : Entry → RunResult → CreateResult
  | staticCall _ _, r =>
    let res := settle 0 r
    ⟨if outermost then { res with evm := { res.evm with readOnly := false } } else res, 0⟩
  | create _ _, r => settleCreate env 0 l.contract.self r
  | _, r => ⟨settle 0 r, 0⟩

private theorem create_eq (env : Env) (run : RunFn) (evm : Evm) (caller : ContractRef)
    (gas : UInt64) (code : Bytes) (value : Int) :
    evm.create env run caller code gas value =
      (Outcome.ofOption evm ((create code value).prepare env evm caller gas)).bind fun
        | .inl r => .ok r
        | .inr l => (runContract env run l.evm l.contract l.input).bind fun r =>
            .ok ((create code value).conclude env (!evm.readOnly) l r) := by
  by_cases hdepth : evm.depth > callCreateDepth
  · simp only [prepare, Evm.create, if_pos hdepth]
    rfl
  simp only [prepare, Evm.create, if_neg hdepth]
  cases hcan : (canTransfer evm.stateDB caller.address value).1 with
  | false => simp [stopped]
  | true =>
    simp only [Bool.not_true, Bool.false_eq_true, if_false, if_true]
    split_ifs <;> rfl

/-- Every entry point prepares, runs one contract, and concludes. -/
theorem invoke_eq (env : Env) (run : RunFn) (evm : Evm) (caller : ContractRef) (gas : UInt64)
    (e : Entry) : e.invoke env run evm caller gas =
      (Outcome.ofOption evm (e.prepare env evm caller gas)).bind fun
        | .inl r => .ok r
        | .inr l => (runContract env run l.evm l.contract l.input).bind fun r =>
            .ok (e.conclude env (!evm.readOnly) l r) := by
  by_cases hno : env.noRecursion = true ∧ evm.depth > 0
  · -- only `Create` goes on here, up to the point where it would run the code
    cases e with
    | create code value => exact create_eq ..
    | _ =>
      simp only [invoke, prepare, refuse, Evm.call, Evm.callCode, Evm.delegateCall, Evm.staticCall,
        if_pos hno]
      rfl
  by_cases hdepth : evm.depth > callCreateDepth
  · cases e with
    | create code value => exact create_eq ..
    | _ =>
      simp only [invoke, prepare, refuse, Evm.call, Evm.callCode, Evm.delegateCall, Evm.staticCall,
        if_neg hno, if_pos hdepth]
      rfl
  cases e with
  | call addr input value =>
    simp only [invoke, prepare, refuse, Evm.call, StateDB.exist, if_neg hno, if_neg hdepth]
    cases hcan : (canTransfer evm.stateDB caller.address value).1
    · simp [stopped]
    · simp [Outcome.bind_assoc, calleeContract, conclude, StateDB.snapshot]
  | callCode addr input value =>
    simp only [invoke, prepare, refuse, Evm.callCode, if_neg hno, if_neg hdepth]
    cases hcan : (canTransfer evm.stateDB caller.address value).1
    · simp [stopped]
    · simp [Outcome.bind_assoc, calleeContract, conclude, StateDB.snapshot]
  | delegateCall addr input =>
    simp only [invoke, prepare, refuse, Evm.delegateCall, if_neg hno, if_neg hdepth]
    cases (Contract.new caller caller.address 0 gas).asDelegate caller
    · rfl
    · simp [Outcome.bind_assoc, conclude, StateDB.snapshot]
  | staticCall addr input =>
    simp only [invoke, prepare, refuse, Evm.staticCall, if_neg hno, if_neg hdepth]
    cases hro : evm.readOnly
    · simp [Outcome.bind_assoc, calleeContract, conclude, StateDB.snapshot]
    · have hevm : ({ evm with readOnly := true } : Evm) = evm := by rw [← hro]
      simp [Outcome.bind_assoc, calleeContract, conclude, StateDB.snapshot, hevm]
  | create code value => exact create_eq ..

/-- A contract that is run has all the gas of its entry point and shares its caller's analysis. -/
structure LaunchSpec (evm : Evm) (caller : ContractRef) (gas : UInt64) (l : Launch) : Prop where
  gas : l.contract.gas = gas
  jumpdests : l.contract.jumpdests = caller.jumpdests
  trace : l.evm.trace = evm.trace

theorem prepare_launch {env : Env} {evm : Evm} {caller : ContractRef} {gas : UInt64} {e : Entry}
    {l : Launch} (h : e.prepare env evm caller gas = some (.inr l)) :
    LaunchSpec evm caller gas l := by
  cases e with
  | call addr input value | callCode addr input value =>
    simp only [prepare] at h
    split at h
    · cases h
    · split_ifs at h
      · cases h
        exact ⟨rfl, rfl, rfl⟩
      · cases h
  | delegateCall addr input =>
    simp only [prepare] at h
    split at h
    · cases h
    · obtain ⟨c, hc, h⟩ := Option.map_eq_some_iff.mp h
      cases h
      cases caller with
      | account a => cases hc
      | contract parent =>
        cases hc
        exact ⟨rfl, rfl, rfl⟩
  | staticCall addr input =>
    simp only [prepare] at h
    split at h
    · cases h
    · cases h
      exact ⟨rfl, rfl, rfl⟩
  | create code value =>
    simp only [prepare] at h
    split_ifs at h <;> cases h
    exact ⟨rfl, rfl, rfl⟩

/-- An entry point that returns before it runs anything leaves the trace and the analysis alone. -/
theorem prepare_inl {env : Env} {evm : Evm} {caller : ContractRef} {gas : UInt64} {e : Entry}
    {r : CreateResult} (h : e.prepare env evm caller gas = some (.inl r)) :
    r.evm.trace = evm.trace ∧ r.jumpdests = caller.jumpdests := by
  have hrefuse : ∀ r, refuse env evm caller gas = some r →
      r.evm.trace = evm.trace ∧ r.jumpdests = caller.jumpdests := by
    intro r hr
    unfold refuse at hr
    split_ifs at hr <;> cases hr <;> exact ⟨rfl, rfl⟩
  cases e with
  | call addr input value | callCode addr input value =>
    simp only [prepare] at h
    split at h
    · rename_i hr
      cases h
      exact hrefuse _ hr
    · split_ifs at h <;> cases h
      exact ⟨rfl, rfl⟩
  | delegateCall addr input =>
    simp only [prepare] at h
    split at h
    · rename_i hr
      cases h
      exact hrefuse _ hr
    · obtain ⟨c, -, h⟩ := Option.map_eq_some_iff.mp h
      cases h
  | staticCall addr input =>
    simp only [prepare] at h
    split at h
    · rename_i hr
      cases h
      exact hrefuse _ hr
    · cases h
  | create code value =>
    simp only [prepare] at h
    split_ifs at h <;> cases h <;> exact ⟨rfl, rfl⟩

theorem conclude_spec (env : Env) (outermost : Bool) (l : Launch) (e : Entry) (r : RunResult) :
    (e.conclude env outermost l r).evm.trace = r.evm.trace ∧
      (e.conclude env outermost l r).jumpdests = r.contract.jumpdests := by
  have hsettle : (settle 0 r).evm.trace = r.evm.trace ∧
      (settle 0 r).jumpdests = r.contract.jumpdests := by
    unfold settle
    split
    · exact ⟨rfl, rfl⟩
    · refine ⟨rfl, ?_⟩
      simp only
      rw [apply_ite Contract.jumpdests, Contract.useAllGas_jumpdests, ite_self]
  cases e with
  | call | callCode | delegateCall => exact hsettle
  | staticCall =>
    cases outermost
    · exact hsettle
    · exact hsettle
  | create => exact ⟨rfl, settleCreate_jumpdests ..⟩

end Entry

end MiniEvm
