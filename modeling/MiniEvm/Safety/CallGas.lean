import MiniEvm.Detectors.ContractUtils
import MiniEvm.Vm.Price

namespace MiniEvm

open Math Framework

namespace OpCode

/-- The gas functions of the call family; `gasDelegateCall` and `gasStaticCall` have one body. -/
def callPrice (gt : GasTable) : OpCode → Option GasFn
  | CALL => some (gasCallWith gt)
  | CALLCODE => some (gasCallCodeWith gt)
  | DELEGATECALL | STATICCALL => some (gasDelegateCallWith gt)
  | _ => none

/-- Whether a `CALL` pays for a new account. -/
def paysNewAccount (env : Env) (db : StateDB) (addr value : Int) : Bool :=
  if env.isEIP158 then value ≠ 0 && db.empty (bigToAddress addr) else !db.exist (bigToAddress addr)

/-- The exact sum of the charges for the call, the new account and the value transfer. -/
def fixedCharges (gt : GasTable) (env : Env) (db : StateDB) (st : Stack) : OpCode → Nat
  | CALL => gt.calls.toNat +
      (if paysNewAccount env db (st.getD 1 0) (st.getD 2 0) then callNewAccountGas.toNat else 0) +
      (if st.getD 2 0 ≠ 0 then callValueTransferGas.toNat else 0)
  | CALLCODE => gt.calls.toNat + (if st.getD 2 0 ≠ 0 then callValueTransferGas.toNat else 0)
  | _ => gt.calls.toNat

end OpCode

/-- All but a 64th of the gas. -/
def allButOne64th (gas : Nat) : Nat := gas - gas / 64

/-- What is handed over, computed from the difference modulo 2^64. -/
theorem callGas_eq {gt : GasTable} (hgt : gt.createBySuicide > 0) (available base : UInt64)
    (callCost : Int) : ∃ temp, callGas gt available base callCost = .ok temp ∧
      temp.toNat = min callCost.natAbs (allButOne64th (available - base).toNat) := by
  have hrest : ((available - base) - (available - base) / 64).toNat =
      allButOne64th (available - base).toNat := by
    rw [UInt64.toNat_sub_of_le, UInt64.toNat_div]
    · rfl
    · rw [UInt64.le_iff_toNat_le, UInt64.toNat_div]
      exact Nat.div_le_self _ _
  have hlt := ((available - base) - (available - base) / 64).toNat_lt
  have hlen := bitLen_le_iff callCost 64
  have hcost := toNat_uint64 callCost
  unfold callGas
  simp only [hgt, true_and, UInt64.lt_iff_toNat_lt]
  by_cases hlong : bitLen callCost > 64
  · rw [if_pos (Or.inl hlong)]
    refine ⟨_, rfl, ?_⟩
    rw [← hrest]
    omega
  · have hfit : callCost.natAbs < 2 ^ 64 := hlen.mp (by omega)
    rw [Nat.mod_eq_of_lt hfit] at hcost
    rw [← hrest]
    split_ifs with h1
    · refine ⟨_, rfl, ?_⟩
      omega
    · refine ⟨_, rfl, ?_⟩
      omega

/-- The price that the call functions end with. -/
theorem chargeCall_cost {gt : GasTable} (hgt : gt.createBySuicide > 0) {evm : Evm} {fr : Frame}
    {mem : Memory} {base cost : UInt64} {callCost : Int}
    (h : (chargeCall gt evm fr mem (.ok base) callCost).cost = .ok cost) :
    cost.toNat = base.toNat + (chargeCall gt evm fr mem (.ok base) callCost).evm.callGasTemp.toNat ∧
    (chargeCall gt evm fr mem (.ok base) callCost).evm.callGasTemp.toNat =
      min callCost.natAbs (allButOne64th (fr.contract.gas - base).toNat) := by
  obtain ⟨temp, htemp, hval⟩ := callGas_eq hgt fr.contract.gas base callCost
  simp only [chargeCall, htemp] at h ⊢
  exact ⟨checked_safeAdd h, hval⟩

/-- Sums that do not wrap are those of the natural numbers. -/
theorem toNat_add_cond {x y : UInt64} {p : Prop} [Decidable p]
    (h : x.toNat + (if p then y.toNat else 0) < 2 ^ 64) :
    (if p then x + y else x).toNat = x.toNat + if p then y.toNat else 0 := by
  split_ifs with hp
  · rw [if_pos hp] at h
    rw [UInt64.toNat_add, Nat.mod_eq_of_lt h]
  · rfl

/-- Every price of the call family ends in `chargeCall` with the exact base price. -/
theorem callPrice_base {gt : GasTable} {op : OpCode} {f : GasFn} {env : Env} {evm : Evm} {fr : Frame}
    {n : UInt64} {g : GasResult} (hf : op.callPrice gt = some f) (hg : f env evm fr n = some g)
    (hfixed : op.fixedCharges gt env evm.stateDB fr.stack < 2 ^ 64) :
    ∃ callCost base mem, fr.stack.back 0 = some callCost ∧ g = chargeCall gt evm fr mem base callCost ∧
      ∀ b, base = .ok b → ∃ fee, (memoryGasCost fr.mem n).1 = .ok fee ∧
        b.toNat = op.fixedCharges gt env evm.stateDB fr.stack + fee.toNat := by
  cases op
  case CALL =>
    cases hf
    obtain ⟨value, hv, hg⟩ := Option.bind_eq_some_iff.mp hg
    obtain ⟨addr, ha, hg⟩ := Option.bind_eq_some_iff.mp hg
    obtain ⟨callCost, hc, rfl⟩ := Option.map_eq_some_iff.mp hg
    refine ⟨callCost, _, _, hc, rfl, ?_⟩
    intro b hb
    obtain ⟨fee, hfee, hsum⟩ := bind_eq_ok.mp hb
    refine ⟨fee, hfee, ?_⟩
    rw [checked_safeAdd hsum]
    have hv' : fr.stack.getD 2 0 = value := by
      rw [List.getD_eq_getElem?_getD, ← Stack.back, hv]; rfl
    have ha' : fr.stack.getD 1 0 = addr := by
      rw [List.getD_eq_getElem?_getD, ← Stack.back, ha]; rfl
    have hnew : (if env.isEIP158 then
          if (decide (value ≠ 0) && evm.stateDB.empty (bigToAddress addr)) then
            gt.calls + callNewAccountGas else gt.calls
        else if (!evm.stateDB.exist (bigToAddress addr)) then gt.calls + callNewAccountGas
        else gt.calls) =
        if OpCode.paysNewAccount env evm.stateDB addr value then gt.calls + callNewAccountGas
        else gt.calls := by
      unfold OpCode.paysNewAccount
      by_cases h158 : env.isEIP158 = true <;> simp [h158]
    simp only [OpCode.fixedCharges, hv', ha'] at hfixed ⊢
    have hfirst := toNat_add_cond (x := gt.calls) (y := callNewAccountGas)
      (p := OpCode.paysNewAccount env evm.stateDB addr value = true) (by omega)
    rw [← hfirst] at hfixed ⊢
    rw [← toNat_add_cond hfixed]
    simp only [hnew, decide_eq_true_eq]
  case CALLCODE =>
    cases hf
    obtain ⟨value, hv, hg⟩ := Option.bind_eq_some_iff.mp hg
    obtain ⟨callCost, hc, rfl⟩ := Option.map_eq_some_iff.mp hg
    refine ⟨callCost, _, _, hc, rfl, ?_⟩
    intro b hb
    obtain ⟨fee, hfee, hsum⟩ := bind_eq_ok.mp hb
    refine ⟨fee, hfee, ?_⟩
    have hv' : fr.stack.getD 2 0 = value := by
      rw [List.getD_eq_getElem?_getD, ← Stack.back, hv]; rfl
    simp only [OpCode.fixedCharges, hv'] at hfixed ⊢
    rw [checked_safeAdd hsum, ← toNat_add_cond hfixed]
  case DELEGATECALL | STATICCALL =>
    cases hf
    obtain ⟨callCost, hc, rfl⟩ := Option.map_eq_some_iff.mp hg
    refine ⟨callCost, _, _, hc, rfl, ?_⟩
    intro b hb
    obtain ⟨fee, hfee, hsum⟩ := bind_eq_ok.mp hb
    refine ⟨fee, hfee, ?_⟩
    rw [checked_safeAdd hsum, Nat.add_comm]
    rfl
  all_goals cases hf

/-- The price is computed whenever the operands are there. -/
theorem callPrice_isSome {gt : GasTable} {op : OpCode} {f : GasFn} {fr : Frame}
    (hf : op.callPrice gt = some f) (hstack : (operation op).pop ≤ fr.stack.length) (env : Env)
    (evm : Evm) (n : UInt64) : ∃ g, f env evm fr n = some g := by
  cases op
  case CALL =>
    cases hf
    obtain ⟨a, b, c, d, e, f, g, rest, hst⟩ := Stack.exists_seven hstack
    simp [gasCallWith, hst, Stack.back]
  case CALLCODE =>
    cases hf
    obtain ⟨a, b, c, d, e, f, g, rest, hst⟩ := Stack.exists_seven hstack
    simp [gasCallCodeWith, hst, Stack.back]
  case DELEGATECALL | STATICCALL =>
    cases hf
    obtain ⟨a, b, c, d, e, f, rest, hst⟩ := Stack.exists_six hstack
    simp [gasDelegateCallWith, hst, Stack.back]
  all_goals cases hf

/-- A price without an error contains the base price exactly. -/
theorem callPrice_cost {gt : GasTable} (hgt : gt.createBySuicide > 0) {op : OpCode} {f : GasFn}
    {env : Env} {evm : Evm} {fr : Frame} {n cost : UInt64} {g : GasResult}
    (hf : op.callPrice gt = some f) (hg : f env evm fr n = some g)
    (hfixed : op.fixedCharges gt env evm.stateDB fr.stack < 2 ^ 64) (hcost : g.cost = .ok cost) :
    ∃ callCost base fee, fr.stack.back 0 = some callCost ∧ (memoryGasCost fr.mem n).1 = .ok fee ∧
      base.toNat = op.fixedCharges gt env evm.stateDB fr.stack + fee.toNat ∧
      cost.toNat = base.toNat + g.evm.callGasTemp.toNat ∧
      g.evm.callGasTemp.toNat =
        min callCost.natAbs (allButOne64th (fr.contract.gas - base).toNat) := by
  obtain ⟨callCost, b, mem, hc, rfl, hbase⟩ := callPrice_base hf hg hfixed
  cases b with
  | error e => cases hcost
  | ok base =>
    obtain ⟨fee, hfee, hb⟩ := hbase base rfl
    obtain ⟨hsum, htemp⟩ := chargeCall_cost hgt hcost
    exact ⟨callCost, base, fee, hc, hfee, hb, hsum, htemp⟩

/-- The 63/64 rule: a call that is paid for has a base price that the gas covers, and hands over the
smaller of the request and all but a 64th of the rest; a base price beyond the gas ends the frame. -/
theorem callGas_exact {gt : GasTable} (hgt : gt.createBySuicide > 0) {op : OpCode} {f : GasFn}
    (hf : op.callPrice gt = some f) (env : Env) (evm : Evm) (fr : Frame) (n : UInt64)
    (hfixed : op.fixedCharges gt env evm.stateDB fr.stack < 2 ^ 64) :
    (∀ g cost c, f env evm fr n = some g → g.cost = .ok cost → fr.contract.useGas cost = some c →
      ∃ callCost fee, fr.stack.back 0 = some callCost ∧ (memoryGasCost fr.mem n).1 = .ok fee ∧
        op.fixedCharges gt env evm.stateDB fr.stack + fee.toNat ≤ fr.contract.gas.toNat ∧
        g.evm.callGasTemp.toNat = min callCost.natAbs (allButOne64th (fr.contract.gas.toNat -
          (op.fixedCharges gt env evm.stateDB fr.stack + fee.toNat))) ∧
        cost.toNat = op.fixedCharges gt env evm.stateDB fr.stack + fee.toNat +
          g.evm.callGasTemp.toNat) ∧
    ∀ (run : RunFn) (fee : UInt64), env.disableGasMetering = false →
      (operation op).pop ≤ fr.stack.length → (memoryGasCost fr.mem n).1 = .ok fee →
      fr.contract.gas.toNat < op.fixedCharges gt env evm.stateDB fr.stack + fee.toNat →
        ∃ evm' c, perform env run evm fr ⟨op, { operation op with gasCost := f }, n⟩ =
          .ok (.done ⟨[], some .outOfGas, evm', c⟩) := by
  constructor
  · intro g cost c hg hcost hpaid
    obtain ⟨callCost, base, fee, hc, hfee, hb, hsum, htemp⟩ := callPrice_cost hgt hf hg hfixed hcost
    have hle : cost.toNat ≤ fr.contract.gas.toNat := by
      have hpay := Contract.useGas_eq_some hpaid
      omega
    have hrest : (fr.contract.gas - base).toNat = fr.contract.gas.toNat - base.toNat := by
      apply UInt64.toNat_sub_of_le
      rw [UInt64.le_iff_toNat_le]
      omega
    rw [hrest, hb] at htemp
    exact ⟨callCost, fee, hc, hfee, by omega, htemp, by omega⟩
  · intro run fee hmeter hstack hfee hlt
    obtain ⟨g, hg⟩ := callPrice_isSome hf hstack env (evm.attempting fr op) n
    have hcharge : ∃ evm' fr', charge env { operation op with gasCost := f }
        (evm.attempting fr op) fr n =
        some (false, evm', fr') := by
      refine ⟨g.evm, { fr with mem := g.mem }, ?_⟩
      simp only [charge, hmeter, Bool.false_eq_true, if_false, hg, Option.map_some]
      cases hcost : g.cost with
      | error e => rfl
      | ok cost =>
        obtain ⟨callCost, base, fee', -, hfee', hb, hsum, -⟩ := callPrice_cost hgt hf hg hfixed hcost
        obtain rfl : fee = fee' := by
          rw [hfee] at hfee'
          exact Except.ok.inj hfee'
        have hb' : base.toNat = op.fixedCharges gt env evm.stateDB fr.stack + fee.toNat := hb
        have hshort : fr.contract.gas < cost := by
          rw [UInt64.lt_iff_toNat_lt]
          omega
        simp only [Contract.useGas, if_pos hshort]
    obtain ⟨evm', fr', hcharge⟩ := hcharge
    refine ⟨evm', fr'.contract, ?_⟩
    unfold Evm.attempting at hcharge
    simp only [perform, hcharge, Outcome.ofOption_some, Outcome.bind_ok, Bool.false_eq_true, if_false]

/-- A frame about to call 0x200 with value 1 and more gas than there is. -/
def calling : Frame :=
  (Frame.start (Contract.new (.account 7) 0x100 0 100000) []).withStack [2 ^ 255, 0x200, 1, 0, 0, 0, 0]

theorem callGas_exact_calling : ∃ g cost c,
    gasCallWith gasTableEIP158 sampleEnv (Evm.new StateDB.new) calling 0 = some g ∧
    g.cost = .ok cost ∧ calling.contract.useGas cost = some c ∧
    ∃ callCost fee, calling.stack.back 0 = some callCost ∧
      (memoryGasCost calling.mem 0).1 = .ok fee ∧
      OpCode.CALL.fixedCharges gasTableEIP158 sampleEnv StateDB.new calling.stack + fee.toNat ≤
        calling.contract.gas.toNat ∧
      g.evm.callGasTemp.toNat = min callCost.natAbs (allButOne64th (calling.contract.gas.toNat -
        (OpCode.CALL.fixedCharges gasTableEIP158 sampleEnv StateDB.new calling.stack + fee.toNat))) ∧
      cost.toNat = OpCode.CALL.fixedCharges gasTableEIP158 sampleEnv StateDB.new calling.stack +
        fee.toNat + g.evm.callGasTemp.toNat := by
  have hgt : gasTableEIP158.createBySuicide > 0 := by decide
  have hcall : OpCode.CALL.callPrice gasTableEIP158 = some (gasCallWith gasTableEIP158) := rfl
  have hexact := (callGas_exact hgt hcall sampleEnv (Evm.new StateDB.new) calling 0 (by decide)).1
  exact ⟨_, _, _, rfl, rfl, rfl, hexact _ _ _ rfl rfl rfl⟩

/-- No table of the source, whose calls cost at most 700, but one the type allows. -/
def gasTableWrapping : GasTable := { gasTableEIP158 with calls := 2 ^ 64 - 1 }

/-- With that table the fixed charges wrap, and a call that nobody could pay for is paid. -/
theorem gasCall_wraps : gasTableWrapping.createBySuicide > 0 ∧ ∃ g cost c,
    gasCallWith gasTableWrapping sampleEnv (Evm.new StateDB.new) calling 0 = some g ∧
    g.cost = .ok cost ∧ calling.contract.useGas cost = some c ∧
    calling.contract.gas.toNat <
      OpCode.CALL.fixedCharges gasTableWrapping sampleEnv StateDB.new calling.stack := by
  have hpaid : ((gasCallWith gasTableWrapping sampleEnv (Evm.new StateDB.new) calling 0).any fun g =>
      g.cost.toOption.any fun cost => (calling.contract.useGas cost).isSome) = true := by
    decide +kernel
  obtain ⟨g, hg, hcost⟩ := Option.any_eq_true .. |>.mp hpaid
  obtain ⟨cost, hok, hgas⟩ := Option.any_eq_true .. |>.mp hcost
  obtain ⟨c, hc⟩ := Option.isSome_iff_exists.mp hgas
  refine ⟨by decide, g, cost, c, hg, ?_, hc, by decide +kernel⟩
  cases hcase : g.cost with
  | error e =>
    rw [hcase] at hok
    cases hok
  | ok x =>
    rw [hcase] at hok
    cases hok
    rfl

end MiniEvm
