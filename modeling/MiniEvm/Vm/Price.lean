import MiniEvm.Vm.MemoryRegion

namespace MiniEvm

open Math Framework

theorem bind_eq_ok {x : Except VmError UInt64} {f : UInt64 → Except VmError UInt64} {c : UInt64} :
    (x >>= f) = .ok c ↔ ∃ a, x = .ok a ∧ f a = .ok c := by
  cases x <;> simp [bind, Except.bind]

theorem checked_safeAdd {x y c : UInt64} (h : checked (safeAdd x y) = .ok c) :
    c.toNat = x.toNat + y.toNat := by
  obtain ⟨hno, rfl⟩ := checked_eq_ok.mp h
  exact safeAdd_ok x y hno

/-- The price contains the memory fee and at least `base` more. -/
def Priced (fr : Frame) (n : UInt64) (g : GasResult) (c : UInt64) (base : Nat) : Prop :=
  ∃ fee, memoryGasCost fr.mem n = (.ok fee, g.mem) ∧ fee.toNat + base ≤ c.toNat

namespace Priced

variable {env : Env} {evm : Evm} {fr : Frame} {n c : UInt64} {g : GasResult} {base : Nat}

theorem of_memoryless (hn : n = 0) (hmem : g.mem = fr.mem) (hc : base ≤ c.toNat) :
    Priced fr n g c base := by
  refine ⟨0, ?_, ?_⟩
  · rw [hmem]
    simp [memoryGasCost, hn]
  · simpa using hc

theorem of_memoryGasFunc {b : UInt64} (h : memoryGasFunc b env evm fr n = some g)
    (hc : g.cost = .ok c) (hb : base ≤ b.toNat) : Priced fr n g c base := by
  cases h
  obtain ⟨fee, hfee, hsum⟩ := bind_eq_ok.mp hc
  have := checked_safeAdd hsum
  exact ⟨fee, Prod.ext hfee rfl, by omega⟩

theorem of_wordsGasFunc {b : GasTable → UInt64} {i : Nat} {perWord : UInt64}
    (h : wordsGasFunc b i perWord env evm fr n = some g) (hc : g.cost = .ok c)
    (hb : base ≤ (b env.gasTable).toNat) : Priced fr n g c base := by
  obtain ⟨l, -, rfl⟩ := Option.map_eq_some_iff.mp h
  obtain ⟨fee, hfee, hc⟩ := bind_eq_ok.mp hc
  obtain ⟨gas, hgas, hc⟩ := bind_eq_ok.mp hc
  obtain ⟨words, -, hc⟩ := bind_eq_ok.mp hc
  obtain ⟨price, -, hsum⟩ := bind_eq_ok.mp hc
  have hg := checked_safeAdd hgas
  have hs := checked_safeAdd hsum
  exact ⟨fee, Prod.ext hfee rfl, by omega⟩

theorem of_makeGasLog {k : UInt64} (h : makeGasLog k env evm fr n = some g) (hc : g.cost = .ok c)
    (hb : base ≤ 375) : Priced fr n g c base := by
  obtain ⟨l, -, rfl⟩ := Option.map_eq_some_iff.mp h
  split at hc
  · cases hc
  · obtain ⟨fee, hfee, hc⟩ := bind_eq_ok.mp hc
    obtain ⟨gas, hgas, hc⟩ := bind_eq_ok.mp hc
    obtain ⟨topics, htopics, hc⟩ := bind_eq_ok.mp hc
    obtain ⟨data, -, hsum⟩ := bind_eq_ok.mp hc
    have hg := checked_safeAdd hgas
    have ht := checked_safeAdd htopics
    have hs := checked_safeAdd hsum
    have hlog : logGas.toNat = 375 := rfl
    exact ⟨fee, by simp [← hfee], by omega⟩

theorem of_chargeCall {x : Except VmError UInt64} {callCost : Int} {b : Nat}
    (hx : ∀ gas, x = .ok gas →
      ∃ fee, (memoryGasCost fr.mem n).1 = .ok fee ∧ fee.toNat + b ≤ gas.toNat)
    (hg : g = chargeCall env.gasTable evm fr (memoryGasCost fr.mem n).2 x callCost)
    (hc : g.cost = .ok c) :
    Priced fr n g c (b + g.evm.callGasTemp.toNat) := by
  subst hg
  cases x with
  | error e => cases hc
  | ok gas =>
    obtain ⟨fee, hfee, hgas⟩ := hx gas rfl
    cases ht : callGas env.gasTable fr.contract.gas gas callCost with
    | error e => simp [chargeCall, ht] at hc
    | ok temp =>
      simp only [chargeCall, ht] at hc ⊢
      have hs := checked_safeAdd hc
      exact ⟨fee, Prod.ext hfee rfl, by omega⟩

end Priced

/-- What an instruction costs at least, on top of the memory fee: the halting instructions may be
free, and a call pays for the gas that it hands over. -/
def OpCode.floorGas (op : OpCode) (env : Env) (st : Stack) (callGasTemp : UInt64) : Nat :=
  match op with
  | STOP | RETURN | REVERT | SELFDESTRUCT => 0
  | CREATE => 32000
  | CALL | CALLCODE =>
    env.gasTable.calls.toNat + (if st.back 2 = some 0 then 0 else 9000) + callGasTemp.toNat
  | DELEGATECALL | STATICCALL => env.gasTable.calls.toNat + callGasTemp.toNat
  | _ => 1

theorem Env.calls_bounds (env : Env) :
    0 < env.gasTable.calls.toNat ∧ env.gasTable.calls.toNat ≤ 700 := by
  have hpos := (gasTable_pos env.chainConfig env.blockNumber).2.2.2.2
  have hle := gasTable_calls_le env.chainConfig env.blockNumber
  rw [UInt64.lt_iff_toNat_lt] at hpos
  rw [UInt64.le_iff_toNat_le] at hle
  exact ⟨hpos, hle⟩

/-- The fixed part of a call's price; the numbers are too small to wrap. -/
theorem callPrice_le (gas : UInt64) (value : Int) (hle : gas.toNat ≤ 25700) :
    gas.toNat + (if value = 0 then 0 else 9000) ≤
      (if value ≠ 0 then gas + callValueTransferGas else gas).toNat := by
  by_cases hv : value = 0
  · simp [hv]
  · rw [if_neg hv, if_pos hv, UInt64.toNat_add]
    change gas.toNat + 9000 ≤ (gas.toNat + 9000) % 2^64
    omega

theorem newAccountPrice_le (env : Env) {gas : UInt64}
    (h : gas = env.gasTable.calls ∨ gas = env.gasTable.calls + callNewAccountGas) :
    env.gasTable.calls.toNat ≤ gas.toNat ∧ gas.toNat ≤ 25700 := by
  obtain ⟨-, hle⟩ := env.calls_bounds
  rcases h with rfl | rfl
  · omega
  · rw [UInt64.toNat_add]
    change _ ≤ (env.gasTable.calls.toNat + 25000) % 2^64 ∧
      (env.gasTable.calls.toNat + 25000) % 2^64 ≤ 25700
    omega

theorem Priced.mono {fr : Frame} {n c : UInt64} {g : GasResult} {b b' : Nat}
    (h : Priced fr n g c b) (hle : b' ≤ b) : Priced fr n g c b' := by
  obtain ⟨fee, hfee, hc⟩ := h
  exact ⟨fee, hfee, by omega⟩

private theorem gasCall_priced {env : Env} {evm : Evm} {fr : Frame} {n c : UInt64} {g : GasResult}
    (h : gasCall env evm fr n = some g) (hc : g.cost = .ok c) :
    Priced fr n g c (OpCode.CALL.floorGas env fr.stack g.evm.callGasTemp) := by
  obtain ⟨value, hv, h⟩ := Option.bind_eq_some_iff.mp h
  obtain ⟨addr, -, h⟩ := Option.bind_eq_some_iff.mp h
  obtain ⟨callCost, -, hg⟩ := Option.map_eq_some_iff.mp h
  refine (Priced.of_chargeCall ?_ hg.symm hc).mono (b := env.gasTable.calls.toNat +
    (if value = 0 then 0 else 9000) + g.evm.callGasTemp.toNat) ?_
  · intro gas hgas
    obtain ⟨fee, hfee, hsum⟩ := bind_eq_ok.mp hgas
    refine ⟨fee, hfee, ?_⟩
    have hs := checked_safeAdd hsum
    simp only [decide_eq_true_eq] at hs
    generalize hx : (if env.isEIP158 = true then _ else _ : UInt64) = x at hs
    have hx' : x = env.gasTable.calls ∨ x = env.gasTable.calls + callNewAccountGas := by
      rw [← hx]
      split_ifs <;> simp
    have hnew := newAccountPrice_le env hx'
    have hprice := callPrice_le x value hnew.2
    omega
  · simp [OpCode.floorGas, hv]

private theorem gasCallCode_priced {env : Env} {evm : Evm} {fr : Frame} {n c : UInt64}
    {g : GasResult} (h : gasCallCode env evm fr n = some g) (hc : g.cost = .ok c) :
    Priced fr n g c (OpCode.CALLCODE.floorGas env fr.stack g.evm.callGasTemp) := by
  obtain ⟨value, hv, h⟩ := Option.bind_eq_some_iff.mp h
  obtain ⟨callCost, -, hg⟩ := Option.map_eq_some_iff.mp h
  refine (Priced.of_chargeCall ?_ hg.symm hc).mono (b := env.gasTable.calls.toNat +
    (if value = 0 then 0 else 9000) + g.evm.callGasTemp.toNat) ?_
  · intro gas hgas
    obtain ⟨fee, hfee, hsum⟩ := bind_eq_ok.mp hgas
    refine ⟨fee, hfee, ?_⟩
    have hs := checked_safeAdd hsum
    have hnew := newAccountPrice_le env (Or.inl rfl)
    have hprice := callPrice_le env.gasTable.calls value hnew.2
    omega
  · simp [OpCode.floorGas, hv]

private theorem gasDelegateCall_priced {env : Env} {evm : Evm} {fr : Frame} {n c : UInt64}
    {g : GasResult} (h : gasDelegateCall env evm fr n = some g) (hc : g.cost = .ok c) :
    Priced fr n g c (env.gasTable.calls.toNat + g.evm.callGasTemp.toNat) := by
  obtain ⟨callCost, -, hg⟩ := Option.map_eq_some_iff.mp h
  refine Priced.of_chargeCall ?_ hg.symm hc
  intro gas hgas
  obtain ⟨fee, hfee, hsum⟩ := bind_eq_ok.mp hgas
  have hs := checked_safeAdd hsum
  exact ⟨fee, hfee, by omega⟩

private theorem tableGasFunc_priced {p : GasTable → UInt64} {env : Env} {evm : Evm} {fr : Frame}
    {n c : UInt64} {g : GasResult} (h : tableGasFunc p env evm fr n = some g) (hc : g.cost = .ok c)
    (hn : n = 0) (hp : 0 < p env.gasTable) : Priced fr n g c 1 := by
  cases h
  cases hc
  exact .of_memoryless hn rfl (UInt64.lt_iff_toNat_lt.mp hp)

private theorem gasSStore_priced {env : Env} {evm : Evm} {fr : Frame} {n c : UInt64}
    {g : GasResult} (h : gasSStore env evm fr n = some g) (hc : g.cost = .ok c) (hn : n = 0) :
    Priced fr n g c 1 := by
  obtain ⟨y, -, h⟩ := Option.bind_eq_some_iff.mp h
  obtain ⟨x, -, rfl⟩ := Option.map_eq_some_iff.mp h
  cases hc
  apply Priced.of_memoryless hn rfl
  split_ifs <;> decide

private theorem gasExp_priced {env : Env} {evm : Evm} {fr : Frame} {n c : UInt64}
    {g : GasResult} (h : gasExp env evm fr n = some g) (hc : g.cost = .ok c) (hn : n = 0) :
    Priced fr n g c 1 := by
  obtain ⟨e, -, rfl⟩ := Option.map_eq_some_iff.mp h
  simp only at hc
  have hs := checked_safeAdd hc
  have hslow : gasSlowStep.toNat = 10 := rfl
  exact .of_memoryless hn rfl (by omega)

/-- One lower bound for all gas functions of all forks. -/
theorem gasCost_priced {op : OpCode} {env : Env} {evm : Evm} {fr : Frame} {n c : UInt64}
    {g : GasResult} (h : (operation op).gasCost env evm fr n = some g) (hc : g.cost = .ok c)
    (hn : (operation op).memorySize = none → n = 0) :
    Priced fr n g c (op.floorGas env fr.stack g.evm.callGasTemp) := by
  have htable := gasTable_pos env.chainConfig env.blockNumber
  cases op
  all_goals simp only [operation, entry] at h
  case CALL => exact gasCall_priced h hc
  case CALLCODE => exact gasCallCode_priced h hc
  case DELEGATECALL | STATICCALL => exact gasDelegateCall_priced h hc
  case CREATE | MLOAD | MSTORE | MSTORE8 => exact .of_memoryGasFunc h hc (Nat.le_of_ble_eq_true rfl)
  case SHA3 | CALLDATACOPY | CODECOPY | RETURNDATACOPY =>
    exact .of_wordsGasFunc h hc (Nat.le_of_ble_eq_true rfl)
  case EXTCODECOPY => exact .of_wordsGasFunc h hc (UInt64.lt_iff_toNat_lt.mp htable.2.1)
  case LOG k => exact .of_makeGasLog h hc (by simp [OpCode.floorGas])
  case RETURN | REVERT =>
    cases h
    exact ⟨c, Prod.ext hc rfl, le_refl _⟩
  case SELFDESTRUCT =>
    obtain ⟨x, -, rfl⟩ := Option.map_eq_some_iff.mp h
    exact .of_memoryless (hn rfl) rfl (Nat.zero_le _)
  case BALANCE => exact tableGasFunc_priced h hc (hn rfl) htable.2.2.1
  case EXTCODESIZE => exact tableGasFunc_priced h hc (hn rfl) htable.1
  case SLOAD => exact tableGasFunc_priced h hc (hn rfl) htable.2.2.2.1
  case SSTORE => exact gasSStore_priced h hc (hn rfl)
  case EXP => exact gasExp_priced h hc (hn rfl)
  all_goals
    cases h
    cases hc
    exact .of_memoryless (hn rfl) rfl (Nat.le_of_ble_eq_true rfl)

theorem Contract.useGas_eq_some {c c' : Contract} {cost : UInt64} (h : c.useGas cost = some c') :
    cost.toNat + c'.gas.toNat = c.gas.toNat := by
  unfold useGas at h
  split_ifs at h with hlt
  cases h
  rw [UInt64.not_lt] at hlt
  have hle := UInt64.le_iff_toNat_le.mp hlt
  rw [UInt64.toNat_sub_of_le _ _ hlt]
  omega

/-- What is paid: the memory fee and at least the floor, without wrapping. -/
theorem charge_paid {op : OpCode} {env : Env} {evm evm' : Evm} {fr fr' : Frame} {n : UInt64}
    (hm : env.disableGasMetering = false)
    (hn : memorySizeFor (operation op) fr.stack = some (.ok n))
    (h : charge env (operation op) evm fr n = some (true, evm', fr')) :
    ∃ fee cost : UInt64, memoryGasCost fr.mem n = (.ok fee, fr'.mem) ∧
      fee.toNat + op.floorGas env fr.stack evm'.callGasTemp ≤ cost.toNat ∧
      cost.toNat + fr'.contract.gas.toNat = fr.contract.gas.toNat := by
  unfold charge at h
  rw [hm, if_neg (by decide)] at h
  obtain ⟨g, hg, h⟩ := Option.map_eq_some_iff.mp h
  split at h
  · cases h
  · rename_i cost hcost
    simp only at h
    split at h
    · cases h
    · rename_i c hc
      cases h
      obtain ⟨fee, hfee, hle⟩ := gasCost_priced hg hcost fun hnone => memorySizeFor_none hnone hn
      exact ⟨fee, cost, hfee, hle, Contract.useGas_eq_some hc⟩

/-- Nothing is taken when the price cannot be paid. -/
theorem charge_unpaid {o : Operation} {env : Env} {evm evm' : Evm} {fr fr' : Frame} {n : UInt64}
    (h : charge env o evm fr n = some (false, evm', fr')) : fr'.contract = fr.contract := by
  unfold charge at h
  split_ifs at h
  · cases h
  obtain ⟨g, hg, h⟩ := Option.map_eq_some_iff.mp h
  split at h
  · cases h
    rfl
  · simp only at h
    split at h
    · cases h
      rfl
    · cases h

/-- The stack check leaves the operands that the price is computed from. -/
theorem gasCost_total {op : OpCode} {env : Env} {evm : Evm} {fr : Frame} {n : UInt64}
    (hlen : (operation op).pop ≤ fr.stack.length) :
    ∃ g, (operation op).gasCost env evm fr n = some g := by
  obtain ⟨pc, st, mem, contract⟩ := fr
  cases op
  case BALANCE | EXTCODESIZE | SLOAD | MLOAD | MSTORE | MSTORE8 | CREATE | RETURN | REVERT =>
    exact ⟨_, rfl⟩
  case SELFDESTRUCT =>
    match st, hlen with
    | _ :: _, _ => exact ⟨_, rfl⟩
  case SHA3 | EXP | SSTORE =>
    match st, hlen with
    | _ :: _ :: _, _ => exact ⟨_, rfl⟩
  case LOG n =>
    match st, (le_trans (Nat.le_add_left 2 n) hlen) with
    | _ :: _ :: _, _ => exact ⟨_, rfl⟩
  case CALLDATACOPY | CODECOPY | RETURNDATACOPY =>
    match st, hlen with
    | _ :: _ :: _ :: _, _ => exact ⟨_, rfl⟩
  case EXTCODECOPY =>
    match st, hlen with
    | _ :: _ :: _ :: _ :: _, _ => exact ⟨_, rfl⟩
  case DELEGATECALL | STATICCALL =>
    match st, hlen with
    | _ :: _ :: _ :: _ :: _ :: _ :: _, _ => exact ⟨_, rfl⟩
  case CALL | CALLCODE =>
    match st, hlen with
    | _ :: _ :: _ :: _ :: _ :: _ :: _ :: _, _ => exact ⟨_, rfl⟩
  all_goals exact ⟨_, rfl⟩

/-- Computing and paying the gas never panics. -/
theorem charge_total {op : OpCode} {env : Env} {evm : Evm} {fr : Frame} {n : UInt64} (m : Evm)
    (ready : Ready env evm fr op n) : ∃ x, charge env (operation op) m fr n = some x := by
  unfold charge
  split_ifs
  · exact ⟨_, rfl⟩
  · obtain ⟨g, hg⟩ := gasCost_total (Stack.length_of_validate ready.valid)
    rw [hg]
    exact ⟨_, rfl⟩

end MiniEvm
