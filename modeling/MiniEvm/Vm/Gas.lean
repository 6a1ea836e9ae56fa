import MiniEvm.Vm.Evolution
import MiniEvm.Vm.Price

namespace MiniEvm

open Math Framework

/-- The errors that leave the caller the gas that was not used. -/
def VmError.keepsGas : VmError → Bool
  | .executionReverted | .depth | .insufficientBalance => true
  | _ => false

/-- What an entry point called with `gas` may return. -/
structure GasReturned (env : Env) (gas : UInt64) (r : CreateResult) : Prop where
  le : r.leftOverGas.toNat ≤ gas.toNat
  zero : env.isHomestead = true → ∀ e, r.err = some e → e.keepsGas = false → r.leftOverGas = 0

/-- The interpreter below returns no more gas than it was given. -/
def RunGas (run : RunFn) : Prop :=
  ∀ evm c input r, run evm c input = .ok r → r.contract.gas.toNat ≤ c.gas.toNat

theorem Contract.useGas_le {c c' : Contract} {cost : UInt64} (h : c.useGas cost = some c') :
    c'.gas.toNat ≤ c.gas.toNat := by
  have := useGas_eq_some h
  omega

@[simp] theorem Contract.useAllGas_gas (c : Contract) : c.useAllGas.gas = 0 := by
  simp [useAllGas, useGas]

theorem runPrecompiledContract_gas {crypto : Crypto} {p : Precompiled} {input ret : Bytes}
    {err : Option VmError} {c c' : Contract}
    (h : runPrecompiledContract crypto p input c = some (ret, err, c')) :
    c'.gas.toNat ≤ c.gas.toNat := by
  obtain ⟨gas, -, h⟩ := Option.bind_eq_some_iff.mp h
  split at h
  · rename_i c'' hc
    obtain ⟨⟨ret', err'⟩, -, heq⟩ := Option.map_eq_some_iff.mp h
    cases heq
    exact Contract.useGas_le hc
  · cases h
    exact le_refl _

theorem runContract_gas {env : Env} {run : RunFn} (hrun : RunGas run) {evm : Evm} {c : Contract}
    {input : Bytes} {r : RunResult} (h : runContract env run evm c input = .ok r) :
    r.contract.gas.toNat ≤ c.gas.toNat := by
  unfold runContract at h
  simp only at h
  split at h
  · rw [Outcome.ofOption_eq_ok] at h
    obtain ⟨⟨ret, err, c'⟩, hp, rfl⟩ := Option.map_eq_some_iff.mp h
    exact runPrecompiledContract_gas hp
  · exact hrun _ _ _ _ h

/-- A failed call keeps its gas only when it was reverted. -/
theorem settle_gas (env : Env) (snapshot : Int) (r : RunResult) (addr : Address) :
    GasReturned env r.contract.gas ⟨settle snapshot r, addr⟩ := by
  unfold settle
  split
  · rename_i herr
    exact ⟨le_refl _, fun _ e he => by cases he⟩
  · rename_i e herr
    by_cases hrev : e = .executionReverted
    · refine ⟨by simp [hrev], fun _ e' he' hkeep => ?_⟩
      cases he'
      rw [hrev] at hkeep
      cases hkeep
    · exact ⟨by simp [hrev], fun _ _ _ _ => by simp [hrev]⟩

/-- From Homestead on a contract creation that cannot pay for its code fails like any other. -/
theorem settleCreate_gas (env : Env) (snapshot : Int) (addr : Address) (r : RunResult) :
    GasReturned env r.contract.gas (settleCreate env snapshot addr r) := by
  unfold settleCreate
  simp only
  generalize decide (env.isEIP158 = true ∧ r.ret.length > maxCodeSize) = big
  by_cases hstore : r.err = none ∧ !big
  · rw [if_pos hstore]
    obtain rfl : big = false := by simpa using hstore.2
    cases hpay : r.contract.useGas (UInt64.ofNat r.ret.length * createDataGas) with
    | some c =>
      have hle := Contract.useGas_le hpay
      exact ⟨by simpa using hle, fun _ e he => by simp at he⟩
    | none =>
      cases hh : env.isHomestead with
      | false => exact ⟨by simp, fun h => by simp [hh] at h⟩
      | true => exact ⟨by simp, fun _ _ _ _ => by simp⟩
  · rw [if_neg hstore]
    by_cases hrev : r.err = some .executionReverted
    · refine ⟨by simp [hrev], fun _ e he hkeep => ?_⟩
      simp only [hrev, reduceCtorEq, and_false, if_false, Option.some.injEq] at he
      rw [← he] at hkeep
      cases hkeep
    · refine ⟨?_, fun hh e he _ => ?_⟩
      · split_ifs <;> simp
      · have hfails : big = true ∨ r.err ≠ none := by
          cases big with
          | true => exact Or.inl rfl
          | false => exact Or.inr fun hnone => hstore ⟨hnone, rfl⟩
        simp [hh, hrev, hfails]

theorem GasReturned.mono {env : Env} {gas gas' : UInt64} {r : CreateResult}
    (h : GasReturned env gas r) (hle : gas.toNat ≤ gas'.toNat) : GasReturned env gas' r :=
  ⟨h.le.trans hle, h.zero⟩

namespace Entry

variable {env : Env} {run : RunFn} {evm : Evm} {caller : ContractRef} {gas : UInt64} {e : Entry}

theorem refuse_gas {r : CreateResult} (h : refuse env evm caller gas = some r) :
    GasReturned env gas r := by
  unfold refuse at h
  split_ifs at h
  · cases h
    exact ⟨le_refl _, fun _ e he => by cases he⟩
  · cases h
    refine ⟨le_refl _, fun _ e he hkeep => ?_⟩
    cases he
    cases hkeep

theorem stopped_balance {evm : Evm} :
    GasReturned env gas (stopped evm caller gas (some .insufficientBalance) 0) := by
  refine ⟨le_refl _, fun _ e he hkeep => ?_⟩
  cases he
  cases hkeep

/-- An entry point that returns without running anything keeps the gas or reports none left. -/
theorem prepare_stopped {r : CreateResult} (h : e.prepare env evm caller gas = some (.inl r)) :
    GasReturned env gas r := by
  cases e with
  | call addr input value | callCode addr input value =>
    simp only [prepare] at h
    split at h
    · rename_i hr
      cases h
      exact refuse_gas hr
    · split_ifs at h
      · cases h
      · cases h
        exact stopped_balance
  | delegateCall addr input =>
    simp only [prepare] at h
    split at h
    · rename_i hr
      cases h
      exact refuse_gas hr
    · obtain ⟨c, -, h⟩ := Option.map_eq_some_iff.mp h
      cases h
  | staticCall addr input =>
    simp only [prepare] at h
    split at h
    · rename_i hr
      cases h
      exact refuse_gas hr
    · cases h
  | create code value =>
    simp only [prepare] at h
    split_ifs at h
    · cases h
      refine ⟨le_refl _, fun _ e he hkeep => ?_⟩
      cases he
      cases hkeep
    · cases h
      exact ⟨Nat.zero_le _, fun _ _ _ _ => rfl⟩
    · cases h
      exact ⟨le_refl _, fun _ e he => by cases he⟩
    · cases h
    · cases h
      exact stopped_balance

theorem conclude_gas (outermost : Bool) (l : Launch) (r : RunResult) :
    GasReturned env r.contract.gas (e.conclude env outermost l r) := by
  cases e with
  | call | callCode | delegateCall => exact settle_gas ..
  | staticCall =>
    have h := settle_gas env 0 r 0
    cases outermost
    · exact h
    · exact ⟨h.le, h.zero⟩
  | create => exact settleCreate_gas ..

theorem invoke_gas (hrun : RunGas run) {r : CreateResult}
    (h : e.invoke env run evm caller gas = .ok r) : GasReturned env gas r := by
  rw [invoke_eq] at h
  obtain ⟨x, hx, h⟩ := Outcome.bind_eq_ok.mp h
  rw [Outcome.ofOption_eq_ok] at hx
  cases x with
  | inl r' =>
    cases h
    exact prepare_stopped hx
  | inr l =>
    obtain ⟨rr, hrr, h⟩ := Outcome.bind_eq_ok.mp h
    cases h
    apply (conclude_gas (!evm.readOnly) l rr).mono
    rw [← (prepare_launch hx).gas]
    exact runContract_gas hrun hrr

end Entry

/-- `CREATE` splits the gas of its frame. -/
theorem endow_gas (env : Env) (c : Contract) :
    (endow env c).1.toNat + (endow env c).2.gas.toNat = c.gas.toNat := by
  have hle : (endow env c).1 ≤ c.gas := by
    unfold endow
    simp only
    split_ifs
    · rw [UInt64.le_iff_toNat_le, UInt64.toNat_sub_of_le]
      · omega
      · rw [UInt64.le_iff_toNat_le, UInt64.toNat_div]
        exact Nat.div_le_self ..
    · exact UInt64.le_refl _
  cases hu : c.useGas (endow env c).1 with
  | none =>
    unfold Contract.useGas at hu
    split_ifs at hu with hlt
    exact absurd hlt (UInt64.not_lt.mpr hle)
  | some c' =>
    have hrest : (endow env c).2 = c' := by
      change (c.useGas (endow env c).1).getD c = c'
      rw [hu]
      rfl
    rw [hrest]
    exact Contract.useGas_eq_some hu

theorem calleeGas_le (evm : Evm) (value : Int) : (calleeGas evm (u256 value)).toNat ≤
    evm.callGasTemp.toNat + if value = 0 then 0 else 2300 := by
  unfold calleeGas
  by_cases hv : value = 0
  · subst hv
    have hz : u256 0 = 0 := by decide
    simp [hz]
  · rw [if_neg hv]
    split_ifs
    · rw [UInt64.toNat_add]
      exact Nat.mod_le ..
    · omega

section Iteration

variable {env : Env} {run : RunFn} {evm evm' : Evm} {fr fr' : Frame} {op : OpCode} {n : UInt64}

/-- What a call instruction hands over and what it keeps are less than the frame had before. -/
theorem invocation_gas {i : Invocation} (hm : env.disableGasMetering = false)
    (ready : Ready env evm fr op n)
    (charged : charge env (operation op) (evm.attempting fr op) fr n = some (true, evm', fr'))
    (hi : op.invocation env (evm'.executing (fr'.expand n) op) (fr'.expand n) = some i) :
    i.gas.toNat + i.caller.gas.toNat < fr.contract.gas.toNat := by
  obtain ⟨fee, cost, -, hfloor, hpaid⟩ := charge_paid hm ready.size charged
  have hstack : (fr'.expand n).stack = fr.stack := by
    rw [Frame.expand_stack, (charge_spec charged).stack]
  have hpos := env.calls_bounds.1
  have hcontract := fr'.expand_contract n
  unfold OpCode.invocation at hi
  split at hi
  case h_6 => cases hi
  all_goals
    obtain ⟨input, -, rfl⟩ := Option.map_eq_some_iff.mp hi
    simp only [OpCode.floorGas] at hfloor
    simp only [hcontract]
  case h_1 =>
    have hsum := endow_gas env fr'.contract
    omega
  case h_2 _ _ value _ _ _ _ _ hst | h_3 _ _ value _ _ _ _ _ hst =>
    have hback : fr.stack.back 2 = some value := by
      rw [← hstack, hst]
      rfl
    refine lt_of_le_of_lt (Nat.add_le_add_right (calleeGas_le _ value) _) ?_
    change evm'.callGasTemp.toNat + _ + _ < _
    rw [hback] at hfloor
    by_cases hv : value = 0
    · simp only [hv, if_true] at hfloor ⊢
      omega
    · simp only [hv, if_false, Option.some.injEq] at hfloor ⊢
      omega
  case h_4 | h_5 =>
    change evm'.callGasTemp.toNat + _ < _
    omega

/-- Taking back what the callee left does not wrap. -/
theorem resume_gas {i : Invocation} {r : CreateResult} {res : ExecResult} (hrun : RunGas run)
    (hm : env.disableGasMetering = false) (ready : Ready env evm fr op n)
    (charged : charge env (operation op) (evm.attempting fr op) fr n = some (true, evm', fr'))
    (hi : op.invocation env (evm'.executing (fr'.expand n) op) (fr'.expand n) = some i)
    (invoked : i.entry.invoke env run (evm'.executing (fr'.expand n) op) (.contract i.caller) i.gas =
      .ok r)
    (resumed : op.resume env (fr'.expand n) r = .ok res) :
    res.frame.contract.gas.toNat = i.caller.gas.toNat + r.leftOverGas.toNat ∧
      res.frame.contract.gas.toNat < fr.contract.gas.toNat := by
  have hless := invocation_gas hm ready charged hi
  have hleft := (Entry.invoke_gas hrun invoked).le
  have hlt := fr.contract.gas.toNat_lt
  have hgas : res.frame.contract.gas = i.caller.gas + r.leftOverGas := by
    rw [(OpCode.resume_spec resumed).contract, OpCode.invocation_caller hi]
  have hsum : res.frame.contract.gas.toNat = i.caller.gas.toNat + r.leftOverGas.toNat := by
    rw [hgas, UInt64.toNat_add]
    omega
  exact ⟨hsum, by omega⟩

theorem OpCode.floorGas_pos (env : Env) (st : Stack) (temp : UInt64)
    (hh : (operation op).halts = false) (hr : (operation op).reverts = false) :
    0 < op.floorGas env st temp := by
  have hpos := env.calls_bounds.1
  cases op
  case STOP | RETURN | SELFDESTRUCT => cases hh
  case REVERT => cases hr
  case CALL | CALLCODE | DELEGATECALL | STATICCALL =>
    simp only [floorGas]
    omega
  all_goals exact Nat.succ_pos _

/-- An iteration that goes on is one of an instruction that neither halts nor reverts. -/
theorem finish_next_flags {o : Operation} {res : ExecResult} {evm : Evm} {fr : Frame}
    (h : finish o res = .next evm fr) : o.halts = false ∧ o.reverts = false := by
  unfold finish at h
  cases herr : res.err with
  | some e =>
    simp only [herr] at h
    cases h
  | none =>
    simp only [herr] at h
    split_ifs at h with hr hh
    all_goals exact ⟨Bool.eq_false_of_not_eq_true hh, Bool.eq_false_of_not_eq_true hr⟩

/-- No iteration creates gas, and one that goes on spends some. -/
theorem step_gas (hrun : RunGas run) (hm : env.disableGasMetering = false) {s : StepResult}
    (h : step env env.jumpTable run evm fr = .ok s) :
    s.contract.gas.toNat ≤ fr.contract.gas.toNat ∧
      ((∃ evm' fr', s = .next evm' fr') → s.contract.gas.toNat < fr.contract.gas.toNat) := by
  cases step_cases h with
  | rejected => exact ⟨le_refl _, by simp⟩
  | unpaid ready charged =>
    refine ⟨?_, by simp⟩
    rw [StepResult.contract, charge_unpaid charged]
  | @simple op n evm1 fr1 res ready hc charged executed =>
    obtain ⟨fee, cost, -, hfloor, hpaid⟩ := charge_paid hm ready.size charged
    have hgas : (finish (operation op) res).contract.gas = fr1.contract.gas := by
      rw [finish_contract, (execute_simple hc executed).contract, Frame.expand_contract]
    rw [hgas]
    refine ⟨by omega, ?_⟩
    rintro ⟨evm', fr', hnext⟩
    obtain ⟨hh, hr⟩ := finish_next_flags hnext
    have hpos := OpCode.floorGas_pos env fr.stack evm1.callGasTemp hh hr
    omega
  | @call op n evm1 fr1 i r res ready hc charged invocation invoked resumed =>
    have hless := (resume_gas hrun hm ready charged invocation invoked resumed).2
    rw [finish_contract]
    exact ⟨by omega, fun _ => hless⟩

end Iteration

section Runs

variable {env : Env} {run : RunFn}

theorem loop_gas (hrun : RunGas run) (hm : env.disableGasMetering = false) {n : Nat} {evm : Evm}
    {fr : Frame} {r : RunResult} (h : loop env env.jumpTable run n evm fr = .ok r) :
    r.contract.gas.toNat ≤ fr.contract.gas.toNat := by
  induction n generalizing evm fr with
  | zero => cases h
  | succ n ih =>
    unfold loop at h
    split_ifs at h
    · cases h
      exact le_refl _
    · obtain ⟨s, hstep, h⟩ := Outcome.bind_eq_ok.mp h
      have hs := (step_gas hrun hm hstep).1
      cases s with
      | done r' =>
        cases h
        exact hs
      | next evm' fr' => exact (ih h).trans hs

/-- No run of the interpreter creates gas. -/
theorem interpreterRun_gas (hm : env.disableGasMetering = false) (n : Nat) :
    RunGas (interpreterRun env env.jumpTable n) := by
  induction n with
  | zero =>
    intro evm c input r h
    cases h
  | succ n ih =>
    intro evm c input r h
    obtain ⟨r', h', h⟩ := Outcome.bind_eq_ok.mp h
    cases h
    split_ifs at h'
    · cases h'
      exact le_refl _
    · exact loop_gas ih hm h'

/-- The interpreter below always ends for a contract with less than the given gas. -/
def Ends (run : RunFn) (gas : Nat) : Prop :=
  ∀ evm c input, c.gas.toNat < gas → run evm c input ≠ .timeout

theorem Entry.invoke_ends {e : Entry} {evm : Evm} {caller : ContractRef} {gas : UInt64} {k : Nat}
    (hends : Ends run k) (hgas : gas.toNat < k) : e.invoke env run evm caller gas ≠ .timeout := by
  intro h
  rw [invoke_eq] at h
  obtain h | ⟨x, hx, h⟩ := Outcome.bind_eq_timeout.mp h
  · exact Outcome.ofOption_ne_timeout h
  · rw [Outcome.ofOption_eq_ok] at hx
    cases x with
    | inl r => cases h
    | inr l =>
      obtain h | ⟨r, -, h⟩ := Outcome.bind_eq_timeout.mp h
      · unfold runContract at h
        simp only at h
        split at h
        · exact Outcome.ofOption_ne_timeout h
        · exact hends _ _ _ (by rwa [(prepare_launch hx).gas]) h
      · cases h

theorem finishCall_ne_timeout {fr : Frame} {st : Stack} {out outLen : Int} {r : CallResult} :
    finishCall fr st out outLen r ≠ .timeout := by
  intro h
  obtain h | ⟨m, -, h⟩ := Outcome.bind_eq_timeout.mp h
  · exact Outcome.ofOption_ne_timeout h
  · cases h

theorem OpCode.resume_ne_timeout {op : OpCode} {fr : Frame} {r : CreateResult} :
    op.resume env fr r ≠ .timeout := by
  intro h
  unfold resume at h
  split at h
  case h_1 | h_6 => cases h
  all_goals exact finishCall_ne_timeout h

/-- An iteration ends when the interpreter below ends for every callee. -/
theorem step_ends {evm : Evm} {fr : Frame} (hm : env.disableGasMetering = false)
    (hends : Ends run fr.contract.gas.toNat) : step env env.jumpTable run evm fr ≠ .timeout := by
  intro h
  have hshape := step_shape env run evm fr
  rw [h] at hshape
  generalize hx : (Outcome.timeout : Outcome Evm StepResult) = x at hshape
  cases hshape with
  | unfetched | rejected | unpriced | unpaid => cases hx
  | @executed op n evm' fr' ready charged =>
    obtain h | ⟨res, -, h⟩ := Outcome.bind_eq_timeout.mp hx.symm
    · cases hc : op.isCall with
      | false =>
        obtain ⟨f, hf⟩ := execute_eq_simple hc
        rw [hf] at h
        exact Outcome.ofOption_ne_timeout h
      | true =>
        rw [execute_call _ _ _ _ hc] at h
        obtain h | ⟨i, hi, h⟩ := Outcome.bind_eq_timeout.mp h
        · exact Outcome.ofOption_ne_timeout h
        have hless := invocation_gas hm ready charged (Outcome.ofOption_eq_ok.mp hi)
        obtain h | ⟨r, -, h⟩ := Outcome.bind_eq_timeout.mp h
        · exact Entry.invoke_ends hends (by omega) h
        · exact OpCode.resume_ne_timeout h
    · cases h

theorem loop_ends (hrun : RunGas run) (hm : env.disableGasMetering = false) {n : Nat} {evm : Evm}
    {fr : Frame} {k : Nat} (hends : Ends run k) (hk : fr.contract.gas.toNat ≤ k)
    (hn : fr.contract.gas.toNat < n) : loop env env.jumpTable run n evm fr ≠ .timeout := by
  intro h
  induction n generalizing evm fr with
  | zero => omega
  | succ n ih =>
    unfold loop at h
    split_ifs at h
    obtain h | ⟨s, hstep, h⟩ := Outcome.bind_eq_timeout.mp h
    · exact step_ends hm (fun evm' c input hc => hends evm' c input (by omega)) h
    · cases s with
      | done r => cases h
      | next evm' fr' =>
        have hless := (step_gas hrun hm hstep).2 ⟨evm', fr', rfl⟩
        change fr'.contract.gas.toNat < _ at hless
        exact ih (by omega) (by omega) h

/-- Every run of the interpreter ends: the gas bounds the iterations and the nesting. -/
theorem interpreterRun_ends (hm : env.disableGasMetering = false) (n : Nat) :
    Ends (interpreterRun env env.jumpTable (n + 1)) n := by
  induction n with
  | zero =>
    intro evm c input hc
    omega
  | succ n ih =>
    intro evm c input hc h
    obtain h | ⟨r, -, h⟩ := Outcome.bind_eq_timeout.mp h
    · split_ifs at h
      exact loop_ends (interpreterRun_gas hm (n + 1)) hm ih (Nat.le_of_lt_succ hc) hc h
    · cases h

end Runs

end MiniEvm
