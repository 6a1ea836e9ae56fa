import MiniEvm.Detectors.ContractUtils
import MiniEvm.Framework.Added
import MiniEvm.Vm.Fuel
import MiniEvm.Vm.Gas
import MiniEvm.Vm.MemoryEffects

namespace MiniEvm

open Math Framework

/-! ## Precompiled contracts -/

/-- A field of `size` bytes from `start` on, which is cut to the data, ends past the last number of 64
bits. -/
def FieldWraps (data : Bytes) (start size : UInt64) : Prop :=
  2 ^ 64 ≤ min start.toNat (data.length % 2 ^ 64) + size.toNat

instance (data : Bytes) (start size : UInt64) : Decidable (FieldWraps data start size) :=
  inferInstanceAs (Decidable (2 ^ 64 ≤ _))

theorem getData_eq_none {data : Bytes} {start size : UInt64} :
    getData data start size = none ↔ FieldWraps data start size := by
  have hlength : (UInt64.ofNat data.length).toNat = data.length % 2 ^ 64 := UInt64.toNat_ofNat'
  have hle : data.length % 2 ^ 64 ≤ data.length := Nat.mod_le _ _
  have hmin : ∀ x : UInt64, (if x > UInt64.ofNat data.length then UInt64.ofNat data.length
      else x).toNat = min x.toNat (data.length % 2 ^ 64) := by
    intro x
    split_ifs with h
    · rw [gt_iff_lt, UInt64.lt_iff_toNat_lt, hlength] at h
      rw [hlength]
      omega
    · rw [gt_iff_lt, UInt64.lt_iff_toNat_lt, hlength] at h
      omega
  have hsize := size.toNat_lt
  rw [getData, Option.map_eq_none_iff, FieldWraps]
  simp only [hmin, UInt64.toNat_add]
  rw [slice, ite_eq_right_iff]
  simp only [reduceCtorEq, imp_false]
  omega

namespace BigModExp

/-- A modular exponentiation on lengths whose fields wrap: the head of the exponent is sliced for the
price, the operands only after it was paid, and only if there is anything to compute. -/
def Overruns (gas : UInt64) (input : Bytes) : Prop :=
  match lengths input with
  | none => False
  | some (baseLen, expLen, modLen) =>
    (baseLen < (body input).length ∧
      FieldWraps (body input) (uint64 baseLen) (if expLen > 32 then 32 else uint64 expLen)) ∨
    ((requiredGas input).any (· ≤ gas) = true ∧ ¬(uint64 baseLen = 0 ∧ uint64 modLen = 0) ∧
      (FieldWraps (body input) (uint64 baseLen) (uint64 expLen) ∨
        FieldWraps (body input) (uint64 baseLen + uint64 expLen) (uint64 modLen)))

instance (gas : UInt64) (input : Bytes) : Decidable (Overruns gas input) := by
  unfold Overruns
  split <;> infer_instance

theorem getData_small (data : Bytes) (start size : UInt64) (h : start.toNat + size.toNat < 2 ^ 64) :
    ∃ b, getData data start size = some b := by
  rw [← Option.ne_none_iff_exists', ne_eq, getData_eq_none, FieldWraps]
  omega

theorem lengths_total (input : Bytes) :
    ∃ baseLen expLen modLen, lengths input = some (baseLen, expLen, modLen) := by
  obtain ⟨b, hb⟩ := getData_small input 0 32 (by decide)
  obtain ⟨e, he⟩ := getData_small input 32 32 (by decide)
  obtain ⟨m, hm⟩ := getData_small input 64 32 (by decide)
  refine ⟨ofBytes b, ofBytes e, ofBytes m, ?_⟩
  simp only [lengths, hb, he, hm]
  rfl

variable {input : Bytes} {baseLen expLen modLen : Int}

theorem requiredGas_eq_none (h : lengths input = some (baseLen, expLen, modLen)) :
    requiredGas input = none ↔ baseLen < (body input).length ∧
      FieldWraps (body input) (uint64 baseLen) (if expLen > 32 then 32 else uint64 expLen) := by
  have hhead : requiredGas input = none ↔ expHead (body input) baseLen expLen = none := by
    simp only [requiredGas, h, Option.bind_eq_bind, Option.bind_some]
    cases expHead (body input) baseLen expLen <;> simp
  rw [hhead, expHead]
  by_cases hshort : ((body input).length : Int) ≤ baseLen
  · rw [if_pos hshort]
    exact iff_of_false (by simp) (fun hwraps => absurd hwraps.1 (Int.not_lt.mpr hshort))
  · rw [if_neg hshort, and_iff_right (Int.not_le.mp hshort)]
    split_ifs
    · rw [Option.map_eq_none_iff, getData_eq_none]
    · rw [Option.map_eq_none_iff, getData_eq_none]

theorem run_eq_none (h : lengths input = some (baseLen, expLen, modLen)) :
    run input = none ↔ ¬(uint64 baseLen = 0 ∧ uint64 modLen = 0) ∧
      (FieldWraps (body input) (uint64 baseLen) (uint64 expLen) ∨
        FieldWraps (body input) (uint64 baseLen + uint64 expLen) (uint64 modLen)) := by
  obtain ⟨b, hb⟩ := getData_small (body input) 0 (uint64 baseLen)
    (by simpa using (uint64 baseLen).toNat_lt)
  simp only [← getData_eq_none, run, h, hb, Option.bind_eq_bind, Option.bind_some, pure]
  by_cases hnone : uint64 baseLen = 0 ∧ uint64 modLen = 0
  · rw [if_pos hnone]
    exact iff_of_false (by simp) (fun hwraps => hwraps.1 hnone)
  · rw [if_neg hnone, and_iff_right hnone]
    cases getData (body input) (uint64 baseLen) (uint64 expLen) with
    | none => simp
    | some e =>
      cases getData (body input) (uint64 baseLen + uint64 expLen) (uint64 modLen) with
      | none => simp
      | some m =>
        refine iff_of_false ?_ (by simp)
        simp only [Option.bind_some]
        split_ifs <;> simp

end BigModExp

/-- Only the modular exponentiation can slice out of bounds. -/
theorem runPrecompiledContract_eq_none {crypto : Crypto} {p : Precompiled} {input : Bytes}
    {c : Contract} : runPrecompiledContract crypto p input c = none ↔
      p = .bigModExp ∧ BigModExp.Overruns c.gas input := by
  have hnever : ∀ {gas : UInt64} {x : Bytes × Option VmError}, p.requiredGas input = some gas →
      p.run crypto input = some x → runPrecompiledContract crypto p input c ≠ none := by
    intro gas x hgas hrun
    simp only [runPrecompiledContract, hgas, hrun, Option.bind_some, Option.map_some]
    cases c.useGas gas <;> simp
  cases p with
  | bigModExp =>
    obtain ⟨baseLen, expLen, modLen, h⟩ := BigModExp.lengths_total input
    simp only [BigModExp.Overruns, h, ← BigModExp.requiredGas_eq_none h, ← BigModExp.run_eq_none h,
      true_and, runPrecompiledContract, Precompiled.requiredGas, Precompiled.run]
    cases hgas : BigModExp.requiredGas input with
    | none => simp
    | some gas =>
      simp only [Option.bind_some, Contract.useGas, Option.any_some, decide_eq_true_eq, reduceCtorEq,
        false_or]
      by_cases hpay : c.gas < gas
      · simp [hpay]
      · have hle : gas ≤ c.gas := UInt64.not_lt.mp hpay
        simp only [if_neg hpay, hle, true_and, Option.map_eq_none_iff]
  | _ => exact iff_of_false (hnever rfl rfl) (by simp)

/-! ## Faults -/

/-- The destination of a jump that is taken. -/
def OpCode.target : OpCode → Stack → Option Int
  | JUMP, pos :: _ => some pos
  | JUMPI, pos :: cond :: _ => if cond ≠ 0 then some pos else none
  | _, _ => none

/-- What stops the program in a run-time panic: an instruction on a stack with a negative word, a
jump whose check indexes past the bitmap, and a modular exponentiation on lengths whose fields wrap. -/
def Event.Faults (env : Env) : Event → Prop
  | .exec _ fr op => ¬ fr.stack.Nonneg ∨ ∃ pos ∈ op.target fr.stack,
      fr.contract.jumpdests.has fr.contract.codeHash fr.contract.code pos = none
  | .enter _ c input => c.codeAddr.bind env.precompiles = some .bigModExp ∧
      BigModExp.Overruns c.gas input
  | _ => False

instance (st : Stack) : Decidable st.Nonneg := inferInstanceAs (Decidable (∀ w ∈ st, _))

instance (env : Env) (e : Event) : Decidable (e.Faults env) := by
  unfold Event.Faults
  split <;> infer_instance

/-- The machine stopped after a fault. -/
structure Faulted (env : Env) (a s : Evm) : Prop where
  grows : a.trace <+: s.trace
  fault : ∃ e ∈ added a.trace s.trace, e.Faults env

namespace Faulted

variable {env : Env} {a b s : Evm}

theorem of_grows (hab : a.trace <+: b.trace) (h : Faulted env b s) : Faulted env a s := by
  refine ⟨hab.trans h.grows, ?_⟩
  obtain ⟨e, he, hf⟩ := h.fault
  refine ⟨e, ?_, hf⟩
  rw [added_trans hab h.grows]
  exact List.mem_append_right _ he

/-- The fault itself is the event after which the machine stopped. -/
theorem of_event {e : Event} (h : e.Faults env) (hs : (a.emit e).trace <+: s.trace) :
    Faulted env a s := by
  have ha : a.trace <+: (a.emit e).trace := List.prefix_append ..
  refine ⟨ha.trans hs, e, ?_, h⟩
  rw [added_trans ha hs]
  simp [Evm.emit]

theorem emit {e : Event} (h : e.Faults env) : Faulted env a (a.emit e) :=
  of_event h List.prefix_rfl

end Faulted

/-- The interpreter below panics only after a fault. -/
def RunFaults (env : Env) (run : RunFn) : Prop :=
  ∀ evm c input s, run evm c input = .panic s → Faulted env evm s

section Entries

variable {env : Env} {run : RunFn} {evm s : Evm}

theorem runContract_faults (hrun : RunFaults env run) {c : Contract} {input : Bytes}
    (h : runContract env run evm c input = .panic s) : Faulted env evm s := by
  unfold runContract at h
  simp only at h
  split at h
  · rename_i p hp
    cases hres : runPrecompiledContract env.crypto p input c with
    | none =>
      rw [hres] at h
      cases h
      obtain ⟨rfl, hover⟩ := runPrecompiledContract_eq_none.mp hres
      exact .emit ⟨hp, hover⟩
    | some x =>
      rw [hres] at h
      cases h
  · exact (hrun _ _ _ _ h).of_grows (List.prefix_append ..)

/-- Only a delegate call by a plain account cannot be prepared. -/
theorem Entry.prepare_total {e : Entry} {caller : ContractRef} {gas : UInt64}
    (h : e.prepare env evm caller gas = none) :
    ∃ addr input a, e = .delegateCall addr input ∧ caller = .account a := by
  cases e with
  | call addr input value | callCode addr input value =>
    simp only [prepare] at h
    split at h
    · cases h
    · split_ifs at h
  | delegateCall addr input =>
    cases caller with
    | account a => exact ⟨addr, input, a, rfl, rfl⟩
    | contract c =>
      simp only [prepare] at h
      split at h <;> cases h
  | staticCall addr input =>
    simp only [prepare] at h
    split at h <;> cases h
  | create code value =>
    simp only [prepare] at h
    split_ifs at h

theorem Entry.invoke_faults (hrun : RunFaults env run) {e : Entry} {caller : ContractRef}
    {gas : UInt64} (hcaller : ∀ addr input a, e = .delegateCall addr input → caller ≠ .account a)
    (h : e.invoke env run evm caller gas = .panic s) : Faulted env evm s := by
  rw [invoke_eq] at h
  obtain h | ⟨x, hx, h⟩ := Outcome.bind_eq_panic.mp h
  · cases hp : e.prepare env evm caller gas with
    | none =>
      obtain ⟨addr, input, a, he, ha⟩ := prepare_total hp
      exact absurd ha (hcaller addr input a he)
    | some x =>
      rw [hp] at h
      cases h
  · rw [Outcome.ofOption_eq_ok] at hx
    cases x with
    | inl r => cases h
    | inr l =>
      obtain h | ⟨r, -, h⟩ := Outcome.bind_eq_panic.mp h
      · exact (runContract_faults hrun h).of_grows ((prepare_launch hx).trace ▸ List.prefix_rfl)
      · cases h

end Entries

section Iterations

variable {env : Env} {run : RunFn} {evm s : Evm}

/-- A jump panics only when its check does. -/
theorem jump_faults {op : OpCode} {fr : Frame} (hj : op.isJump = true)
    (hlen : (operation op).pop ≤ fr.stack.length)
    (h : (operation op).execute env run evm fr = .panic s) : s = evm ∧ ∃ pos,
      op.target fr.stack = some pos ∧
      fr.contract.jumpdests.has fr.contract.codeHash fr.contract.code pos = none := by
  have hjumpTo : ∀ pos st, Outcome.ofOption evm (jumpTo evm fr pos st) = .panic s → s = evm ∧
      fr.contract.jumpdests.has fr.contract.codeHash fr.contract.code pos = none := by
    intro pos st h
    unfold jumpTo at h
    cases hhas : fr.contract.jumpdests.has fr.contract.codeHash fr.contract.code pos with
    | none =>
      rw [hhas] at h
      cases h
      exact ⟨rfl, rfl⟩
    | some x =>
      rw [hhas] at h
      cases h
  cases op
  case JUMP =>
    simp only [operation, entry, simple, opJump] at h
    obtain ⟨pos, st, hs⟩ := List.exists_cons_of_length_pos hlen
    rw [hs] at h
    obtain ⟨rfl, hhas⟩ := hjumpTo pos st h
    exact ⟨rfl, pos, by rw [hs]; rfl, hhas⟩
  case JUMPI =>
    simp only [operation, entry, simple, opJumpi] at h
    obtain ⟨pos, cond, st, hs⟩ := Stack.exists_two hlen
    rw [hs] at h
    simp only at h
    split_ifs at h with hcond
    · obtain ⟨rfl, hhas⟩ := hjumpTo pos st h
      exact ⟨rfl, pos, by rw [hs]; exact if_pos hcond, hhas⟩
    · cases h
  all_goals cases hj

/-- A call instruction that panics has been recorded before. -/
theorem call_panic_grows (hevolves : RunEvolves env run) (hrun : RunFaults env run) {op : OpCode}
    {fr : Frame} {n : UInt64} (ready : Ready env evm fr op n) (hc : op.isCall = true)
    (h : (operation op).execute env run (evm.executing fr op) fr = .panic s) :
    (evm.executing fr op).trace <+: s.trace := by
  rw [execute_call _ _ _ _ hc] at h
  obtain h | ⟨i, hi, h⟩ := Outcome.bind_eq_panic.mp h
  · cases hi : op.invocation env (evm.executing fr op) fr with
    | none =>
      rw [hi] at h
      cases h
      exact List.prefix_rfl
    | some i =>
      rw [hi] at h
      cases h
  · rw [Outcome.ofOption_eq_ok] at hi
    obtain h | ⟨r, hr, h⟩ := Outcome.bind_eq_panic.mp h
    · refine (Entry.invoke_faults hrun ?_ h).grows
      intro addr input a _ ha
      cases ha
    · rw [OpCode.resume_panic h]
      have hs : Site.Is (.frame i.caller.fixed) (.contract i.caller) := ⟨i.caller, rfl, rfl⟩
      exact (invoke_evolves hevolves hs (ready.invocation_allowed _ hi) hr).grows.trace

/-- An iteration panics only in a fault of its own or of its callee. -/
theorem step_faults (hevolves : RunEvolves env run) (hrun : RunFaults env run)
    (hm : env.disableGasMetering = false) {fr : Frame}
    (h : step env env.jumpTable run evm fr = .panic s) : Faulted env evm s := by
  have hshape := step_shape env run evm fr
  rw [h] at hshape
  generalize hx : (Outcome.panic s : Outcome Evm StepResult) = x at hshape
  cases hshape with
  | rejected | unpaid => cases hx
  | unfetched hf =>
    obtain ⟨y, hy⟩ := fetch_total env evm fr
    simp [hy] at hf
  | @unpriced op _ ready hcharge =>
    obtain ⟨y, hy⟩ := charge_total (evm.attempting fr op) ready
    simp [hy] at hcharge
  | @executed op n evm' fr' ready charged =>
    have hstack : (fr'.expand n).stack = fr.stack := by
      rw [Frame.expand_stack, (charge_spec charged).stack]
    have hlen := Stack.length_of_validate ready.valid
    rw [← hstack] at hlen
    have htrace : evm.trace <+: evm'.trace := by
      rw [(charge_spec charged).world]
      exact List.prefix_append ..
    apply Faulted.of_grows htrace
    obtain h | ⟨res, -, h⟩ := Outcome.bind_eq_panic.mp hx.symm
    rotate_left
    · cases h
    cases hc : op.isCall with
    | false =>
      -- an instruction that enters no frame panics in the state that was recorded for it
      obtain ⟨f, hf⟩ := execute_eq_simple hc
      obtain rfl : s = evm'.executing (fr'.expand n) op := by
        rw [hf, simple] at h
        cases hres : f env (evm'.executing (fr'.expand n) op) (fr'.expand n) with
        | none =>
          rw [hres] at h
          cases h
          rfl
        | some r =>
          rw [hres] at h
          cases h
      apply Faulted.emit
      by_cases hst : (fr'.expand n).stack.Nonneg
      · refine Or.inr ?_
        cases hj : op.isJump with
        | true => exact (jump_faults hj hlen h).2
        | false =>
          have hcov := charged_covers hm ready.size (hstack ▸ hst) charged
          obtain ⟨res, hres, -⟩ := execute_memory run hc hj hlen hst hcov
          rw [hres] at h
          cases h
      · exact Or.inl hst
    | true =>
      by_cases hst : (fr'.expand n).stack.Nonneg
      · have hcov := charged_covers hm ready.size (hstack ▸ hst) charged
        obtain ⟨i, hi, -⟩ := invocation_memory env (evm'.executing (fr'.expand n) op) hc hlen hcov
        rw [execute_call _ _ _ _ hc, hi, Outcome.ofOption_some, Outcome.bind_ok] at h
        obtain h | ⟨r, -, h⟩ := Outcome.bind_eq_panic.mp h
        · refine (Entry.invoke_faults hrun ?_ h).of_grows (List.prefix_append ..)
          intro addr input a _ ha
          cases ha
        · obtain ⟨x, hx, -⟩ := resume_memory env hc hlen hcov r
          rw [hx] at h
          cases h
      · have hgrows := call_panic_grows hevolves hrun (ready.charged (charge_spec charged)) hc h
        have hfault : Event.Faults env (.exec evm'.toWorld (fr'.expand n) op) := Or.inl hst
        exact .of_event hfault hgrows

theorem loop_faults (hevolves : RunEvolves env run) (hrun : RunFaults env run)
    (hm : env.disableGasMetering = false) {n : Nat} {fr : Frame} (begun : fr.Begun)
    (h : loop env env.jumpTable run n evm fr = .panic s) : Faulted env evm s := by
  induction n generalizing evm fr with
  | zero => cases h
  | succ n ih =>
    unfold loop at h
    split_ifs at h
    obtain h | ⟨x, hstep, h⟩ := Outcome.bind_eq_panic.mp h
    · exact step_faults hevolves hrun hm h
    · cases x with
      | done r => cases h
      | next evm' fr' =>
        have hgrows := (step_evolves hevolves begun hstep).grows.trace
        exact (ih (step_next hstep).1 h).of_grows hgrows

end Iterations

/-- Every panic of the interpreter comes after a fault. -/
theorem interpreterRun_faults {env : Env} (hm : env.disableGasMetering = false) (n : Nat) :
    RunFaults env (interpreterRun env env.jumpTable n) := by
  induction n with
  | zero =>
    intro evm c input s h
    cases h
  | succ n ih =>
    intro evm c input s h
    obtain h | ⟨r, -, h⟩ := Outcome.bind_eq_panic.mp h
    · split_ifs at h
      have begun : (Frame.start c input).Begun := fun _ => .inl rfl
      have hf := loop_faults (interpreterRun_evolves env n) ih hm begun h
      exact ⟨hf.grows, hf.fault⟩
    · cases h

/-- Where the events of a run end. -/
def endTrace (evm : Evm) : Outcome Evm CreateResult → List Event
  | .ok r => r.evm.trace
  | .panic s => s.trace
  | .timeout => evm.trace

/-- How an iteration of the loop accounts for the gas of its frame. -/
structure IterationGas (env : Env) (run : RunFn) (evm : Evm) (fr : Frame) : Prop where
  goesOn : ∀ evm' fr', step env env.jumpTable run evm fr = .ok (.next evm' fr') →
    fr'.contract.gas.toNat < fr.contract.gas.toNat
  ends : ∀ r, step env env.jumpTable run evm fr = .ok (.done r) →
    r.contract.gas.toNat ≤ fr.contract.gas.toNat
  /-- The price is subtracted without wrapping. -/
  pays : ∀ op n evm' fr', Ready env evm fr op n →
    charge env (operation op) (evm.attempting fr op) fr n = some (true, evm', fr') →
    ∃ cost : UInt64, cost.toNat + fr'.contract.gas.toNat = fr.contract.gas.toNat
  /-- A callee starts with less, and what it leaves is added without wrapping. -/
  calls : ∀ op n evm' fr' i, Ready env evm fr op n →
    charge env (operation op) (evm.attempting fr op) fr n = some (true, evm', fr') →
    op.invocation env (evm'.executing (fr'.expand n) op) (fr'.expand n) = some i →
    i.gas.toNat < fr.contract.gas.toNat ∧ ∀ r res,
      i.entry.invoke env run (evm'.executing (fr'.expand n) op) (.contract i.caller) i.gas = .ok r →
      op.resume env (fr'.expand n) r = .ok res →
      res.frame.contract.gas.toNat = i.caller.gas.toNat + r.leftOverGas.toNat

theorem iterationGas {env : Env} (hm : env.disableGasMetering = false) (k : Nat) (evm : Evm)
    (fr : Frame) : IterationGas env (interpreterRun env env.jumpTable k) evm fr := by
  have hrun := interpreterRun_gas hm k
  constructor
  case goesOn =>
    intro evm' fr' h
    exact (step_gas hrun hm h).2 ⟨evm', fr', rfl⟩
  case ends =>
    intro r h
    exact (step_gas hrun hm h).1
  case pays =>
    intro op n evm' fr' ready charged
    obtain ⟨fee, cost, -, -, hpaid⟩ := charge_paid hm ready.size charged
    exact ⟨cost, hpaid⟩
  case calls =>
    intro op n evm' fr' i ready charged hi
    have hless := invocation_gas hm ready charged hi
    refine ⟨by omega, fun r res hr hres => ?_⟩
    exact (resume_gas hrun hm ready charged hi hr hres).1

/-- Every entry point with metered gas either stops in a fault of one of its instructions or
returns: the gas bounds the run, and none is created on the way. -/
theorem terminates_of_faultless {env : Env} {n : Nat} {e : Entry} {evm : Evm}
    {caller : ContractRef} {gas : UInt64} (hm : env.disableGasMetering = false)
    (hn : gas.toNat + 2 ≤ n)
    (hcaller : ∀ addr input a, e = .delegateCall addr input → caller ≠ .account a)
    (hfaults : ∀ ev ∈ added evm.trace (endTrace evm (e.start env n evm caller gas)),
      ¬ ev.Faults env) :
    (∃ r, e.start env n evm caller gas = .ok r ∧ GasReturned env gas r) ∧
      ∀ k evm fr, IterationGas env (interpreterRun env env.jumpTable k) evm fr := by
  refine ⟨?_, iterationGas hm⟩
  cases h : e.start env n evm caller gas with
  | ok r => exact ⟨r, rfl, Entry.invoke_gas (interpreterRun_gas hm n) h⟩
  | panic s =>
    rw [h] at hfaults
    obtain ⟨ev, hev, hf⟩ := (Entry.invoke_faults (interpreterRun_faults hm n) hcaller h).fault
    exact absurd hf (hfaults ev hev)
  | timeout =>
    obtain ⟨m, rfl⟩ : ∃ m, n = m + 1 := ⟨n - 1, by omega⟩
    exact absurd h (Entry.invoke_ends (interpreterRun_ends hm m) (by omega))

/-- Jumps over nothing, so that its analysis is cached, and calls the contract at `0x200`. -/
def jumpAndCall : Bytes :=
  [0x60, 3, 0x56, 0x5b, 0x60, 0, 0x60, 0, 0x60, 0, 0x60, 0, 0x60, 0, 0x61, 2, 0, 0x5a, 0xf1, 0x00]

/-- The called contract is `PUSH1 5`. -/
def callState : StateDB := (StateDB.new.setCode 0x100 jumpAndCall).setCode 0x200 [0x60, 5]

/-- The call of `0x100` with 1000 gas. -/
def jumpingCall (fuel : Nat) : Outcome Evm CreateResult :=
  (Entry.call 0x100 [] 0).start recursiveEnv fuel (Evm.new callState) (.account 7) 1000

theorem jumpingCall_returns : (jumpingCall 20).Returns fun _ => True := by
  decide +kernel

theorem jumpingCall_faultless :
    ∀ ev ∈ added (Evm.new callState).trace (endTrace (Evm.new callState) (jumpingCall 20)),
      ¬ ev.Faults recursiveEnv := by
  decide +kernel

theorem jumpingCall_eq : jumpingCall 1002 = jumpingCall 20 := by
  have hextends : (jumpingCall 20).Extends (jumpingCall 1002) := by
    unfold jumpingCall
    exact Entry.start_extends (by decide)
  refine hextends.eq ?_
  intro htimeout
  obtain ⟨r, hr, -⟩ := jumpingCall_returns.exists
  rw [hr] at htimeout
  cases htimeout

/-- A run with a jump and a call. -/
theorem terminates_of_faultless_nested :
    ∃ r, jumpingCall 1002 = .ok r ∧ GasReturned recursiveEnv 1000 r := by
  have hfaults := jumpingCall_faultless
  rw [← jumpingCall_eq] at hfaults
  unfold jumpingCall at hfaults ⊢
  have hcaller : ∀ addr input a, Entry.call 0x100 [] 0 = .delegateCall addr input →
      ContractRef.account 7 ≠ .account a := fun _ _ _ h => by cases h
  exact (@terminates_of_faultless recursiveEnv 1002 (.call 0x100 [] 0) (Evm.new callState) (.account 7)
    1000 rfl (by decide) hcaller hfaults).1

/-- Jumps to its last byte, the first one that the caller's bitmap has no byte for. -/
def jumpFar : Bytes := [0x60, 56, 0x56] ++ List.replicate 53 0 ++ [0x5b]

def jumpState : StateDB := (StateDB.new.setCode 0x100 jumpAndCall).setCode 0x200 jumpFar

/-- The call panics, however much fuel it is given: it does not return. -/
theorem jumpAndCall_does_not_return : ¬ ∃ n r,
    (Entry.call 0x100 [] 0).start recursiveEnv n (Evm.new jumpState) (.account 7) 100000 = .ok r := by
  rintro ⟨n, r, hr⟩
  have hpanic : ((Entry.call 0x100 [] 0).start recursiveEnv 20 (Evm.new jumpState) (.account 7)
      100000).isPanic = true := by
    decide +kernel
  refine Outcome.not_ok_of_isPanic hpanic ?_ r hr
  exact (Nat.le_total 20 n).imp Entry.start_extends Entry.start_extends

end MiniEvm
