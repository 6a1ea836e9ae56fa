import MiniEvm.State.Observation
import MiniEvm.Vm.Effects

namespace MiniEvm

open Math Framework

/-- What a call instruction hands to an entry point. -/
structure Invocation where
  entry : Entry
  gas : UInt64
  caller : Contract

namespace OpCode

/-- The invocation that a call instruction makes; absent when its arguments cannot be read. -/
def invocation (op : OpCode) (env : Env) (evm : Evm) (fr : Frame) : Option Invocation :=
  match op, fr.stack with
  | CREATE, value :: offset :: size :: _ =>
    (fr.mem.get (int64 offset) (int64 size)).map fun input =>
      ⟨.create input value, (endow env fr.contract).1, (endow env fr.contract).2⟩
  | CALL, _ :: addr :: value :: inOffset :: inSize :: _ :: _ :: _ =>
    (fr.mem.get (int64 inOffset) (int64 inSize)).map fun args =>
      ⟨.call (bigToAddress addr) args (u256 value), calleeGas evm (u256 value), fr.contract⟩
  | CALLCODE, _ :: addr :: value :: inOffset :: inSize :: _ :: _ :: _ =>
    (fr.mem.get (int64 inOffset) (int64 inSize)).map fun args =>
      ⟨.callCode (bigToAddress addr) args (u256 value), calleeGas evm (u256 value), fr.contract⟩
  | DELEGATECALL, _ :: addr :: inOffset :: inSize :: _ :: _ :: _ =>
    (fr.mem.get (int64 inOffset) (int64 inSize)).map fun args =>
      ⟨.delegateCall (bigToAddress addr) args, evm.callGasTemp, fr.contract⟩
  | STATICCALL, _ :: addr :: inOffset :: inSize :: _ :: _ :: _ =>
    (fr.mem.get (int64 inOffset) (int64 inSize)).map fun args =>
      ⟨.staticCall (bigToAddress addr) args, evm.callGasTemp, fr.contract⟩
  | _, _ => none

/-- How the calling frame goes on. -/
def resume (op : OpCode) (env : Env) (fr : Frame) (r : CreateResult) : Outcome Evm ExecResult :=
  match op, fr.stack with
  | CREATE, _ :: _ :: _ :: st => .ok (finishCreate env fr (endow env fr.contract).2 st r)
  | CALL, _ :: _ :: _ :: _ :: _ :: retOffset :: retSize :: st
  | CALLCODE, _ :: _ :: _ :: _ :: _ :: retOffset :: retSize :: st
  | DELEGATECALL, _ :: _ :: _ :: _ :: retOffset :: retSize :: st
  | STATICCALL, _ :: _ :: _ :: _ :: retOffset :: retSize :: st =>
    finishCall fr st retOffset retSize r.toCallResult
  | _, _ => .panic r.evm

end OpCode

/-- A call instruction is the invocation of an entry point followed by the end of the call. -/
theorem execute_call {op : OpCode} (env : Env) (run : RunFn) (evm : Evm) (fr : Frame)
    (hc : op.isCall = true) :
    (operation op).execute env run evm fr =
      (Outcome.ofOption evm (op.invocation env evm fr)).bind fun i =>
        (i.entry.invoke env run evm (.contract i.caller) i.gas).bind (op.resume env fr) := by
  cases op
  case CREATE =>
    simp only [operation, entry]
    rcases hst : fr.stack with _ | ⟨value, _ | ⟨offset, _ | ⟨size, st⟩⟩⟩
    case cons.cons.cons =>
      have hr : OpCode.CREATE.resume env fr =
          fun r => .ok (finishCreate env fr (endow env fr.contract).2 st r) := by
        funext r
        simp only [OpCode.resume, hst]
      simp only [opCreate, OpCode.invocation, hst, hr]
      cases fr.mem.get (int64 offset) (int64 size) <;> rfl
    all_goals simp [opCreate, OpCode.invocation, hst]
  case CALL | CALLCODE =>
    simp only [operation, entry]
    rcases hst : fr.stack with _ | ⟨gas, _ | ⟨addr, _ | ⟨value, _ | ⟨inOffset, _ | ⟨inSize,
      _ | ⟨retOffset, _ | ⟨retSize, st⟩⟩⟩⟩⟩⟩⟩
    case cons.cons.cons.cons.cons.cons.cons =>
      simp only [opCall, opCallCode, OpCode.invocation, hst]
      cases fr.mem.get (int64 inOffset) (int64 inSize)
      · rfl
      · simp only [Outcome.ofOption_some, Outcome.bind_ok, Option.map_some, Entry.invoke,
          Outcome.bind_assoc, OpCode.resume, hst]
    all_goals simp [opCall, opCallCode, OpCode.invocation, hst]
  case DELEGATECALL | STATICCALL =>
    simp only [operation, entry]
    rcases hst : fr.stack with _ | ⟨gas, _ | ⟨addr, _ | ⟨inOffset, _ | ⟨inSize,
      _ | ⟨retOffset, _ | ⟨retSize, st⟩⟩⟩⟩⟩⟩
    case cons.cons.cons.cons.cons.cons =>
      simp only [opDelegateCall, opStaticCall, OpCode.invocation, hst]
      cases fr.mem.get (int64 inOffset) (int64 inSize)
      · rfl
      · simp only [Outcome.ofOption_some, Outcome.bind_ok, Option.map_some, Entry.invoke,
          Outcome.bind_assoc, OpCode.resume, hst]
    all_goals simp [opDelegateCall, opStaticCall, OpCode.invocation, hst]
  all_goals cases hc

/-- The contract of the calling frame while the call runs; `CREATE` pays in advance. -/
def OpCode.handedOver (op : OpCode) (env : Env) (c : Contract) : Contract :=
  if op = .CREATE then (endow env c).2 else c

theorem OpCode.invocation_caller {op : OpCode} {env : Env} {evm : Evm} {fr : Frame}
    {i : Invocation} (h : op.invocation env evm fr = some i) :
    i.caller = op.handedOver env fr.contract := by
  unfold invocation at h
  split at h
  case h_6 => cases h
  all_goals
    obtain ⟨input, -, rfl⟩ := Option.map_eq_some_iff.mp h
    rfl

/-- What the calling frame looks like after the call. -/
structure ResumeSpec (op : OpCode) (env : Env) (fr : Frame) (r : CreateResult) (x : ExecResult) :
    Prop where
  evm : x.evm = r.evm
  err : x.err = none
  pc : x.frame.pc = fr.pc
  contract : x.frame.contract = { op.handedOver env fr.contract with
    gas := (op.handedOver env fr.contract).gas + r.leftOverGas, jumpdests := r.jumpdests }
  len : x.frame.mem.len = fr.mem.len
  lastGasCost : x.frame.mem.lastGasCost = fr.mem.lastGasCost

theorem finishCall_spec {op : OpCode} {env : Env} {fr : Frame} {st : Stack}
    {retOffset retSize : Int} {r : CreateResult} {x : ExecResult} (hop : op ≠ .CREATE)
    (h : finishCall fr st retOffset retSize r.toCallResult = .ok x) :
    ResumeSpec op env fr r x := by
  unfold finishCall at h
  obtain ⟨mem, hmem, h⟩ := Outcome.bind_eq_ok.mp h
  cases h
  have hc : op.handedOver env fr.contract = fr.contract := if_neg hop
  have hm : mem.len = fr.mem.len ∧ mem.lastGasCost = fr.mem.lastGasCost := by
    rw [Outcome.ofOption_eq_ok] at hmem
    split_ifs at hmem
    · exact Memory.set_spec hmem
    · cases hmem
      exact ⟨rfl, rfl⟩
  exact ⟨rfl, rfl, rfl, by rw [hc], hm.1, hm.2⟩

theorem OpCode.resume_spec {op : OpCode} {env : Env} {fr : Frame} {r : CreateResult}
    {x : ExecResult} (h : op.resume env fr r = .ok x) : ResumeSpec op env fr r x := by
  unfold resume at h
  split at h
  case h_1 =>
    cases h
    exact ⟨rfl, rfl, rfl, rfl, rfl, rfl⟩
  case h_6 => cases h
  all_goals exact finishCall_spec (by decide) h

theorem OpCode.resume_panic {op : OpCode} {env : Env} {fr : Frame} {r : CreateResult} {s : Evm}
    (h : op.resume env fr r = .panic s) : s = r.evm := by
  have hfinish : ∀ st out outLen,
      finishCall fr st out outLen r.toCallResult = .panic s → s = r.evm := by
    intro st out outLen h
    unfold finishCall at h
    extract_lets mem at h
    obtain h | ⟨m, -, h⟩ := Outcome.bind_eq_panic.mp h
    · cases hmem : mem with
      | none =>
        rw [hmem] at h
        cases h
        rfl
      | some m =>
        rw [hmem] at h
        cases h
    · cases h
  unfold resume at h
  split at h
  case h_1 => cases h
  case h_6 =>
    cases h
    rfl
  all_goals exact hfinish _ _ _ h

/-- An instruction that passed the checks before its gas is computed. -/
structure Ready (env : Env) (evm : Evm) (fr : Frame) (op : OpCode) (memorySize : UInt64) :
    Prop where
  opcode : OpCode.ofByte (fr.contract.getByte fr.pc) = some op
  defined : env.jumpTable op = some (operation op)
  valid : fr.stack.validate (operation op).pop (operation op).push = none
  allowed : enforceRestrictions env evm op (operation op) fr.stack = none
  size : memorySizeFor (operation op) fr.stack = some (.ok memorySize)

theorem fetch_ok {env : Env} {evm : Evm} {fr : Frame} {f : Fetched}
    (h : fetch env env.jumpTable evm fr = some (.ok f)) :
    f.operation = operation f.op ∧ Ready env evm fr f.op f.memorySize := by
  unfold fetch at h
  simp only at h
  split at h
  · cases h
  · rename_i op o hop
    obtain ⟨op', hbyte, hmap⟩ := Option.bind_eq_some_iff.mp hop
    obtain ⟨o', hjt, heq⟩ := Option.map_eq_some_iff.mp hmap
    cases heq
    obtain rfl := Env.jumpTable_eq hjt
    split at h
    · cases h
    · rename_i hvalid
      split at h
      · cases h
      · rename_i hallowed
        obtain ⟨e, hsize, hf⟩ := Option.map_eq_some_iff.mp h
        cases e with
        | error err => cases hf
        | ok n =>
          cases hf
          exact ⟨rfl, hbyte, hjt, hvalid, hallowed, hsize⟩

theorem Ready.fetched {env : Env} {evm : Evm} {fr : Frame} {op : OpCode} {n : UInt64}
    (h : Ready env evm fr op n) :
    fetch env env.jumpTable evm fr = some (.ok ⟨op, operation op, n⟩) := by
  unfold fetch
  simp only [h.opcode, h.defined, Option.bind_some, Option.map_some, h.valid, h.allowed, h.size]
  rfl

/-- What computing and paying the gas leaves. -/
structure ChargeSpec (op : OpCode) (env : Env) (evm : Evm) (fr : Frame) (evm' : Evm) (fr' : Frame) :
    Prop where
  world : evm' = { evm with stateDB := evm'.stateDB, callGasTemp := evm'.callGasTemp }
  stateDB : evm'.stateDB =
    if env.disableGasMetering then evm.stateDB else op.gasEffect env evm.stateDB fr
  frame : fr' = { fr with mem := fr'.mem, contract := { fr.contract with gas := fr'.contract.gas } }
  store : fr'.mem.store = fr.mem.store

theorem charge_spec {op : OpCode} {env : Env} {evm evm' : Evm} {fr fr' : Frame} {n : UInt64}
    {paid : Bool} (h : charge env (operation op) evm fr n = some (paid, evm', fr')) :
    ChargeSpec op env evm fr evm' fr' := by
  unfold charge at h
  split_ifs at h with hm
  · cases h
    exact ⟨rfl, by simp [hm], rfl, rfl⟩
  · obtain ⟨g, hg, h⟩ := Option.map_eq_some_iff.mp h
    have hs := gasCost_spec hg
    have hdb : g.evm.stateDB = op.gasEffect env evm.stateDB fr := by rw [hs.evm]
    have hevm : g.evm = { evm with stateDB := g.evm.stateDB, callGasTemp := g.evm.callGasTemp } := by
      rw [hdb]
      exact hs.evm
    split at h
    · cases h
      exact ⟨hevm, by simp [hm, hdb], rfl, hs.store⟩
    · simp only at h
      split at h
      · cases h
        exact ⟨hevm, by simp [hm, hdb], rfl, hs.store⟩
      · rename_i c hc
        cases h
        have hgas : c = { fr.contract with gas := c.gas } := by
          unfold Contract.useGas at hc
          split_ifs at hc
          cases hc
          rfl
        refine ⟨hevm, by simp [hm, hdb], ?_, hs.store⟩
        simp only
        rw [← hgas]

@[simp] theorem Frame.expand_pc (fr : Frame) (n : UInt64) : (fr.expand n).pc = fr.pc := by
  unfold expand; split_ifs <;> rfl

@[simp] theorem Frame.expand_stack (fr : Frame) (n : UInt64) : (fr.expand n).stack = fr.stack := by
  unfold expand; split_ifs <;> rfl

@[simp] theorem Frame.expand_contract (fr : Frame) (n : UInt64) :
    (fr.expand n).contract = fr.contract := by
  unfold expand; split_ifs <;> rfl

namespace ChargeSpec

variable {op : OpCode} {env : Env} {evm evm' : Evm} {fr fr' : Frame}

theorem pc (h : ChargeSpec op env evm fr evm' fr') : fr'.pc = fr.pc := by rw [h.frame]

theorem stack (h : ChargeSpec op env evm fr evm' fr') : fr'.stack = fr.stack := by rw [h.frame]

theorem contract (h : ChargeSpec op env evm fr evm' fr') :
    fr'.contract = { fr.contract with gas := fr'.contract.gas } := by rw [h.frame]

end ChargeSpec

/-- What the write protection lets through on a read-only machine. -/
theorem enforceRestrictions_eq_none {env : Env} {evm : Evm} {op : OpCode} {o : Operation}
    {st : Stack} (h : enforceRestrictions env evm op o st = none) (hb : env.isByzantium = true)
    (hro : evm.readOnly = true) :
    o.writes = false ∧ (op = .CALL → ∀ v, st.back 2 = some v → v = 0) := by
  unfold enforceRestrictions at h
  simp only [hb, hro, Bool.and_self, Bool.true_and, ite_eq_right_iff, reduceCtorEq, imp_false,
    Bool.or_eq_true, Bool.and_eq_true, not_or, Bool.not_eq_true, decide_eq_true_eq] at h
  refine ⟨h.1, fun hop v hv => ?_⟩
  have hlen : bitLen v = 0 := by simpa [hop, hv] using h.2
  exact (bitLen_eq_zero v).mp hlen

/-- The machine at the moment an instruction is attempted. -/
def Evm.attempting (evm : Evm) (fr : Frame) (op : OpCode) : Evm :=
  evm.emit (.attempt evm.toWorld fr op)

/-- The machine at the moment an instruction is executed. -/
def Evm.executing (evm : Evm) (fr : Frame) (op : OpCode) : Evm :=
  evm.emit (.exec evm.toWorld fr op)

/-- How far an iteration of the loop gets. -/
inductive StepShape (env : Env) (run : RunFn) (evm : Evm) (fr : Frame) :
    Outcome Evm StepResult → Prop
  | unfetched (h : fetch env env.jumpTable evm fr = none) : StepShape env run evm fr (.panic evm)
  | rejected {e : VmError} (h : fetch env env.jumpTable evm fr = some (.error e)) :
      StepShape env run evm fr (.ok (.done ⟨[], some e, evm, fr.contract⟩))
  | unpriced {op : OpCode} {n : UInt64} (ready : Ready env evm fr op n)
      (h : charge env (operation op) (evm.attempting fr op) fr n = none) :
      StepShape env run evm fr (.panic (evm.attempting fr op))
  | unpaid {op : OpCode} {n : UInt64} {evm' : Evm} {fr' : Frame} (ready : Ready env evm fr op n)
      (charged : charge env (operation op) (evm.attempting fr op) fr n = some (false, evm', fr')) :
      StepShape env run evm fr (.ok (.done ⟨[], some .outOfGas, evm', fr'.contract⟩))
  | executed {op : OpCode} {n : UInt64} {evm' : Evm} {fr' : Frame} (ready : Ready env evm fr op n)
      (charged : charge env (operation op) (evm.attempting fr op) fr n = some (true, evm', fr')) :
      StepShape env run evm fr (((operation op).execute env run
        (evm'.executing (fr'.expand n) op) (fr'.expand n)).bind fun res =>
          .ok (finish (operation op) res))

theorem step_shape (env : Env) (run : RunFn) (evm : Evm) (fr : Frame) :
    StepShape env run evm fr (step env env.jumpTable run evm fr) := by
  unfold step
  cases hf : fetch env env.jumpTable evm fr with
  | none => exact .unfetched hf
  | some x =>
    cases x with
    | error e => exact .rejected hf
    | ok f =>
      obtain ⟨hop, ready⟩ := fetch_ok hf
      simp only [Outcome.ofOption_some, Outcome.bind_ok, perform, hop]
      cases hc : charge env (operation f.op) (evm.attempting fr f.op) fr f.memorySize with
      | none =>
        simp only [Evm.attempting] at hc
        simp only [hc]
        exact .unpriced ready hc
      | some y =>
        obtain ⟨paid, evm', fr'⟩ := y
        have hc' := hc
        simp only [Evm.attempting] at hc'
        simp only [hc', Outcome.ofOption_some, Outcome.bind_ok]
        cases paid with
        | false => exact .unpaid ready hc
        | true => exact .executed ready hc

/-- Everything an iteration of the loop can do when it does not panic. -/
inductive StepCase (env : Env) (run : RunFn) (evm : Evm) (fr : Frame) : StepResult → Prop
  | rejected {e : VmError} (h : fetch env env.jumpTable evm fr = some (.error e)) :
      StepCase env run evm fr (.done ⟨[], some e, evm, fr.contract⟩)
  | unpaid {op : OpCode} {n : UInt64} {evm' : Evm} {fr' : Frame} (ready : Ready env evm fr op n)
      (charged : charge env (operation op) (evm.attempting fr op) fr n = some (false, evm', fr')) :
      StepCase env run evm fr (.done ⟨[], some .outOfGas, evm', fr'.contract⟩)
  | simple {op : OpCode} {n : UInt64} {evm' : Evm} {fr' : Frame} {res : ExecResult}
      (ready : Ready env evm fr op n) (hc : op.isCall = false)
      (charged : charge env (operation op) (evm.attempting fr op) fr n = some (true, evm', fr'))
      (executed : (operation op).execute env run (evm'.executing (fr'.expand n) op) (fr'.expand n) =
        .ok res) :
      StepCase env run evm fr (finish (operation op) res)
  | call {op : OpCode} {n : UInt64} {evm' : Evm} {fr' : Frame} {i : Invocation} {r : CreateResult}
      {res : ExecResult} (ready : Ready env evm fr op n) (hc : op.isCall = true)
      (charged : charge env (operation op) (evm.attempting fr op) fr n = some (true, evm', fr'))
      (invocation : op.invocation env (evm'.executing (fr'.expand n) op) (fr'.expand n) = some i)
      (invoked : i.entry.invoke env run (evm'.executing (fr'.expand n) op) (.contract i.caller) i.gas =
        .ok r)
      (resumed : op.resume env (fr'.expand n) r = .ok res) :
      StepCase env run evm fr (finish (operation op) res)

theorem step_cases {env : Env} {run : RunFn} {evm : Evm} {fr : Frame} {s : StepResult}
    (h : step env env.jumpTable run evm fr = .ok s) : StepCase env run evm fr s := by
  have hshape := step_shape env run evm fr
  rw [h] at hshape
  generalize hx : (Outcome.ok s : Outcome Evm StepResult) = x at hshape
  cases hshape with
  | unfetched | unpriced => cases hx
  | rejected hf =>
    cases hx
    exact .rejected hf
  | unpaid ready charged =>
    cases hx
    exact .unpaid ready charged
  | @executed op n evm' fr' ready charged =>
    obtain ⟨res, hres, h⟩ := Outcome.bind_eq_ok.mp hx.symm
    cases h
    cases hc : op.isCall with
    | false => exact .simple ready hc charged hres
    | true =>
      rw [execute_call _ _ _ _ hc] at hres
      obtain ⟨i, hi, hres⟩ := Outcome.bind_eq_ok.mp hres
      obtain ⟨r, hr, hres⟩ := Outcome.bind_eq_ok.mp hres
      exact .call ready hc charged (Outcome.ofOption_eq_ok.mp hi) hr hres

/-- An iteration that does not end the frame. -/
theorem loop_next {env : Env} {jt : JumpTable} {run : RunFn} {n : Nat} {evm evm' : Evm}
    {fr fr' : Frame} (habort : evm.abort = false)
    (h : step env jt run evm fr = .ok (.next evm' fr')) :
    loop env jt run (n + 1) evm fr = loop env jt run n evm' fr' := by
  rw [loop, h, habort]
  rfl

theorem loop_done {env : Env} {jt : JumpTable} {run : RunFn} {n : Nat} {evm : Evm} {fr : Frame}
    {r : RunResult} (habort : evm.abort = false) (h : step env jt run evm fr = .ok (.done r)) :
    loop env jt run (n + 1) evm fr = .ok r := by
  rw [loop, h, habort]
  rfl

end MiniEvm
