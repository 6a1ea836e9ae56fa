import MiniEvm.Vm.Entry
import MiniEvm.Vm.Step

namespace MiniEvm

open Math Framework

/-- The part of a contract that its frame never changes. -/
def Contract.fixed (c : Contract) : Contract := { c with gas := 0, jumpdests := Destinations.empty }

/-- Who invokes an entry point: code outside of the machine, or a running frame. -/
inductive Site where
  | entry (caller : ContractRef)
  | frame (c : Contract)

namespace Site

def address : Site → Address
  | entry caller => caller.address
  | frame c => c.self

def Is : Site → ContractRef → Prop
  | entry r, caller => caller = r
  | frame c, caller => ∃ c', caller = .contract c' ∧ c'.fixed = c

/-- A frame of a read-only machine sends no value. -/
def MaySend (env : Env) (evm : Evm) (value : Int) : Site → Prop
  | entry _ => True
  | frame _ => env.isByzantium = true → evm.readOnly = true → value = 0

/-- A frame of a read-only machine creates no contract. -/
def MayWrite (env : Env) (evm : Evm) : Site → Prop
  | entry _ => True
  | frame _ => env.isByzantium = true → evm.readOnly = false

theorem Is.address_eq {s : Site} {caller : ContractRef} (h : s.Is caller) :
    caller.address = s.address := by
  cases s with
  | entry r =>
    cases h
    rfl
  | frame c =>
    obtain ⟨c', rfl, rfl⟩ := h
    rfl

end Site

/-- A frame is at position zero only at its start, or when a jump may lead there. -/
def Frame.Begun (fr : Frame) : Prop := fr.pc = 0 → fr.stack = [] ∨ fr.contract.getByte 0 = 0x5b

/-- What the invocations and instructions of a call tree do to the machine, without the stacks,
memories and gas of its frames. -/
inductive Evolves (env : Env) : Site → Evm → Evm → Prop
  | refl (s : Site) (evm : Evm) : Evolves env s evm evm
  | trans {s : Site} {a b c : Evm} : Evolves env s a b → Evolves env s b c → Evolves env s a c
  | attempt {evm evm' : Evm} {fr fr' : Frame} {op : OpCode} {n : UInt64}
      (ready : Ready env evm fr op n)
      (charged : ChargeSpec op env (evm.attempting fr op) fr evm' fr') :
      Evolves env (.frame fr.contract.fixed) evm evm'
  | execute {evm : Evm} {fr : Frame} {op : OpCode} {n : UInt64} (ready : Ready env evm fr op n)
      (begun : fr.Begun) (hc : op.isCall = false) :
      Evolves env (.frame fr.contract.fixed) evm (op.effect env (evm.executing fr op) fr)
  | callInstruction {evm : Evm} {fr : Frame} {op : OpCode} {n : UInt64}
      (ready : Ready env evm fr op n) (begun : fr.Begun) (hc : op.isCall = true) :
      Evolves env (.frame fr.contract.fixed) evm (evm.executing fr op)
  | output (s : Site) (evm : Evm) (ret : Bytes) : Evolves env s evm { evm with returnData := ret }
  | checkBalance {s : Site} {evm : Evm} (value : Int) (pass : Passes env evm) :
      Evolves env s evm { evm with stateDB := (canTransfer evm.stateDB s.address value).2 }
  | pay {s : Site} {evm : Evm} (recipient : Address) (value : Int) (pass : Passes env evm)
      (may : s.MaySend env evm value) (can : (canTransfer evm.stateDB s.address value).1 = true) :
      Evolves env s evm { evm with
        stateDB := transfer (canTransfer evm.stateDB s.address value).2 s.address recipient value }
  | failCreate {s : Site} {evm : Evm} (value : Int) (depth : evm.depth ≤ callCreateDepth)
      (may : s.MayWrite env evm) :
      Evolves env s evm { evm with stateDB := (canTransfer evm.stateDB s.address value).2 }
  | collide {s : Site} {evm : Evm} (value : Int) (depth : evm.depth ≤ callCreateDepth)
      (may : s.MayWrite env evm) (can : (canTransfer evm.stateDB s.address value).1 = true) :
      Evolves env s evm { evm with
        stateDB := (canTransfer evm.stateDB s.address value).2.raiseNonce s.address }
  | create {s : Site} {evm evm' evm'' : Evm} {db : StateDB} {addr : Address} (value : Int)
      (depth : evm.depth ≤ callCreateDepth) (may : s.MayWrite env evm)
      (can : (canTransfer evm.stateDB s.address value).1 = true)
      (hdb : db = (canTransfer evm.stateDB s.address value).2.raiseNonce s.address)
      (haddr : addr = createAddress env.crypto s.address
        ((canTransfer evm.stateDB s.address value).2.getNonce s.address))
      (free : collides env db addr = false)
      (inner : Evolves env s { evm with stateDB := newAccount env db s.address addr value } evm')
      (stored : evm'' = evm' ∨ Passes env evm ∧
        ∃ code, evm'' = { evm' with stateDB := evm'.stateDB.setCode addr code }) :
      Evolves env s evm evm''
  | enter {s : Site} {evm : Evm} (contract : Contract) (input : Bytes) (pass : Passes env evm) :
      Evolves env s evm (evm.emit (.enter evm.depth contract input))
  | run {s : Site} {evm evm' : Evm} {contract : Contract} (pass : Passes env evm)
      (code : contract.code ≠ [])
      (inner : Evolves env (.frame contract.fixed)
        { evm with depth := evm.depth + 1, returnData := [] } evm') :
      Evolves env s evm { evm' with depth := evm'.depth - 1 }
  | static {s : Site} {evm evm' : Evm} (outermost : evm.readOnly = false)
      (inner : Evolves env s { evm with readOnly := true } evm') :
      Evolves env s evm { evm' with readOnly := false }

/-- What `Interpreter.Run` does to the machine. -/
inductive Ran (env : Env) (contract : Contract) (evm : Evm) : Evm → Prop
  | empty (code : contract.code = []) : Ran env contract evm { evm with returnData := [] }
  | code {evm' : Evm} (code : contract.code ≠ [])
      (inner : Evolves env (.frame contract.fixed)
        { evm with depth := evm.depth + 1, returnData := [] } evm') :
      Ran env contract evm { evm' with depth := evm'.depth - 1 }

/-- The interpreter below does to the machine what a run may do. -/
def RunEvolves (env : Env) (run : RunFn) : Prop :=
  ∀ evm contract input r, run evm contract input = .ok r →
    Ran env { contract with input := input } evm r.evm

section Entries

variable {env : Env} {run : RunFn} {evm : Evm} {s : Site} {caller : ContractRef}

theorem runContract_evolves (hrun : RunEvolves env run) {contract : Contract} {input : Bytes}
    {r : RunResult} (pass : Passes env evm) (h : runContract env run evm contract input = .ok r) :
    Evolves env s evm r.evm := by
  unfold runContract at h
  simp only at h
  refine (Evolves.enter contract input pass).trans ?_
  split at h
  · rw [Outcome.ofOption_eq_ok] at h
    obtain ⟨⟨ret, err, c⟩, -, rfl⟩ := Option.map_eq_some_iff.mp h
    exact .refl ..
  · have hr := hrun _ _ _ _ h
    generalize r.evm = evm' at hr
    cases hr with
    | empty => exact .output ..
    | code code inner => exact .run pass code inner

theorem settle_evm (snapshot : Int) (r : RunResult) : (settle snapshot r).evm = r.evm := by
  unfold settle
  split <;> rfl

theorem call_evolves (hrun : RunEvolves env run) {addr : Address} {input : Bytes} {gas : UInt64}
    {value : Int} {r : CallResult} (hs : s.Is caller) (may : s.MaySend env evm value)
    (h : evm.call env run caller addr input gas value = .ok r) : Evolves env s evm r.evm := by
  unfold Evm.call at h
  split_ifs at h with hno hdepth
  · cases h
    exact .refl ..
  · cases h
    exact .refl ..
  · have pass : Passes env evm := ⟨hno, Nat.le_of_not_lt hdepth⟩
    simp only [StateDB.exist, hs.address_eq] at h
    cases hcan : (canTransfer evm.stateDB s.address value).1 with
    | false =>
      simp only [hcan] at h
      cases h
      exact .checkBalance value pass
    | true =>
      simp only [hcan, Bool.not_true, Bool.false_eq_true, false_and, if_false, if_true] at h
      obtain ⟨rr, hrr, h⟩ := Outcome.bind_eq_ok.mp h
      cases h
      rw [settle_evm]
      exact (Evolves.pay addr value pass may hcan).trans (runContract_evolves hrun pass hrr)

theorem callCode_evolves (hrun : RunEvolves env run) {addr : Address} {input : Bytes}
    {gas : UInt64} {value : Int} {r : CallResult} (hs : s.Is caller)
    (h : evm.callCode env run caller addr input gas value = .ok r) : Evolves env s evm r.evm := by
  unfold Evm.callCode at h
  split_ifs at h with hno hdepth
  · cases h
    exact .refl ..
  · cases h
    exact .refl ..
  · have pass : Passes env evm := ⟨hno, Nat.le_of_not_lt hdepth⟩
    simp only [hs.address_eq] at h
    refine (Evolves.checkBalance value pass).trans ?_
    cases hcan : (canTransfer evm.stateDB s.address value).1 with
    | false =>
      simp only [hcan] at h
      cases h
      exact .refl ..
    | true =>
      simp only [hcan, Bool.not_true, Bool.false_eq_true, if_false] at h
      obtain ⟨rr, hrr, h⟩ := Outcome.bind_eq_ok.mp h
      cases h
      rw [settle_evm]
      exact runContract_evolves hrun pass hrr

theorem delegateCall_evolves (hrun : RunEvolves env run) {addr : Address} {input : Bytes}
    {gas : UInt64} {r : CallResult}
    (h : evm.delegateCall env run caller addr input gas = .ok r) : Evolves env s evm r.evm := by
  unfold Evm.delegateCall at h
  split_ifs at h with hno hdepth
  · cases h
    exact .refl ..
  · cases h
    exact .refl ..
  · obtain ⟨c, -, h⟩ := Outcome.bind_eq_ok.mp h
    obtain ⟨rr, hrr, h⟩ := Outcome.bind_eq_ok.mp h
    cases h
    rw [settle_evm]
    exact runContract_evolves hrun ⟨hno, Nat.le_of_not_lt hdepth⟩ hrr

/-- A static call runs its callee read-only and then returns to the mode it found. -/
theorem staticCall_inner (hrun : RunEvolves env run) (s : Site) {addr : Address} {input : Bytes}
    {gas : UInt64} {r : CallResult} (h : evm.staticCall env run caller addr input gas = .ok r) :
    r.evm = evm ∨ ∃ evm', Evolves env s { evm with readOnly := true } evm' ∧
      r.evm = if evm.readOnly then evm' else { evm' with readOnly := false } := by
  unfold Evm.staticCall at h
  split_ifs at h with hno hdepth
  · cases h
    exact .inl rfl
  · cases h
    exact .inl rfl
  · have pass : Passes env evm := ⟨hno, Nat.le_of_not_lt hdepth⟩
    obtain ⟨rr, hrr, h⟩ := Outcome.bind_eq_ok.mp h
    cases h
    refine .inr ⟨rr.evm, ?_, ?_⟩
    · cases hro : evm.readOnly with
      | false =>
        simp only [hro, Bool.not_false, if_true] at hrr
        exact runContract_evolves hrun pass hrr
      | true =>
        simp only [hro, Bool.not_true, Bool.false_eq_true, if_false] at hrr
        rw [← hro]
        exact runContract_evolves hrun pass hrr
    · cases evm.readOnly <;> simp [settle_evm]

theorem staticCall_evolves (hrun : RunEvolves env run) {addr : Address} {input : Bytes}
    {gas : UInt64} {r : CallResult}
    (h : evm.staticCall env run caller addr input gas = .ok r) : Evolves env s evm r.evm := by
  obtain he | ⟨evm', inner, he⟩ := staticCall_inner hrun s h
  · rw [he]
    exact .refl ..
  · rw [he]
    cases hro : evm.readOnly with
    | false => exact .static hro inner
    | true =>
      have hevm : ({ evm with readOnly := true } : Evm) = evm := by rw [← hro]
      rw [hevm] at inner
      exact inner

theorem settleCreate_evm (env : Env) (snapshot : Int) (addr : Address) (r : RunResult) :
    (settleCreate env snapshot addr r).evm = r.evm ∨
    (settleCreate env snapshot addr r).evm =
      { r.evm with stateDB := r.evm.stateDB.setCode addr r.ret } := by
  unfold settleCreate
  simp only [StateDB.revertToSnapshot, ite_self]
  split_ifs
  · split
    · exact .inr rfl
    · exact .inl rfl
  · exact .inl rfl

theorem create_evolves (hrun : RunEvolves env run) {code : Bytes} {gas : UInt64} {value : Int}
    {r : CreateResult} (hs : s.Is caller) (may : s.MayWrite env evm)
    (h : evm.create env run caller code gas value = .ok r) : Evolves env s evm r.evm := by
  unfold Evm.create at h
  split_ifs at h with hdepth
  · cases h
    exact .refl ..
  · have depth := Nat.le_of_not_lt hdepth
    simp only [hs.address_eq] at h
    cases hcan : (canTransfer evm.stateDB s.address value).1 with
    | false =>
      simp only [hcan] at h
      cases h
      exact .failCreate value depth may
    | true =>
      simp only [hcan, Bool.not_true, Bool.false_eq_true, if_false] at h
      split_ifs at h with hcollide hno
      · cases h
        exact .collide value depth may hcan
      · cases h
        exact .create value depth may hcan rfl rfl (Bool.eq_false_of_not_eq_true hcollide)
          (.refl ..) (.inl rfl)
      · have pass : Passes env evm := ⟨hno, depth⟩
        obtain ⟨rr, hrr, h⟩ := Outcome.bind_eq_ok.mp h
        cases h
        refine .create value depth may hcan rfl rfl (Bool.eq_false_of_not_eq_true hcollide)
          (runContract_evolves hrun pass hrr) ?_
        obtain h | h := settleCreate_evm env _ _ rr
        · exact .inl h
        · exact .inr ⟨pass, _, h⟩

/-- The condition under which a site may make an invocation. -/
def Entry.Allowed (env : Env) (evm : Evm) (s : Site) : Entry → Prop
  | call _ _ value => s.MaySend env evm value
  | create _ _ => s.MayWrite env evm
  | _ => True

theorem invoke_evolves (hrun : RunEvolves env run) {e : Entry} {gas : UInt64} {r : CreateResult}
    (hs : s.Is caller) (allowed : e.Allowed env evm s)
    (h : e.invoke env run evm caller gas = .ok r) : Evolves env s evm r.evm := by
  cases e with
  | call addr input value =>
    obtain ⟨cr, hcr, h⟩ := Outcome.bind_eq_ok.mp h
    cases h
    exact call_evolves hrun hs allowed hcr
  | callCode addr input value =>
    obtain ⟨cr, hcr, h⟩ := Outcome.bind_eq_ok.mp h
    cases h
    exact callCode_evolves hrun hs hcr
  | delegateCall addr input =>
    obtain ⟨cr, hcr, h⟩ := Outcome.bind_eq_ok.mp h
    cases h
    exact delegateCall_evolves hrun hcr
  | staticCall addr input =>
    obtain ⟨cr, hcr, h⟩ := Outcome.bind_eq_ok.mp h
    cases h
    exact staticCall_evolves hrun hcr
  | create code value => exact create_evolves hrun hs allowed h

end Entries

/-- The checks before an instruction read nothing that paying for it changes. -/
theorem Ready.charged {env : Env} {evm evm' : Evm} {fr fr' : Frame} {op : OpCode} {n : UInt64}
    (ready : Ready env evm fr op n) (spec : ChargeSpec op env (evm.attempting fr op) fr evm' fr') :
    Ready env evm' (fr'.expand n) op n := by
  have hro : evm'.readOnly = evm.readOnly := by rw [spec.world]; rfl
  have hst : (fr'.expand n).stack = fr.stack := by rw [Frame.expand_stack, spec.stack]
  refine ⟨?_, ready.defined, hst ▸ ready.valid, ?_, hst ▸ ready.size⟩
  · rw [Frame.expand_contract, Frame.expand_pc, spec.pc, spec.contract]
    exact ready.opcode
  · rw [enforceRestrictions, hro, hst]
    exact ready.allowed

/-- The write protection covers every invocation of a read-only frame. -/
theorem Ready.invocation_allowed {env : Env} {evm : Evm} {fr : Frame} {op : OpCode} {n : UInt64}
    {i : Invocation} (c : Contract) (ready : Ready env evm fr op n)
    (h : op.invocation env (evm.executing fr op) fr = some i) :
    i.entry.Allowed env (evm.executing fr op) (.frame c) := by
  unfold OpCode.invocation at h
  split at h
  case h_6 => cases h
  all_goals obtain ⟨input, -, rfl⟩ := Option.map_eq_some_iff.mp h
  case h_1 value offset size st hst =>
    intro hb
    by_contra hro
    have hw := (enforceRestrictions_eq_none ready.allowed hb (Bool.eq_true_of_not_eq_false hro)).1
    cases hw
  case h_2 gas addr value inOffset inSize retOffset retSize st hst =>
    intro hb hro
    have hv := (enforceRestrictions_eq_none ready.allowed hb hro).2 rfl value
      (by simp [Stack.back, hst])
    rw [hv]
    rfl
  all_goals trivial

def StepResult.evm : StepResult → Evm
  | next evm _ => evm
  | done r => r.evm

theorem finish_evm (o : Operation) (res : ExecResult) : (finish o res).evm =
    if o.returns then { res.evm with returnData := res.ret } else res.evm := by
  unfold finish
  cases res.err with
  | some e => rfl
  | none =>
    simp only
    split_ifs <;> rfl

/-- The contract of the frame after an iteration. -/
def StepResult.contract : StepResult → Contract
  | next _ fr => fr.contract
  | done r => r.contract

theorem finish_contract (o : Operation) (res : ExecResult) :
    (finish o res).contract = res.frame.contract := by
  unfold finish
  cases res.err with
  | some e => rfl
  | none =>
    simp only
    split_ifs <;> rfl

theorem finish_evolves {env : Env} {s : Site} {a : Evm} {o : Operation} {res : ExecResult}
    (h : Evolves env s a res.evm) : Evolves env s a (finish o res).evm := by
  rw [finish_evm]
  split_ifs
  · exact h.trans (.output ..)
  · exact h

theorem Contract.fixed_eq {c c' : Contract}
    (h : c' = { c with gas := c'.gas, jumpdests := c'.jumpdests }) : c'.fixed = c.fixed := by
  rw [h]
  rfl

theorem ChargeSpec.fixed {op : OpCode} {env : Env} {evm evm' : Evm} {fr fr' : Frame} (n : UInt64)
    (h : ChargeSpec op env evm fr evm' fr') : (fr'.expand n).contract.fixed = fr.contract.fixed := by
  rw [Frame.expand_contract, h.contract]
  rfl

theorem ChargeSpec.begun {op : OpCode} {env : Env} {evm evm' : Evm} {fr fr' : Frame} (n : UInt64)
    (h : ChargeSpec op env evm fr evm' fr') (begun : fr.Begun) : (fr'.expand n).Begun := by
  unfold Frame.Begun
  rw [Frame.expand_contract, Frame.expand_pc, Frame.expand_stack, h.pc, h.stack, h.contract]
  exact begun

theorem Contract.useGas_fixed (c : Contract) (gas : UInt64) :
    ((c.useGas gas).getD c).fixed = c.fixed := by
  unfold useGas
  split_ifs <;> rfl

theorem OpCode.handedOver_fixed (op : OpCode) (env : Env) (c : Contract) :
    (op.handedOver env c).fixed = c.fixed := by
  unfold handedOver
  split_ifs
  · exact c.useGas_fixed _
  · rfl

theorem step_evolves {env : Env} {run : RunFn} (hrun : RunEvolves env run) {evm : Evm} {fr : Frame}
    {s : StepResult} (begun : fr.Begun) (h : step env env.jumpTable run evm fr = .ok s) :
    Evolves env (.frame fr.contract.fixed) evm s.evm := by
  cases step_cases h with
  | rejected => exact .refl ..
  | unpaid ready charged => exact .attempt ready (charge_spec charged)
  | @simple op n evm' fr' res ready hc charged executed =>
    have spec := charge_spec charged
    have hx := Evolves.execute (ready.charged spec) (spec.begun n begun) hc
    rw [spec.fixed] at hx
    refine (Evolves.attempt ready spec).trans (finish_evolves ?_)
    rw [(execute_simple hc executed).evm]
    exact hx
  | @call op n evm' fr' i r res ready hc charged invocation invoked resumed =>
    have spec := charge_spec charged
    have hx := Evolves.callInstruction (ready.charged spec) (spec.begun n begun) hc
    rw [spec.fixed] at hx
    refine (Evolves.attempt ready spec).trans (finish_evolves (hx.trans ?_))
    rw [(OpCode.resume_spec resumed).evm]
    refine invoke_evolves hrun ⟨i.caller, rfl, ?_⟩
      ((ready.charged spec).invocation_allowed _ invocation) invoked
    rw [OpCode.invocation_caller invocation, OpCode.handedOver_fixed, spec.fixed]

theorem finish_eq_next {o : Operation} {res : ExecResult} {evm : Evm} {fr : Frame}
    (h : finish o res = .next evm fr) :
    res.err = none ∧ fr = { res.frame with pc := if o.jumps then res.frame.pc else res.frame.pc + 1 } := by
  unfold finish at h
  cases herr : res.err with
  | some e =>
    simp only [herr] at h
    cases h
  | none =>
    simp only [herr] at h
    split at h
    · cases h
    · split at h
      · cases h
      · split at h
        all_goals
          rename_i hj
          cases h
          exact ⟨rfl, by simp [hj]⟩

/-- An accepted destination holds a `JUMPDEST`. -/
theorem Destinations.has_jumpdest {d d' : Destinations} {h : Hash} {code : Bytes} {pos : Int}
    (hh : d.has h code pos = some (true, d')) :
    bitLen pos < 63 ∧ code[(uint64 pos).toNat]? = some 0x5b := by
  unfold has at hh
  simp only at hh
  split at hh
  · cases hh
  · rename_i hb
    obtain ⟨⟨m, d1⟩, -, hh⟩ := Option.bind_eq_some_iff.mp hh
    simp only at hh
    split_ifs at hh with hj
    · exact ⟨by omega, hj⟩
    · cases hh

theorem jumpTo_begun {evm : Evm} {fr : Frame} {pos : Int} {st : Stack} {r : ExecResult}
    (h : jumpTo evm fr pos st = some r) (herr : r.err = none) : r.frame.Begun := by
  obtain ⟨⟨ok, d⟩, hhas, rfl⟩ := Option.map_eq_some_iff.mp h
  cases ok with
  | false => cases herr
  | true =>
    intro hpc
    have hb := (Destinations.has_jumpdest hhas).2
    simp only [if_true] at hpc ⊢
    rw [hpc] at hb
    exact .inr (by simp [Contract.getByte, List.getD_eq_getElem?_getD, hb])

/-- Only a jump leads to position zero. -/
theorem simple_begun {op : OpCode} {env : Env} {run : RunFn} {evm : Evm} {fr : Frame}
    {res : ExecResult} (hc : op.isCall = false)
    (h : (operation op).execute env run evm fr = .ok res) (herr : res.err = none) :
    Frame.Begun { res.frame with
      pc := if (operation op).jumps then res.frame.pc else res.frame.pc + 1 } := by
  by_cases hj : op.isJump = true
  · cases op
    case JUMP =>
      simp only [operation, entry] at h
      replace h := simple_eq_ok.mp h
      unfold opJump at h
      split at h
      · exact jumpTo_begun h herr
      · cases h
    case JUMPI =>
      simp only [operation, entry] at h
      replace h := simple_eq_ok.mp h
      unfold opJumpi at h
      split at h
      · split_ifs at h
        · exact jumpTo_begun h herr
        · cases h
          intro hpc
          cases hpc
      · cases h
    all_goals cases hj
  · have hjumps : (operation op).jumps = false := by
      cases op <;> first | rfl | exact absurd rfl hj
    intro hpc
    simp only [hjumps] at hpc
    cases hpc

/-- An iteration that goes on stays in its frame. -/
theorem step_next {env : Env} {run : RunFn} {evm evm' : Evm} {fr fr' : Frame}
    (h : step env env.jumpTable run evm fr = .ok (.next evm' fr')) :
    fr'.Begun ∧ fr'.contract.fixed = fr.contract.fixed := by
  generalize hs : StepResult.next evm' fr' = s at h
  cases step_cases h with
  | rejected => cases hs
  | unpaid => cases hs
  | @simple op n evm1 fr1 res ready hc charged executed =>
    obtain ⟨herr, rfl⟩ := finish_eq_next hs.symm
    refine ⟨simple_begun hc executed herr, ?_⟩
    rw [← (charge_spec charged).fixed n]
    apply Contract.fixed_eq
    rw [(execute_simple hc executed).contract]
  | @call op n evm1 fr1 i r res ready hc charged invocation invoked resumed =>
    obtain ⟨herr, rfl⟩ := finish_eq_next hs.symm
    have hjumps : (operation op).jumps = false := by
      cases op <;> first | rfl | cases hc
    refine ⟨fun hpc => ?_, ?_⟩
    · simp only [hjumps] at hpc
      cases hpc
    · rw [← (charge_spec charged).fixed n, ← op.handedOver_fixed env (fr1.expand n).contract]
      apply Contract.fixed_eq
      rw [(OpCode.resume_spec resumed).contract]

theorem loop_evolves {env : Env} {run : RunFn} (hrun : RunEvolves env run) {n : Nat} {evm : Evm}
    {fr : Frame} {r : RunResult} (begun : fr.Begun)
    (h : loop env env.jumpTable run n evm fr = .ok r) :
    Evolves env (.frame fr.contract.fixed) evm r.evm := by
  induction n generalizing evm fr with
  | zero => cases h
  | succ n ih =>
    unfold loop at h
    split_ifs at h
    · cases h
      exact .refl ..
    · obtain ⟨s, hstep, h⟩ := Outcome.bind_eq_ok.mp h
      have hs := step_evolves hrun begun hstep
      cases s with
      | done r' =>
        cases h
        exact hs
      | next evm' fr' =>
        obtain ⟨begun', hfixed⟩ := step_next hstep
        exact hs.trans (hfixed ▸ ih begun' h)

/-- Every run of the interpreter, for any fuel, does only what a call tree may do. -/
theorem interpreterRun_evolves (env : Env) (n : Nat) :
    RunEvolves env (interpreterRun env env.jumpTable n) := by
  induction n with
  | zero =>
    intro evm contract input r h
    cases h
  | succ n ih =>
    intro evm contract input r h
    obtain ⟨r', h', h⟩ := Outcome.bind_eq_ok.mp h
    cases h
    split_ifs at h' with hcode
    · cases h'
      exact .empty hcode
    · have begun : (Frame.start contract input).Begun := fun _ => .inl rfl
      exact .code hcode (loop_evolves ih begun h')

/-- The ghosts only grow. -/
structure Evm.Grows (a b : Evm) : Prop where
  history : a.stateDB.history <+: b.stateDB.history
  trace : a.trace <+: b.trace

namespace Evm.Grows

theorem refl (a : Evm) : a.Grows a := ⟨List.prefix_rfl, List.prefix_rfl⟩

theorem trans {a b c : Evm} (h : a.Grows b) (h' : b.Grows c) : a.Grows c :=
  ⟨h.history.trans h'.history, h.trace.trans h'.trace⟩

theorem emit (a : Evm) (e : Event) : a.Grows (a.emit e) :=
  ⟨List.prefix_rfl, List.prefix_append ..⟩

end Evm.Grows

theorem canTransfer_history (db : StateDB) (a : Address) (v : Int) :
    (canTransfer db a v).2.history = db.history ++ [.getBalance a] := rfl

theorem transfer_history (db : StateDB) (a b : Address) (v : Int) :
    (transfer db a b v).history = db.history ++ [.subBalance a v, .addBalance b v] := by
  simp [transfer, StateDB.addBalance, StateDB.history_subBalance]

theorem OpCode.gasEffect_history (op : OpCode) (env : Env) (db : StateDB) (fr : Frame) :
    db.history <+: (op.gasEffect env db fr).history := by
  unfold gasEffect
  split
  · exact List.prefix_append ..
  · simp only [StateDB.hasSuicided, StateDB.history_record, StateDB.history_put]
    split_ifs
    · simp [StateDB.getBalance]
    · exact List.prefix_append ..
  · exact List.prefix_rfl

theorem newAccount_history (env : Env) (db : StateDB) (a b : Address) (v : Int) :
    db.history <+: (newAccount env db a b v).history := by
  simp only [newAccount, transfer_history]
  split_ifs
  · simp [StateDB.setNonce, StateDB.createAccount]
  · simp [StateDB.createAccount]

theorem OpCode.effect_grows (op : OpCode) (env : Env) (evm : Evm) (fr : Frame) :
    evm.Grows (op.effect env evm fr) := by
  unfold effect
  split
  case h_6 =>
    split
    · unfold markOverflow
      split_ifs
      · exact ⟨List.prefix_append .., List.prefix_rfl⟩
      · exact .refl _
    · exact .refl _
  case h_4 => exact ⟨by simp [StateDB.getBalance, StateDB.addBalance, StateDB.suicide], List.prefix_rfl⟩
  all_goals exact ⟨List.prefix_append ..,
    by first | exact List.prefix_rfl | exact List.prefix_append ..⟩

/-- Executing adds nothing to the trace but invocations of the callback. -/
theorem OpCode.effect_trace (op : OpCode) (env : Env) (evm : Evm) (fr : Frame) :
    ∃ evs, (op.effect env evm fr).trace = evm.trace ++ evs ∧
      ∀ e ∈ evs, ∃ site loc val, e = .callback site loc val := by
  unfold effect
  split
  case h_2 | h_3 => exact ⟨[_], rfl, fun e he => ⟨_, _, _, List.mem_singleton.mp he⟩⟩
  case h_6 =>
    split
    · unfold markOverflow
      split_ifs <;> exact ⟨[], (List.append_nil _).symm, fun e he => by cases he⟩
    · exact ⟨[], (List.append_nil _).symm, fun e he => by cases he⟩
  all_goals exact ⟨[], (List.append_nil _).symm, fun e he => by cases he⟩

theorem Evolves.grows {env : Env} {s : Site} {a b : Evm} (h : Evolves env s a b) : a.Grows b := by
  induction h with
  | refl => exact .refl _
  | trans _ _ ih ih' => exact ih.trans ih'
  | @attempt evm evm' fr fr' op n ready charged =>
    rw [charged.world]
    refine ⟨?_, List.prefix_append ..⟩
    simp only [charged.stateDB]
    split_ifs
    · exact List.prefix_rfl
    · exact op.gasEffect_history env _ fr
  | @execute evm fr op n ready begun hc =>
    exact (Evm.Grows.emit ..).trans (op.effect_grows env _ fr)
  | callInstruction => exact .emit ..
  | output => exact ⟨List.prefix_rfl, List.prefix_rfl⟩
  | checkBalance => exact ⟨List.prefix_append .., List.prefix_rfl⟩
  | pay => exact ⟨by simp [transfer_history, canTransfer_history], List.prefix_rfl⟩
  | failCreate => exact ⟨List.prefix_append .., List.prefix_rfl⟩
  | collide =>
    exact ⟨by simp [StateDB.raiseNonce, StateDB.setNonce, canTransfer_history], List.prefix_rfl⟩
  | @create s evm evm' evm'' db addr value depth may can hdb haddr free inner stored ih =>
    have hn : evm.stateDB.history <+: (newAccount env db s.address addr value).history := by
      refine List.IsPrefix.trans ?_ (newAccount_history ..)
      simp [hdb, StateDB.raiseNonce, StateDB.setNonce, canTransfer_history]
    have hin : evm.Grows evm' := ⟨hn.trans ih.history, ih.trace⟩
    obtain rfl | ⟨-, code, rfl⟩ := stored
    · exact hin
    · exact hin.trans ⟨List.prefix_append .., List.prefix_rfl⟩
  | enter => exact .emit ..
  | run pass code inner ih => exact ⟨ih.history, ih.trace⟩
  | static outermost inner ih => exact ⟨ih.history, ih.trace⟩

/-- An evolution ends at the depth and in the mode where it started. -/
theorem Evolves.mode {env : Env} {s : Site} {a b : Evm} (h : Evolves env s a b) :
    b.depth = a.depth ∧ b.readOnly = a.readOnly := by
  induction h with
  | refl => exact ⟨rfl, rfl⟩
  | trans _ _ ih ih' => exact ⟨ih'.1.trans ih.1, ih'.2.trans ih.2⟩
  | attempt ready charged =>
    rw [charged.world]
    exact ⟨rfl, rfl⟩
  | @execute evm fr op n ready begun hc =>
    unfold OpCode.effect
    split
    case h_6 =>
      split
      · unfold markOverflow
        split_ifs <;> exact ⟨rfl, rfl⟩
      · exact ⟨rfl, rfl⟩
    all_goals exact ⟨rfl, rfl⟩
  | create value depth may can hdb haddr free inner stored ih =>
    obtain rfl | ⟨-, code, rfl⟩ := stored
    · exact ih
    · exact ih
  | run pass code inner ih => exact ⟨by simp [ih.1], ih.2⟩
  | static outermost inner ih => exact ⟨ih.1, outermost.symm⟩
  | _ => exact ⟨rfl, rfl⟩

end MiniEvm
