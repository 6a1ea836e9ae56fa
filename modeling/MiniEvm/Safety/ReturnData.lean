import MiniEvm.Detectors.ContractUtils
import MiniEvm.Vm.Visits

namespace MiniEvm

open Math Framework

/-- How a frame ends: what its code gives back, and the error. -/
inductive EndsAs (env : Env) (evm : Evm) (fr : Frame) : Option VmError → Bytes → Prop
  | aborted (abort : evm.abort = true) : EndsAs env evm fr none []
  | stopped {op : OpCode} {n : UInt64} (ready : Ready env evm fr op n)
      (halts : op = .STOP ∨ op = .SELFDESTRUCT) : EndsAs env evm fr none []
  | returned {n : UInt64} {offset size : Int} {st : Stack} {data : Bytes}
      (ready : Ready env evm fr .RETURN n) (operands : fr.stack = offset :: size :: st)
      (memory : (fr.expand n).mem.get (int64 offset) (int64 size) = some data) :
      EndsAs env evm fr none data
  | reverted {n : UInt64} {offset size : Int} {st : Stack} {data : Bytes}
      (ready : Ready env evm fr .REVERT n) (operands : fr.stack = offset :: size :: st)
      (memory : (fr.expand n).mem.get (int64 offset) (int64 size) = some data) :
      EndsAs env evm fr (some .executionReverted) data
  | failed {e : VmError} (other : e = .executionReverted → ∀ n, ¬ Ready env evm fr .REVERT n) :
      EndsAs env evm fr (some e) []

def Entry.isCreate : Entry → Bool
  | create .. => true
  | _ => false

/-- What an invocation gives back: the data of a revert, and for calls also the data of a success.
Nothing when the callee is cut off or fails. -/
def Entry.output (env : Env) (run : RunFn) (evm : Evm) (caller : ContractRef) (gas : UInt64)
    (e : Entry) : Bytes :=
  match e.prepare env evm caller gas with
  | some (.inr l) =>
    match runContract env run l.evm l.contract l.input with
    | .ok r =>
      if r.err = some .executionReverted ∨ (r.err = none ∧ e.isCreate = false) then r.ret else []
    | _ => []
  | _ => []

/-- The output of the call or creation that the next instruction of a frame makes, if it makes one. -/
def completed (env : Env) (run : RunFn) (evm : Evm) (fr : Frame) : Option Bytes :=
  (invoking env evm fr).map fun (i, evm') => i.entry.output env run evm' (.contract i.caller) i.gas

/-- The most recent output, if there is any. -/
def lastOutput (outs : List (Option Bytes)) : Bytes := outs.reduceOption.getLast?.getD []

theorem lastOutput_concat (outs : List (Option Bytes)) (x : Option Bytes) :
    lastOutput (outs ++ [x]) = x.getD (lastOutput outs) := by
  cases x with
  | none => simp [lastOutput, List.reduceOption_append]
  | some b => simp [lastOutput, List.reduceOption_append]

/-- Only a success or a revert gives data back. -/
def RunResult.Reports (r : RunResult) : Prop :=
  r.err = none ∨ r.err = some .executionReverted ∨ r.ret = []

/-- Every contract that a machine can run reports as the interpreter does. -/
theorem runPrecompiledContract_reports {crypto : Crypto} {p : Precompiled} {input ret : Bytes}
    {c c' : Contract} {err : Option VmError}
    (h : runPrecompiledContract crypto p input c = some (ret, err, c')) : err = none ∨ ret = [] := by
  have hcurve : ∀ x, (Precompiled.ofCurve x).2 = none ∨ (Precompiled.ofCurve x).1 = [] := by
    intro x
    cases x with
    | ok b => exact .inl rfl
    | error e => exact .inr rfl
  unfold runPrecompiledContract at h
  obtain ⟨gas, -, h⟩ := Option.bind_eq_some_iff.mp h
  split at h
  · obtain ⟨⟨ret', err'⟩, hrun, heq⟩ := Option.map_eq_some_iff.mp h
    cases heq
    cases p with
    | bigModExp =>
      obtain ⟨b, -, heq⟩ := Option.map_eq_some_iff.mp hrun
      cases heq
      exact .inl rfl
    | bn256Add | bn256ScalarMul | bn256Pairing =>
      have hret := congrArg Prod.fst (Option.some.inj hrun)
      have herr := congrArg Prod.snd (Option.some.inj hrun)
      simp only at hret herr
      rw [← hret, ← herr]
      exact (hcurve _)
    | _ =>
      cases hrun
      exact .inl rfl
  · cases h
    exact .inr rfl

theorem runContract_reports {env : Env} {run : RunFn} {evm : Evm} {c : Contract} {input : Bytes}
    {r : RunResult} (hrun : ∀ evm c input r, run evm c input = .ok r → r.Reports)
    (h : runContract env run evm c input = .ok r) : r.Reports := by
  unfold runContract at h
  simp only at h
  split at h
  · rw [Outcome.ofOption_eq_ok] at h
    obtain ⟨⟨ret, err, c'⟩, hp, heq⟩ := Option.map_eq_some_iff.mp h
    cases heq
    obtain herr | hret := runPrecompiledContract_reports hp
    · exact .inl herr
    · exact .inr (.inr hret)
  · exact hrun _ _ _ _ h

theorem settle_ret (snapshot : Int) (r : RunResult) : (settle snapshot r).ret = r.ret := by
  unfold settle
  split <;> rfl

theorem settleCreate_reverted (env : Env) (snapshot : Int) (addr : Address) (r : RunResult) :
    (settleCreate env snapshot addr r).err = some .executionReverted ↔
      r.err = some .executionReverted := by
  unfold settleCreate
  simp only
  split_ifs with hstore hmax <;> simp_all
  all_goals split <;> simp_all

/-- A cut-off gives nothing back. -/
theorem Entry.prepare_inl_ret {env : Env} {evm : Evm} {caller : ContractRef} {gas : UInt64} {e : Entry}
    {r : CreateResult} (h : e.prepare env evm caller gas = some (.inl r)) : r.ret = [] := by
  have hrefuse : ∀ r, refuse env evm caller gas = some r → r.ret = [] := by
    intro r hr
    unfold refuse at hr
    split_ifs at hr <;> cases hr <;> rfl
  cases e with
  | call addr input value | callCode addr input value =>
    simp only [prepare] at h
    split at h
    · rename_i hr
      cases h
      exact hrefuse _ hr
    · split_ifs at h <;> cases h
      rfl
  | delegateCall addr input =>
    simp only [prepare] at h
    split at h
    · rename_i hr
      cases h
      exact hrefuse _ hr
    · obtain ⟨c, -, h⟩ := Option.map_eq_some_iff.mp h
      cases h
  | staticCall addr input =>
    simp only [prepare] at h
    split at h
    · rename_i hr
      cases h
      exact hrefuse _ hr
    · cases h
  | create code value =>
    simp only [prepare] at h
    split_ifs at h <;> cases h <;> rfl

/-- What a call instruction reports of the result of its entry point. -/
def CreateResult.reported (r : CreateResult) (create : Bool) : Bytes :=
  if create then (if r.err = some .executionReverted then r.ret else []) else r.ret

theorem Entry.invoke_output {env : Env} {run : RunFn} {evm : Evm} {caller : ContractRef} {gas : UInt64}
    {e : Entry} {r : CreateResult} (hrun : ∀ evm c input r, run evm c input = .ok r → r.Reports)
    (h : e.invoke env run evm caller gas = .ok r) :
    r.reported e.isCreate = e.output env run evm caller gas := by
  rw [invoke_eq] at h
  obtain ⟨x, hx, h⟩ := Outcome.bind_eq_ok.mp h
  rw [Outcome.ofOption_eq_ok] at hx
  unfold output
  rw [hx]
  cases x with
  | inl r' =>
    cases h
    simp only [CreateResult.reported, prepare_inl_ret hx, ite_self]
  | inr l =>
    obtain ⟨rr, hrr, h⟩ := Outcome.bind_eq_ok.mp h
    cases h
    simp only [hrr]
    have hreports := runContract_reports hrun hrr
    have hcall : (if rr.err = some .executionReverted ∨ rr.err = none then rr.ret else []) = rr.ret := by
      obtain h | h | h := hreports <;> simp [h]
    cases e with
    | create code value =>
      simp only [CreateResult.reported, isCreate, conclude, if_true, settleCreate_reverted,
        Bool.true_eq_false, and_false, or_false]
      rfl
    | staticCall addr input =>
      simp only [CreateResult.reported, isCreate, conclude, Bool.false_eq_true, if_false, and_true,
        hcall]
      cases evm.readOnly <;> exact settle_ret 0 rr
    | _ =>
      simp only [CreateResult.reported, isCreate, conclude, Bool.false_eq_true, if_false, and_true,
        hcall]
      exact settle_ret 0 rr

theorem OpCode.resume_ret {op : OpCode} {env : Env} {fr : Frame} {r : CreateResult} {x : ExecResult}
    (h : op.resume env fr r = .ok x) : x.ret = r.reported (op = .CREATE) := by
  have hcall : ∀ st out outLen, finishCall fr st out outLen r.toCallResult = .ok x → x.ret = r.ret := by
    intro st out outLen h
    unfold finishCall at h
    obtain ⟨mem, -, h⟩ := Outcome.bind_eq_ok.mp h
    cases h
    rfl
  unfold resume at h
  split at h
  case h_1 =>
    cases h
    rfl
  case h_6 => cases h
  all_goals exact hcall _ _ _ h

theorem OpCode.invocation_isCreate {op : OpCode} {env : Env} {evm : Evm} {fr : Frame}
    {i : Invocation} (h : op.invocation env evm fr = some i) :
    i.entry.isCreate = decide (op = .CREATE) := by
  unfold invocation at h
  split at h
  case h_6 => cases h
  all_goals
    obtain ⟨input, -, rfl⟩ := Option.map_eq_some_iff.mp h
    rfl

theorem OpCode.effect_returnData (op : OpCode) (env : Env) (evm : Evm) (fr : Frame) :
    (op.effect env evm fr).returnData = evm.returnData := by
  unfold effect
  split
  case h_6 =>
    split
    · unfold markOverflow
      split_ifs <;> rfl
    · rfl
  all_goals rfl

theorem finish_next_reverts {o : Operation} {res : ExecResult} {evm : Evm} {fr : Frame}
    (h : finish o res = .next evm fr) : o.reverts = false := by
  obtain ⟨herr, -⟩ := finish_eq_next h
  unfold finish at h
  simp only [herr] at h
  split_ifs at h with hreverts
  all_goals exact Bool.eq_false_of_not_eq_true hreverts

/-- Only calls and creations touch the buffer of a frame that goes on. -/
theorem step_returnData {env : Env} {run : RunFn} {evm evm' : Evm} {fr fr' : Frame}
    (hrun : ∀ evm c input r, run evm c input = .ok r → r.Reports)
    (h : step env env.jumpTable run evm fr = .ok (.next evm' fr')) :
    evm'.returnData = (completed env run evm fr).getD evm.returnData := by
  have hcases := step_cases h
  generalize hs : StepResult.next evm' fr' = s at hcases
  cases hcases with
  | rejected | unpaid => cases hs
  | @simple op n evm1 fr1 res ready hc charged executed =>
    have hevm := congrArg StepResult.evm hs
    have hreverts := finish_next_reverts hs.symm
    have hreturns : (operation op).returns = false := by
      cases op
      case REVERT => cases hreverts
      case CREATE | CALL | CALLCODE | DELEGATECALL | STATICCALL => cases hc
      all_goals rfl
    rw [finish_evm, hreturns, if_neg Bool.false_ne_true, (execute_simple hc executed).evm] at hevm
    have hcharged : evm1.returnData = evm.returnData := by
      rw [(charge_spec charged).world]
      rfl
    rw [completed, ready.invoking_none hc]
    calc evm'.returnData
        = (op.effect env (evm1.executing (fr1.expand n) op) (fr1.expand n)).returnData :=
          congrArg (·.returnData) hevm
      _ = evm1.returnData := op.effect_returnData ..
      _ = evm.returnData := hcharged
  | @call op n evm1 fr1 i r res ready hc charged invocation invoked resumed =>
    have hevm := congrArg StepResult.evm hs
    have hreturns : (operation op).returns = true := by
      cases op <;> first | rfl | cases hc
    rw [finish_evm, hreturns, if_pos rfl] at hevm
    have hbuffer : evm'.returnData = res.ret := congrArg (·.returnData) hevm
    rw [hbuffer, completed, ready.invoking_some hc charged, invocation, OpCode.resume_ret resumed,
      ← OpCode.invocation_isCreate invocation, Entry.invoke_output hrun invoked]
    rfl

theorem iterates_returnData {env : Env} {run : RunFn} {evm₀ evm : Evm} {fr₀ fr : Frame}
    {outs : List (Option Bytes)} (hrun : ∀ evm c input r, run evm c input = .ok r → r.Reports)
    (hstart : evm₀.returnData = [])
    (h : Iterates env run (fun _ _ => True) (completed env run) evm₀ fr₀ outs evm fr) :
    evm.returnData = lastOutput outs := by
  induction h with
  | start => exact hstart
  | step before holds next ih => rw [step_returnData hrun next, lastOutput_concat, ih]

theorem Memory.get_congr {m m' : Memory} (h : m.store = m'.store) (offset size : Int) :
    m.get offset size = m'.get offset size := by
  unfold get len
  rw [h]

theorem Frame.expand_store {fr fr' : Frame} (h : fr'.mem.store = fr.mem.store) (n : UInt64) :
    (fr'.expand n).mem.store = (fr.expand n).mem.store := by
  have hresize : ∀ m : Memory, (m.resize n).store =
      if m.store.length < n.toNat then m.store ++ List.replicate (n.toNat - m.store.length) 0
      else m.store := by
    intro m
    unfold Memory.resize Memory.len
    split_ifs <;> rfl
  unfold expand
  split_ifs
  · rw [hresize, hresize, h]
  · exact h

/-- What `RETURN` and `REVERT` read. -/
theorem opReturn_reads {env : Env} {evm : Evm} {fr : Frame} {res : ExecResult}
    (h : opReturn env evm fr = some res) : res.err = none ∧ ∃ offset size st,
      fr.stack = offset :: size :: st ∧ fr.mem.get (int64 offset) (int64 size) = some res.ret := by
  unfold opReturn at h
  split at h
  · rename_i offset size st hst
    obtain ⟨ret, hret, rfl⟩ := Option.map_eq_some_iff.mp h
    exact ⟨rfl, offset, size, st, hst, hret⟩
  · cases h

theorem Ready.unique {env : Env} {evm : Evm} {fr : Frame} {op op' : OpCode} {n n' : UInt64}
    (h : Ready env evm fr op n) (h' : Ready env evm fr op' n') : op = op' :=
  Option.some.inj (h.opcode.symm.trans h'.opcode)

theorem step_endsAs {env : Env} {run : RunFn} {evm : Evm} {fr : Frame} {r : RunResult}
    (h : step env env.jumpTable run evm fr = .ok (.done r)) : EndsAs env evm fr r.err r.ret := by
  have hcases := step_cases h
  generalize hs : StepResult.done r = s at hcases
  cases hcases with
  | rejected hf =>
    cases hs
    refine .failed fun _ n hready => ?_
    rw [hready.fetched] at hf
    cases hf
  | unpaid =>
    cases hs
    exact .failed fun he => by cases he
  | @simple op n evm1 fr1 res ready hc charged executed =>
    have hstore := Frame.expand_store (charge_spec charged).store n
    have hstack : (fr1.expand n).stack = fr.stack := by
      rw [Frame.expand_stack, (charge_spec charged).stack]
    have hread : simple opReturn env run (evm1.executing (fr1.expand n) op) (fr1.expand n) = .ok res →
        res.err = none ∧ ∃ offset size st, fr.stack = offset :: size :: st ∧
          (fr.expand n).mem.get (int64 offset) (int64 size) = some res.ret := by
      intro hres
      obtain ⟨herr, offset, size, st, hst, hmem⟩ := opReturn_reads (simple_eq_ok.mp hres)
      exact ⟨herr, offset, size, st, hstack.symm.trans hst,
        (Memory.get_congr hstore _ _).symm.trans hmem⟩
    cases herr : res.err with
    | some e =>
      have hr : r.err = some e ∧ r.ret = [] := by
        simp only [finish, herr] at hs
        cases hs
        exact ⟨rfl, rfl⟩
      rw [hr.1, hr.2]
      refine .failed fun _ n' hrevert => ?_
      obtain rfl := ready.unique hrevert
      have hnone := (hread executed).1
      rw [herr] at hnone
      cases hnone
    | none =>
      simp only [finish, herr] at hs
      cases op
      case REVERT =>
        cases hs
        obtain ⟨-, offset, size, st, hst, hmem⟩ := hread executed
        exact .reverted ready hst hmem
      case RETURN =>
        cases hs
        obtain ⟨-, offset, size, st, hst, hmem⟩ := hread executed
        exact .returned ready hst hmem
      case STOP =>
        cases hs
        have hres : simple opStop env run _ _ = .ok res := executed
        cases simple_eq_ok.mp hres
        exact .stopped ready (.inl rfl)
      case SELFDESTRUCT =>
        cases hs
        have hres : simple opSuicide env run _ _ = .ok res := executed
        rw [simple_eq_ok] at hres
        unfold opSuicide at hres
        split at hres <;> cases hres
        exact .stopped ready (.inr rfl)
      case CREATE | CALL | CALLCODE | DELEGATECALL | STATICCALL => cases hc
      case JUMP | JUMPI => cases hs
      all_goals cases hs
  | @call op n evm1 fr1 i rr res ready hc charged invocation invoked resumed =>
    have herr := (OpCode.resume_spec resumed).err
    simp only [finish, herr] at hs
    cases op <;> first | (cases hc; done) | cases hs

/-- The state in which a loop ends. -/
theorem loop_endsAs {env : Env} {run : RunFn} {k : Nat} {evm : Evm} {fr : Frame} {r : RunResult}
    (h : loop env env.jumpTable run k evm fr = .ok r) :
    ∃ evm' fr', Reaches env run evm fr evm' fr' ∧ EndsAs env evm' fr' r.err r.ret := by
  -- by induction on the iterations, from any state that the frame has reached
  suffices hfrom : ∀ evm₁ fr₁, Reaches env run evm fr evm₁ fr₁ →
      loop env env.jumpTable run k evm₁ fr₁ = .ok r →
        ∃ evm' fr', Reaches env run evm fr evm' fr' ∧ EndsAs env evm' fr' r.err r.ret from
    hfrom evm fr ⟨[], .start⟩ h
  clear h
  induction k with
  | zero =>
    intro evm₁ fr₁ _ h
    cases h
  | succ k ih =>
    intro evm₁ fr₁ reached h
    cases habort : evm₁.abort with
    | true =>
      simp only [loop, habort, if_true] at h
      cases h
      exact ⟨evm₁, fr₁, reached, .aborted habort⟩
    | false =>
      simp only [loop, habort, Bool.false_eq_true, if_false] at h
      obtain ⟨s, hs, h⟩ := Outcome.bind_eq_ok.mp h
      cases s with
      | next evm₂ fr₂ =>
        obtain ⟨xs, before⟩ := reached
        exact ih evm₂ fr₂ ⟨_, before.step trivial hs⟩ h
      | done r' =>
        cases h
        exact ⟨evm₁, fr₁, reached, step_endsAs hs⟩

theorem EndsAs.reports {env : Env} {evm : Evm} {fr : Frame} {err : Option VmError} {ret : Bytes}
    (h : EndsAs env evm fr err ret) : err = none ∨ err = some .executionReverted ∨ ret = [] := by
  cases h with
  | aborted | stopped | returned => exact .inl rfl
  | reverted => exact .inr (.inl rfl)
  | failed => exact .inr (.inr rfl)

/-- A run of the interpreter ends as the last instruction of its frame says. -/
theorem interpreterRun_endsAs {env : Env} {k : Nat} {evm : Evm} {c : Contract} {input : Bytes}
    {r : RunResult} (h : interpreterRun env env.jumpTable (k + 1) evm c input = .ok r)
    (hcode : c.code ≠ []) :
    ∃ evm' fr', Reaches env (interpreterRun env env.jumpTable k)
        { evm with depth := evm.depth + 1, returnData := [] } (Frame.start c input) evm' fr' ∧
      EndsAs env evm' fr' r.err r.ret := by
  simp only [interpreterRun, if_neg hcode] at h
  obtain ⟨r', hr', h⟩ := Outcome.bind_eq_ok.mp h
  cases h
  have hends := loop_endsAs hr'
  exact hends

theorem interpreterRun_reports (env : Env) (k : Nat) (evm : Evm) (c : Contract) (input : Bytes)
    (r : RunResult) (h : interpreterRun env env.jumpTable k evm c input = .ok r) : r.Reports := by
  cases k with
  | zero => cases h
  | succ k =>
    by_cases hcode : c.code = []
    · simp only [interpreterRun, if_pos hcode] at h
      cases h
      exact .inl rfl
    · obtain ⟨evm', fr', -, hends⟩ := interpreterRun_endsAs h hcode
      exact hends.reports

theorem Reaches.logged {env : Env} {run : RunFn} {evm₀ evm : Evm} {fr₀ fr : Frame} {α : Type}
    (log : Evm → Frame → α) (h : Reaches env run evm₀ fr₀ evm fr) :
    ∃ xs, Iterates env run (fun _ _ => True) log evm₀ fr₀ xs evm fr := by
  obtain ⟨us, h⟩ := h
  induction h with
  | start => exact ⟨[], .start⟩
  | step before holds next ih =>
    obtain ⟨xs, hxs⟩ := ih
    exact ⟨_, hxs.step trivial next⟩

/-- The buffer is local to the frame. Every state of every frame of a call tree is reached by that
frame's own iterations; the buffer there is the output of the last call or creation that these
completed, and empty before the first; and the run of a callee ends as its last instruction says. -/
theorem returnData_frame_local (env : Env) :
    (∀ evm₀ caller gas e acts evm fr, Visits env evm₀ caller gas e acts evm fr →
      ∃ (l : Launch) (k : Nat) (outs : List (Option Bytes)),
        acts.head?.map Activation.contract = some l.contract ∧
        Iterates env (interpreterRun env env.jumpTable k) (fun _ _ => True)
          (completed env (interpreterRun env env.jumpTable k)) l.begun
          (Frame.start l.contract l.input) outs evm fr) ∧
    (∀ (l : Launch) k outs evm fr,
      Iterates env (interpreterRun env env.jumpTable k) (fun _ _ => True)
        (completed env (interpreterRun env env.jumpTable k)) l.begun
        (Frame.start l.contract l.input) outs evm fr → evm.returnData = lastOutput outs) ∧
    ∀ k evm c input r, interpreterRun env env.jumpTable (k + 1) evm c input = .ok r →
      (c.code = [] ∧ r.err = none ∧ r.ret = []) ∨
      ∃ evm' fr', Reaches env (interpreterRun env env.jumpTable k)
          { evm with depth := evm.depth + 1, returnData := [] } (Frame.start c input) evm' fr' ∧
        EndsAs env evm' fr' r.err r.ret := by
  refine ⟨?_, ?_, ?_⟩
  · intro evm₀ caller gas e acts evm fr h
    cases h with
    | @root l k _ _ enters within =>
      obtain ⟨outs, houts⟩ := within.logged (completed env (interpreterRun env env.jumpTable k))
      exact ⟨l, k, outs, rfl, houts⟩
    | @nested _ _ _ _ _ _ _ _ _ _ l k outer ready hc charged invocation enters within =>
      obtain ⟨outs, houts⟩ := within.logged (completed env (interpreterRun env env.jumpTable k))
      exact ⟨l, k, outs, rfl, houts⟩
  · intro l k outs evm fr h
    exact iterates_returnData (interpreterRun_reports env k) rfl h
  · intro k evm c input r h
    by_cases hcode : c.code = []
    · simp only [interpreterRun, if_pos hcode] at h
      cases h
      exact .inl ⟨hcode, rfl, rfl⟩
    · exact .inr (interpreterRun_endsAs h hcode)

end MiniEvm
