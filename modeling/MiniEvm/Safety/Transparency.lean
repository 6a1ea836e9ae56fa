import MiniEvm.Detectors.FuzzInt
import MiniEvm.Vm.Blind
import MiniEvm.Vm.Evolution

namespace MiniEvm

open Math Framework

/-! ## What the entry points make of alike machines -/

structure RunResult.Alike (r r' : RunResult) : Prop where
  ret : r.ret = r'.ret
  err : r.err = r'.err
  contract : r.contract = r'.contract
  evm : r.evm.Alike r'.evm

/-- Results that differ at most in the marker slots of the store. -/
structure CreateResult.Alike (r r' : CreateResult) : Prop where
  ret : r.ret = r'.ret
  leftOverGas : r.leftOverGas = r'.leftOverGas
  err : r.err = r'.err
  jumpdests : r.jumpdests = r'.jumpdests
  contractAddr : r.contractAddr = r'.contractAddr
  evm : r.evm.Alike r'.evm

structure Launch.Alike (l l' : Launch) : Prop where
  evm : l.evm.Alike l'.evm
  contract : l.contract = l'.contract
  input : l.input = l'.input

theorem stopped_alike {evm evm' : Evm} (h : evm.Alike evm') (caller : ContractRef) (gas : UInt64)
    (err : Option VmError) (addr : Address) :
    (stopped evm caller gas err addr).Alike (stopped evm' caller gas err addr) :=
  ⟨rfl, rfl, rfl, rfl, rfl, h⟩

theorem calleeContract_alike {db db' : StateDB} (h : db.Alike db') (caller : ContractRef)
    (self addr : Address) (value : Int) (gas : UInt64) :
    calleeContract db caller self addr value gas = calleeContract db' caller self addr value gas := by
  unfold calleeContract
  rw [h.codeHash, h.code]

theorem newAccount_alike (env : Env) {db db' : StateDB} (h : db.Alike db') {creator : Address}
    (hp : db.present creator = true) (hp' : db'.present creator = true) (addr : Address) (value : Int) :
    (newAccount env db creator addr value).Alike (newAccount env db' creator addr value) := by
  have hstays : ∀ (d : StateDB) (op : StateOp), d.present creator = true →
      (d.perform op).present creator = true := by
    intro d op hd
    rw [d.present_perform, hd, Bool.true_or]
  have hcreate : (db.createAccount addr).Alike (db'.createAccount addr) :=
    h.enter (.createAccount addr) rfl
  have hpc := hstays db (.createAccount addr) hp
  have hpc' := hstays db' (.createAccount addr) hp'
  unfold newAccount
  cases env.isEIP158 with
  | false => exact hcreate.transfer hpc hpc' addr value
  | true =>
    exact (hcreate.enter (.setNonce addr 1) rfl).transfer
      (hstays _ (.setNonce addr 1) hpc) (hstays _ (.setNonce addr 1) hpc') addr value

theorem collides_alike (env : Env) {db db' : StateDB} (h : db.Alike db') (addr : Address) :
    collides env db addr = collides env db' addr := by
  unfold collides
  rw [h.nonce, h.codeHash]

theorem present_raiseNonce {db : StateDB} {a : Address} (h : db.present a = true) :
    (db.raiseNonce a).present a = true := by
  have hset := db.present_perform (.setNonce a (db.getNonce a + 1)) a
  rwa [h, Bool.true_or] at hset

namespace Entry

variable {env : Env} {evm evm' : Evm} {caller : ContractRef} {gas : UInt64}

theorem refuse_alike (h : evm.Alike evm') :
    Option.Rel CreateResult.Alike (refuse env evm caller gas) (refuse env evm' caller gas) := by
  unfold refuse
  rw [h.world.depth]
  split_ifs
  · exact .some (stopped_alike h ..)
  · exact .some (stopped_alike h ..)
  · exact .none

/-- A call that is refused at one machine is refused at the other. -/
theorem refused_alike (h : evm.Alike evm') {o o' : Option (CreateResult ⊕ Launch)}
    (ho : Option.Rel (Sum.LiftRel CreateResult.Alike Launch.Alike) o o') :
    Option.Rel (Sum.LiftRel CreateResult.Alike Launch.Alike)
      (match refuse env evm caller gas with
        | some r => some (.inl r)
        | none => o)
      (match refuse env evm' caller gas with
        | some r => some (.inl r)
        | none => o') := by
  have hr : Option.Rel CreateResult.Alike (refuse env evm caller gas) (refuse env evm' caller gas) :=
    refuse_alike h
  generalize refuse env evm caller gas = x at hr
  generalize refuse env evm' caller gas = y at hr
  cases hr with
  | none => exact ho
  | some hab => exact .some (.inl hab)

theorem prepare_alike (h : evm.Alike evm') (e : Entry) :
    Option.Rel (Sum.LiftRel CreateResult.Alike Launch.Alike) (e.prepare env evm caller gas)
      (e.prepare env evm' caller gas) := by
  cases e with
  | call addr input value =>
    refine refused_alike h ?_
    obtain ⟨hcan, hdb⟩ := h.stateDB.canTransfer caller.address value
    simp only [hcan]
    split_ifs
    · have htransfer := hdb.transfer (present_canTransfer evm.stateDB caller.address value)
        (present_canTransfer evm'.stateDB caller.address value) addr value
      exact .some (.inr ⟨h.withDB htransfer, calleeContract_alike htransfer .., rfl⟩)
    · exact .some (.inl (stopped_alike (h.withDB hdb) ..))
  | callCode addr input value =>
    refine refused_alike h ?_
    obtain ⟨hcan, hdb⟩ := h.stateDB.canTransfer caller.address value
    simp only [hcan]
    split_ifs
    · exact .some (.inr ⟨h.withDB hdb, calleeContract_alike hdb .., rfl⟩)
    · exact .some (.inl (stopped_alike (h.withDB hdb) ..))
  | delegateCall addr input =>
    refine refused_alike h ?_
    refine rel_map _ fun c => .inr ⟨h, ?_, rfl⟩
    rw [h.stateDB.codeHash, h.stateDB.code]
  | staticCall addr input =>
    refine refused_alike h ?_
    refine .some (.inr ⟨?_, calleeContract_alike h.stateDB .., rfl⟩)
    exact ⟨⟨h.stateDB, h.world.depth, rfl, h.world.returnData, h.world.callGasTemp, h.world.abort⟩,
      h.trace⟩
  | create code value =>
    obtain ⟨hcan, hdb⟩ := h.stateDB.canTransfer caller.address value
    have hraise := hdb.raiseNonce caller.address
    have hpresent := present_raiseNonce (present_canTransfer evm.stateDB caller.address value)
    have hpresent' := present_raiseNonce (present_canTransfer evm'.stateDB caller.address value)
    have hdeep : evm.depth > callCreateDepth ↔ evm'.depth > callCreateDepth := by rw [h.world.depth]
    have hnested : evm.depth > 0 ↔ evm'.depth > 0 := by rw [h.world.depth]
    simp only [prepare, hdeep, hnested, hcan, hdb.nonce, collides_alike env hraise]
    split_ifs
    · exact .some (.inl (stopped_alike h ..))
    · exact .some (.inl (stopped_alike (h.withDB hraise) ..))
    · exact .some (.inl (stopped_alike
        (h.withDB (newAccount_alike env hraise hpresent hpresent' _ value)) ..))
    · exact .some (.inr ⟨h.withDB (newAccount_alike env hraise hpresent hpresent' _ value), rfl, rfl⟩)
    · exact .some (.inl (stopped_alike (h.withDB hdb) ..))

end Entry

theorem settle_alike {r r' : RunResult} (h : r.Alike r') (addr : Address) :
    CreateResult.Alike ⟨settle 0 r, addr⟩ ⟨settle 0 r', addr⟩ := by
  unfold settle
  rw [h.err]
  cases r'.err with
  | none =>
    exact ⟨h.ret, congrArg Contract.gas h.contract, rfl, congrArg Contract.jumpdests h.contract,
      rfl, h.evm⟩
  | some e =>
    simp only [h.contract]
    exact ⟨h.ret, rfl, rfl, rfl, rfl, h.evm⟩

theorem settleCreate_alike (env : Env) (addr : Address) {r r' : RunResult} (h : r.Alike r') :
    (settleCreate env 0 addr r).Alike (settleCreate env 0 addr r') := by
  have hstore := h.evm.stateDB.enter (.setCode addr r'.ret) rfl
  unfold settleCreate
  simp only [h.ret, h.err, h.contract, StateDB.revertToSnapshot, ite_self]
  by_cases hkeep : r'.err = none ∧ !decide (env.isEIP158 = true ∧ r'.ret.length > maxCodeSize)
  · simp only [if_pos hkeep]
    cases r'.contract.useGas (UInt64.ofNat r'.ret.length * createDataGas) with
    | some c => exact ⟨rfl, rfl, rfl, rfl, rfl, h.evm.withDB hstore⟩
    | none => exact ⟨rfl, rfl, rfl, rfl, rfl, h.evm.withDB h.evm.stateDB⟩
  · simp only [if_neg hkeep]
    exact ⟨rfl, rfl, rfl, rfl, rfl, h.evm.withDB h.evm.stateDB⟩

namespace Entry

variable {env : Env} {evm evm' : Evm} {caller : ContractRef} {gas : UInt64}

theorem conclude_alike (outermost : Bool) {l l' : Launch} (hl : l.Alike l') {r r' : RunResult}
    (h : r.Alike r') (e : Entry) :
    (e.conclude env outermost l r).Alike (e.conclude env outermost l' r') := by
  cases e with
  | call | callCode | delegateCall => exact settle_alike h 0
  | staticCall =>
    have hs := settle_alike h 0
    cases outermost with
    | false => exact hs
    | true =>
      refine ⟨hs.ret, hs.leftOverGas, hs.err, hs.jumpdests, rfl, ?_⟩
      have hw := hs.evm.world
      exact ⟨⟨hw.stateDB, hw.depth, rfl, hw.returnData, hw.callGasTemp, hw.abort⟩, hs.evm.trace⟩
  | create =>
    simp only [conclude, hl.contract]
    exact settleCreate_alike env _ h

end Entry

/-! ## The trace grows, with and without the marks -/

/-- The interpreter below only adds to the trace. -/
def RunGrows (run : RunFn) : Prop :=
  ∀ evm c input r, run evm c input = .ok r → evm.trace <+: r.evm.trace

section Growth

variable {env : Env} {marks : Bool} {run : RunFn} {evm : Evm} {fr : Frame}

theorem runContract_grows (hrun : RunGrows run) {c : Contract} {input : Bytes} {r : RunResult}
    (h : runContract env run evm c input = .ok r) : evm.trace <+: r.evm.trace := by
  have henter : evm.trace <+: (evm.emit (.enter evm.depth c input)).trace := List.prefix_append ..
  unfold runContract at h
  simp only at h
  split at h
  · rw [Outcome.ofOption_eq_ok] at h
    obtain ⟨⟨ret, err, c⟩, -, rfl⟩ := Option.map_eq_some_iff.mp h
    exact henter
  · exact henter.trans (hrun _ _ _ _ h)

theorem Entry.invoke_grows (hrun : RunGrows run) {e : Entry} {caller : ContractRef} {gas : UInt64}
    {r : CreateResult} (h : e.invoke env run evm caller gas = .ok r) : evm.trace <+: r.evm.trace := by
  rw [invoke_eq] at h
  obtain ⟨x, hx, h⟩ := Outcome.bind_eq_ok.mp h
  rw [Outcome.ofOption_eq_ok] at hx
  cases x with
  | inl r' =>
    cases h
    rw [(prepare_inl hx).1]
  | inr l =>
    obtain ⟨rr, hrr, h⟩ := Outcome.bind_eq_ok.mp h
    cases h
    rw [(conclude_spec ..).1, ← (prepare_launch hx).trace]
    exact runContract_grows hrun hrr

theorem executeWith_grows (hrun : RunGrows run) {op : OpCode} {r : ExecResult}
    (h : op.executeWith marks env run evm fr = .ok r) : evm.trace <+: r.evm.trace := by
  cases hc : op.isCall with
  | true =>
    rw [op.executeWith_call marks hc, execute_call env run evm fr hc] at h
    obtain ⟨i, -, h⟩ := Outcome.bind_eq_ok.mp h
    obtain ⟨cr, hcr, h⟩ := Outcome.bind_eq_ok.mp h
    rw [(OpCode.resume_spec h).evm]
    exact Entry.invoke_grows hrun hcr
  | false =>
    obtain ⟨f, -, hf, -, -, hevm⟩ := executeWith_simple marks hc
    rw [hf] at h
    rw [hevm env evm fr r (simple_eq_ok.mp h), OpCode.effectWith]
    split_ifs
    · exact (op.effect_grows env evm fr).trace
    · exact List.prefix_rfl

/-- The instruction that is fetched, with or without the marks. -/
def Fetched.operationWith (marks : Bool) (f : Fetched) : Fetched :=
  { f with operation := MiniEvm.operationWith marks f.op }

theorem step_tableWith (env : Env) (marks : Bool) (run : RunFn) (evm : Evm) (fr : Frame) :
    step env (env.tableWith marks) run evm fr =
      (Outcome.ofOption evm (fetch env env.jumpTable evm fr)).bind fun
        | .error e => .ok (.done ⟨[], some e, evm, fr.contract⟩)
        | .ok f => perform env run evm fr (f.operationWith marks) := by
  rw [step, fetch_tableWith]
  obtain _ | _ | f := fetch env env.jumpTable evm fr <;> rfl

theorem perform_operationWith (env : Env) (marks : Bool) (run : RunFn) (evm : Evm) (fr : Frame)
    (f : Fetched) : perform env run evm fr (f.operationWith marks) =
      (Outcome.ofOption (evm.attempting fr f.op)
        (charge env (operation f.op) (evm.attempting fr f.op) fr f.memorySize)).bind fun c =>
          if c.1 then
            (f.op.executeWith marks env run (c.2.1.executing (c.2.2.expand f.memorySize) f.op)
              (c.2.2.expand f.memorySize)).bind fun res => .ok (finish (operation f.op) res)
          else .ok (.done ⟨[], some .outOfGas, c.2.1, c.2.2.contract⟩) := rfl

theorem finish_trace (o : Operation) (res : ExecResult) :
    (finish o res).evm.trace = res.evm.trace := by
  rw [finish_evm]
  split_ifs <;> rfl

/-- What an instruction adds starts with its attempt. -/
theorem perform_grows (hrun : RunGrows run) {f : Fetched} {s : StepResult}
    (h : perform env run evm fr (f.operationWith marks) = .ok s) :
    (evm.attempting fr f.op).trace <+: s.evm.trace := by
  rw [perform_operationWith] at h
  obtain ⟨⟨paid, evm', fr'⟩, hcharge, h⟩ := Outcome.bind_eq_ok.mp h
  have htrace : evm'.trace = (evm.attempting fr f.op).trace := by
    rw [(charge_spec (Outcome.ofOption_eq_ok.mp hcharge)).world]
  cases paid with
  | false =>
    cases h
    exact htrace ▸ List.prefix_rfl
  | true =>
    obtain ⟨res, hres, h⟩ := Outcome.bind_eq_ok.mp h
    cases h
    rw [finish_trace, ← htrace]
    exact (List.prefix_append ..).trans (executeWith_grows hrun hres)

theorem step_grows (hrun : RunGrows run) {s : StepResult}
    (h : step env (env.tableWith marks) run evm fr = .ok s) : evm.trace <+: s.evm.trace := by
  rw [step_tableWith] at h
  obtain ⟨x, -, h⟩ := Outcome.bind_eq_ok.mp h
  cases x with
  | error e =>
    cases h
    exact List.prefix_rfl
  | ok f => exact (List.prefix_append ..).trans (perform_grows hrun h)

theorem loop_grows (hrun : RunGrows run) {n : Nat} {r : RunResult}
    (h : loop env (env.tableWith marks) run n evm fr = .ok r) : evm.trace <+: r.evm.trace := by
  induction n generalizing evm fr with
  | zero => cases h
  | succ n ih =>
    rw [loop] at h
    split_ifs at h
    · cases h
      exact List.prefix_rfl
    · obtain ⟨s, hs, h⟩ := Outcome.bind_eq_ok.mp h
      have hstep := step_grows hrun hs
      cases s with
      | next evm' fr' => exact hstep.trans (ih h)
      | done r' =>
        cases h
        exact hstep

theorem interpreterRun_grows (env : Env) (marks : Bool) (fuel : Nat) :
    RunGrows (interpreterRun env (env.tableWith marks) fuel) := by
  induction fuel with
  | zero =>
    intro evm c input r h
    cases h
  | succ n ih =>
    intro evm c input r h
    obtain ⟨r', hr', h⟩ := Outcome.bind_eq_ok.mp h
    cases h
    split_ifs at hr'
    · cases hr'
      exact List.prefix_rfl
    · have hloop := loop_grows ih hr'
      exact hloop

end Growth

/-! ## Runs with and without the marks -/

/-- An attempt to load or store a marker slot. -/
def Event.touchesMarker : Event → Bool
  | .attempt _ fr op => op.touchesMarker fr.stack
  | _ => false

/-- No instruction since event `n` attempted to use a marker slot. -/
def Evm.UntouchedSince (n : Nat) (evm : Evm) : Prop :=
  ∀ e ∈ evm.trace.drop n, e.touchesMarker = false

theorem Evm.UntouchedSince.before {n : Nat} {a b : Evm} (h : b.UntouchedSince n)
    (hab : a.trace <+: b.trace) : a.UntouchedSince n :=
  fun e he => h e ((hab.drop n).subset he)

theorem Evm.UntouchedSince.attempted {n : Nat} {evm b : Evm} {fr : Frame} {op : OpCode}
    (h : b.UntouchedSince n) (hn : n ≤ evm.trace.length)
    (hab : (evm.attempting fr op).trace <+: b.trace) : op.touchesMarker fr.stack = false := by
  refine h.before hab (.attempt evm.toWorld fr op) ?_
  show _ ∈ (evm.trace ++ [_]).drop n
  rw [List.drop_append_of_le_length hn]
  exact List.mem_append_right _ (List.mem_singleton_self _)

/-- Alike machines run alike, unless a marker slot is used after event `n`. -/
def RunAlike (n : Nat) (run run' : RunFn) : Prop :=
  ∀ evm evm' c input, evm.Alike evm' → n ≤ evm.trace.length →
    (run evm c input).Simulates (run' evm' c input) (fun r => r.evm.UntouchedSince n) RunResult.Alike

/-- Iterations that go on in the same frame, or end alike. -/
inductive StepResult.Alike : StepResult → StepResult → Prop
  | next {evm evm' : Evm} (fr : Frame) (h : evm.Alike evm') :
      StepResult.Alike (.next evm fr) (.next evm' fr)
  | done {r r' : RunResult} (h : r.Alike r') : StepResult.Alike (.done r) (.done r')

section Runs

variable {env : Env} {marks marks' : Bool} {n : Nat} {run run' : RunFn} {evm evm' : Evm} {fr : Frame}

theorem runContract_alike (hrun : RunAlike n run run') (h : evm.Alike evm') (hn : n ≤ evm.trace.length)
    (c : Contract) (input : Bytes) :
    (runContract env run evm c input).Simulates (runContract env run' evm' c input)
      (fun r => r.evm.UntouchedSince n) RunResult.Alike := by
  have henter : (evm.emit (.enter evm.depth c input)).Alike (evm'.emit (.enter evm'.depth c input)) := by
    rw [h.world.depth]
    exact h.emit (.refl _)
  unfold runContract
  simp only
  split
  · refine Outcome.Simulates.ofOption (rel_map _ ?_)
    rintro ⟨ret, err, c⟩
    exact ⟨rfl, rfl, rfl, henter⟩
  · refine hrun _ _ c input henter ?_
    exact hn.trans (List.prefix_append ..).length_le

theorem Entry.invoke_alike (hrun : RunAlike n run run') (h : evm.Alike evm')
    (hn : n ≤ evm.trace.length) (caller : ContractRef) (gas : UInt64) (e : Entry) :
    (e.invoke env run evm caller gas).Simulates (e.invoke env run' evm' caller gas)
      (fun r => r.evm.UntouchedSince n) CreateResult.Alike := by
  rw [invoke_eq, invoke_eq]
  intro r hr hgood
  obtain ⟨x, hx, hr⟩ := Outcome.bind_eq_ok.mp hr
  rw [Outcome.ofOption_eq_ok] at hx
  have hprep : Option.Rel (Sum.LiftRel CreateResult.Alike Launch.Alike)
      (e.prepare env evm caller gas) (e.prepare env evm' caller gas) := prepare_alike h e
  rw [hx] at hprep
  generalize e.prepare env evm' caller gas = o at hprep
  obtain ⟨hxy⟩ := hprep
  cases hxy with
  | @inl a b hab =>
    cases hr
    exact ⟨b, rfl, hab⟩
  | @inr l l' hl =>
    obtain ⟨rr, hrr, hr⟩ := Outcome.bind_eq_ok.mp hr
    cases hr
    have hl' : n ≤ l.evm.trace.length := by rwa [(prepare_launch hx).trace]
    have hgood' : rr.evm.UntouchedSince n := by
      rw [Evm.UntouchedSince, ← (conclude_spec env (!evm.readOnly) l e rr).1]
      exact hgood
    obtain ⟨rr', hrr', halike⟩ := runContract_alike hrun hl.evm hl' l.contract l.input rr hrr hgood'
    rw [hl.contract, hl.input] at hrr'
    refine ⟨_, Outcome.bind_eq_ok.mpr ⟨_, rfl, Outcome.bind_eq_ok.mpr ⟨rr', hrr', rfl⟩⟩, ?_⟩
    rw [h.world.readOnly]
    exact conclude_alike _ hl halike e

/-- The calling frame goes on alike. -/
theorem OpCode.resume_alike {op : OpCode} {r r' : CreateResult} (h : r.Alike r')
    {good : ExecResult → Prop} :
    (op.resume env fr r).Simulates (op.resume env fr r') good ExecResult.Alike := by
  have hfinish : ∀ st out outLen, (finishCall fr st out outLen r.toCallResult).Simulates
      (finishCall fr st out outLen r'.toCallResult) good ExecResult.Alike := by
    intro st out outLen
    unfold finishCall
    simp only [h.err, h.ret, h.leftOverGas, h.jumpdests]
    cases (if r'.err = none ∨ r'.err = some .executionReverted then
      fr.mem.set (uint64 out) (uint64 outLen) r'.ret else some fr.mem) with
    | none =>
      intro x hx
      cases hx
    | some mem => exact .of_ok ⟨rfl, h.evm⟩
  unfold resume
  split
  case h_1 =>
    simp only [finishCreate, h.err, h.ret, h.leftOverGas, h.jumpdests, h.contractAddr]
    exact .of_ok ⟨rfl, h.evm⟩
  case h_6 =>
    intro x hx
    cases hx
  all_goals exact hfinish _ _ _

theorem OpCode.invocation_alike (op : OpCode) (h : evm.Alike evm') :
    op.invocation env evm fr = op.invocation env evm' fr := by
  unfold invocation
  have hgas : ∀ v, calleeGas evm v = calleeGas evm' v := by
    intro v
    simp only [calleeGas, h.world.callGasTemp]
  split <;> simp only [hgas, h.world.callGasTemp]

theorem executeWith_runAlike (marks marks' : Bool) (env : Env) (hrun : RunAlike n run run')
    {op : OpCode}
    (h : evm.Alike evm') (hn : n ≤ evm.trace.length) (hslot : op.touchesMarker fr.stack = false) :
    (op.executeWith marks env run evm fr).Simulates (op.executeWith marks' env run' evm' fr)
      (fun x => x.evm.UntouchedSince n) ExecResult.Alike := by
  cases hc : op.isCall with
  | false => exact executeWith_alike marks marks' hc h hslot env run run'
  | true =>
    rw [op.executeWith_call marks hc, op.executeWith_call marks' hc, execute_call env run evm fr hc,
      execute_call env run' evm' fr hc, ← op.invocation_alike h]
    cases op.invocation env evm fr with
    | none =>
      intro x hx
      cases hx
    | some i =>
      refine (Entry.invoke_alike hrun h hn (.contract i.caller) i.gas i.entry).bind ?_ ?_
      · intro r x hx hgood
        rwa [(OpCode.resume_spec hx).evm] at hgood
      · intro r r' _ hr
        exact OpCode.resume_alike hr

theorem finish_alike (o : Operation) {x x' : ExecResult} (h : x.Alike x') :
    (finish o x).Alike (finish o x') := by
  obtain ⟨ret, err, evm, frame⟩ := x
  obtain ⟨ret', err', evm', frame'⟩ := x'
  obtain ⟨hshown, hevm⟩ := h
  cases hshown
  have hout : (if o.returns then { evm with returnData := ret } else evm).Alike
      (if o.returns then { evm' with returnData := ret } else evm') := by
    split_ifs
    · exact ⟨⟨hevm.stateDB, hevm.world.depth, hevm.world.readOnly, rfl, hevm.world.callGasTemp,
        hevm.world.abort⟩, hevm.trace⟩
    · exact hevm
  unfold finish
  simp only
  generalize (if o.returns then { evm with returnData := ret } else evm) = a at hout
  generalize (if o.returns then { evm' with returnData := ret } else evm') = b at hout
  cases err with
  | some e => exact .done ⟨rfl, rfl, rfl, hout⟩
  | none =>
    simp only
    split_ifs
    · exact .done ⟨rfl, rfl, rfl, hout⟩
    · exact .done ⟨rfl, rfl, rfl, hout⟩
    · exact .next _ hout
    · exact .next _ hout

theorem perform_alike (hrun : RunAlike n run run') (hgrows : RunGrows run) (h : evm.Alike evm')
    (hn : n ≤ evm.trace.length) (f : Fetched) :
    (perform env run evm fr (f.operationWith marks)).Simulates
      (perform env run' evm' fr (f.operationWith marks'))
      (fun s => s.evm.UntouchedSince n) StepResult.Alike := by
  intro s hs hgood
  have hslot := hgood.attempted hn (perform_grows hgrows hs)
  have hcharge := charge_alike (h.attempting fr f.op) hslot env f.memorySize
  rw [perform_operationWith] at hs
  rw [perform_operationWith]
  obtain ⟨⟨paid, evm₁, fr₁⟩, hpaid, hs⟩ := Outcome.bind_eq_ok.mp hs
  rw [Outcome.ofOption_eq_ok] at hpaid
  have hspec := charge_spec hpaid
  rw [hpaid] at hcharge
  generalize charge env (operation f.op) (evm'.attempting fr f.op) fr f.memorySize = o at hcharge ⊢
  cases hcharge with
  | @some _ c hc =>
    obtain ⟨_, evm₁', _⟩ := c
    obtain ⟨rfl, h₁, rfl⟩ := hc
    cases paid with
    | false =>
      cases hs
      exact ⟨_, rfl, .done ⟨rfl, rfl, rfl, h₁⟩⟩
    | true =>
      have htrace : evm.trace <+: (evm₁.executing (fr₁.expand f.memorySize) f.op).trace := by
        have hattempt : evm.trace <+: evm₁.trace := by
          rw [hspec.world]
          exact List.prefix_append ..
        exact hattempt.trans (List.prefix_append ..)
      have hslot₁ : f.op.touchesMarker (fr₁.expand f.memorySize).stack = false := by
        rwa [Frame.expand_stack, hspec.stack]
      have hexec := executeWith_runAlike marks marks' env hrun
        (h₁.executing (fr₁.expand f.memorySize) f.op) (hn.trans htrace.length_le) hslot₁
      refine hexec.bind (Q := fun s => s.evm.UntouchedSince n) ?_ ?_ s hs hgood
      · rintro x _ ⟨⟩ hx
        rwa [Evm.UntouchedSince, finish_trace] at hx
      · intro x x' _ hx
        exact .of_ok (finish_alike _ hx)

theorem step_alike (hrun : RunAlike n run run') (hgrows : RunGrows run) (h : evm.Alike evm')
    (hn : n ≤ evm.trace.length) :
    (step env (env.tableWith marks) run evm fr).Simulates
      (step env (env.tableWith marks') run' evm' fr)
      (fun s => s.evm.UntouchedSince n) StepResult.Alike := by
  have hfetch : fetch env env.jumpTable evm fr = fetch env env.jumpTable evm' fr := by
    unfold fetch enforceRestrictions
    rw [h.world.readOnly]
  rw [step_tableWith, step_tableWith, hfetch]
  obtain _ | e | f := fetch env env.jumpTable evm' fr
  · intro s hs
    cases hs
  · exact .of_ok (.done ⟨rfl, rfl, rfl, h⟩)
  · exact perform_alike hrun hgrows h hn f

theorem loop_alike (hrun : RunAlike n run run') (hgrows : RunGrows run) (k : Nat) (h : evm.Alike evm')
    (hn : n ≤ evm.trace.length) :
    (loop env (env.tableWith marks) run k evm fr).Simulates
      (loop env (env.tableWith marks') run' k evm' fr)
      (fun r => r.evm.UntouchedSince n) RunResult.Alike := by
  induction k generalizing evm evm' fr with
  | zero => exact .timeout
  | succ k ih =>
    rw [loop, loop, ← h.world.abort]
    split_ifs
    · exact .of_ok ⟨rfl, rfl, rfl, h⟩
    · refine (step_alike hrun hgrows h hn).bind ?_ ?_
      · intro s r hr hgood
        cases s with
        | next evm₁ fr₁ => exact hgood.before (loop_grows hgrows hr)
        | done r₁ =>
          cases hr
          exact hgood
      · intro s s' hs halike
        cases halike with
        | next fr₁ h₁ => exact ih h₁ (hn.trans (step_grows hgrows hs).length_le)
        | done h₁ => exact .of_ok h₁

end Runs

theorem interpreterRun_alike (env : Env) (marks marks' : Bool) (n fuel : Nat) :
    RunAlike n (interpreterRun env (env.tableWith marks) fuel)
      (interpreterRun env (env.tableWith marks') fuel) := by
  induction fuel with
  | zero =>
    intro evm evm' c input _ _
    exact .timeout
  | succ k ih =>
    intro evm evm' c input h hn
    have hdeeper : Evm.Alike { evm with depth := evm.depth + 1, returnData := [] }
        { evm' with depth := evm'.depth + 1, returnData := [] } :=
      ⟨⟨h.stateDB, by rw [h.world.depth], h.world.readOnly, rfl, h.world.callGasTemp, h.world.abort⟩,
        h.trace⟩
    refine Outcome.Simulates.bind (P := fun r => r.evm.UntouchedSince n) (R := RunResult.Alike) ?_ ?_ ?_
    · split_ifs
      · exact .of_ok ⟨rfl, rfl, rfl, hdeeper⟩
      · exact loop_alike ih (interpreterRun_grows env marks k) k hdeeper hn
    · rintro r _ ⟨⟩ hgood
      exact hgood
    · intro r r' _ hr
      refine .of_ok ⟨hr.ret, hr.err, hr.contract, ?_⟩
      exact ⟨⟨hr.evm.stateDB, by rw [hr.evm.world.depth], hr.evm.world.readOnly,
        hr.evm.world.returnData, hr.evm.world.callGasTemp, hr.evm.world.abort⟩, hr.evm.trace⟩

/-- The overflow instrumentation changes nothing that a run computes: as long as no instruction
attempts to use a marker slot, the plain interpreter returns whenever the instrumented one does, with
the same data, error, gas and address, after the same instructions, and leaves a store that differs
in the marker slots at most; and the other way around. -/
theorem Entry.start_transparent (env : Env) (fuel : Nat) (evm : Evm) (caller : ContractRef)
    (gas : UInt64) (e : Entry) (r : CreateResult)
    (untouched : ∀ ev ∈ added evm.trace r.evm.trace, ev.touchesMarker = false) :
    (e.start env fuel evm caller gas = .ok r →
      ∃ r', e.startPlain env fuel evm caller gas = .ok r' ∧ r.Alike r') ∧
    (e.startPlain env fuel evm caller gas = .ok r →
      ∃ r', e.start env fuel evm caller gas = .ok r' ∧ r.Alike r') := by
  have hsim : ∀ marks marks', e.invoke env (interpreterRun env (env.tableWith marks) fuel) evm caller
      gas = .ok r → ∃ r', e.invoke env (interpreterRun env (env.tableWith marks') fuel) evm caller gas =
        .ok r' ∧ r.Alike r' := by
    intro marks marks' hr
    have hrun := interpreterRun_alike env marks marks' evm.trace.length fuel
    exact invoke_alike hrun (.refl evm) (le_refl _) caller gas e r hr untouched
  have htrue : e.start env fuel evm caller gas =
      e.invoke env (interpreterRun env (env.tableWith true) fuel) evm caller gas := by
    rw [start, env.tableWith_true]
  rw [htrue]
  exact ⟨hsim true false, hsim false true⟩

/-- Returns `0 - 1`. -/
def returnUnderflow : Bytes :=
  [0x60, 1, 0x60, 0, 0x03, 0x60, 0, 0x52, 0x60, 32, 0x60, 0, 0xf3]

def returnUnderflowEvm : Evm := Evm.new (StateDB.new.setCode 0x100 returnUnderflow)

theorem Entry.start_transparent_underflow : ∃ r r',
    (Entry.call 0x100 [] 0).start (deployEnv .zero 0) 20 returnUnderflowEvm (.account 7) detectorGas =
      .ok r ∧
    (Entry.call 0x100 [] 0).startPlain (deployEnv .zero 0) 20 returnUnderflowEvm (.account 7)
      detectorGas = .ok r' ∧
    r.Alike r' ∧ r.ret = List.replicate 32 0xff ∧
    (checkOverflowStorage 0x100 r.evm.stateDB).1 = true ∧
    (checkOverflowStorage 0x100 r'.evm.stateDB).1 = false := by
  have hrun : ((Entry.call 0x100 [] 0).start (deployEnv .zero 0) 20 returnUnderflowEvm (.account 7)
      detectorGas).Returns fun r =>
        (∀ ev ∈ added returnUnderflowEvm.trace r.evm.trace, ev.touchesMarker = false) ∧
        r.ret = List.replicate 32 0xff ∧ (checkOverflowStorage 0x100 r.evm.stateDB).1 = true := by
    decide +kernel
  have hplain : ((Entry.call 0x100 [] 0).startPlain (deployEnv .zero 0) 20 returnUnderflowEvm
      (.account 7) detectorGas).Returns fun r =>
        (checkOverflowStorage 0x100 r.evm.stateDB).1 = false := by
    decide +kernel
  obtain ⟨r, hr, huntouched, hret, hmarked⟩ := hrun.exists
  obtain ⟨r', hr', halike⟩ := (Entry.start_transparent _ _ _ _ _ _ r huntouched).1 hr
  obtain ⟨p, hp, hclear⟩ := hplain.exists
  obtain rfl : p = r' := Outcome.ok.inj (hp.symm.trans hr')
  exact ⟨r, p, hr, hr', halike, hret, hmarked, hclear⟩

end MiniEvm
