import MiniEvm.Vm.History
import MiniEvm.Vm.Visits

namespace MiniEvm

open Math Framework StateDB

/-- The log that an operation appends. -/
def StateOp.log : StateOp → Option Log
  | addLog l => some l
  | _ => none

namespace StateDB

theorem logs_perform (db : StateDB) (op : StateOp) :
    (db.perform op).logs = db.logs ++ op.log.toList := by
  cases op with
  | addLog l => rfl
  | subBalance a v =>
    simp only [perform, subBalance, StateOp.log, Option.toList_none, List.append_nil]
    split <;> rfl
  | _ => exact (List.append_nil _).symm

theorem logs_replay (db : StateDB) (ops : List StateOp) :
    (db.replay ops).logs = db.logs ++ ops.filterMap StateOp.log := by
  induction ops generalizing db with
  | nil => simp [replay]
  | cons op ops ih =>
    rw [replay, List.foldl_cons, ← replay, ih, logs_perform, List.filterMap_cons]
    cases op.log <;> simp

/-- The logs appended between two states of one store. -/
def logsTo (db db' : StateDB) : List Log := (db.opsTo db').filterMap StateOp.log

theorem Replays.logs_eq {db db' : StateDB} (h : Replays db db') :
    db'.logs = db.logs ++ db.logsTo db' := by
  conv_lhs => rw [h, logs_replay]
  rfl

theorem Replays.logsTo_trans {db db' db'' : StateDB} (h : Replays db db') (h' : Replays db' db'') :
    db.logsTo db'' = db.logsTo db' ++ db'.logsTo db'' := by
  rw [logsTo, opsTo_trans h h', List.filterMap_append]
  rfl

/-- The logs of a stretch are among those of a longer one. -/
theorem Replays.logsTo_sublist {a b c d : StateDB} (hab : Replays a b) (hbc : Replays b c)
    (hcd : Replays c d) : List.Sublist (b.logsTo c) (a.logsTo d) := by
  rw [hab.logsTo_trans (hbc.trans hcd), hbc.logsTo_trans hcd]
  exact (List.sublist_append_left _ _).trans (List.sublist_append_right _ _)

end StateDB

/-! ## The logs that no reverted call emitted -/

/-- Whether an entry point ends with `RevertToSnapshot`. Before Homestead a creation that cannot pay
for its code does not. -/
def Entry.reverts (env : Env) : Entry → CreateResult → Bool
  | create _ _, r => r.err ≠ none && (env.isHomestead || r.err ≠ some .codeStoreOutOfGas)
  | _, r => r.err ≠ none

/-- The logs of an entry point, none if it is reverted; `logs` gives those of the frame it enters. -/
def Entry.keptLogs (env : Env) (run : RunFn) (logs : Evm → Frame → List Log) (evm : Evm)
    (caller : ContractRef) (gas : UInt64) (e : Entry) : List Log :=
  match e.launch env evm caller gas, e.invoke env run evm caller gas with
  | some l, .ok r =>
    if e.reverts env r then [] else logs l.begun (Frame.start l.contract l.input)
  | _, _ => []

/-- The logs of one iteration: those of the call that it makes, or its own. -/
def keptStep (env : Env) (run : RunFn) (logs : Evm → Frame → List Log) (evm : Evm) (fr : Frame)
    (s : StepResult) : List Log :=
  match invoking env evm fr with
  | some (i, evm') => i.entry.keptLogs env run logs evm' (.contract i.caller) i.gas
  | none => evm.stateDB.logsTo s.evm.stateDB

/-- The logs of the main loop. -/
def keptLoop (env : Env) (run : RunFn) (logs : Evm → Frame → List Log) :
    Nat → Evm → Frame → List Log
  | 0, _, _ => []
  | n + 1, evm, fr =>
    if evm.abort then []
    else
      match step env env.jumpTable run evm fr with
      | .ok (.next evm' fr') =>
        keptStep env run logs evm fr (.next evm' fr') ++ keptLoop env run logs n evm' fr'
      | .ok (.done r) => keptStep env run logs evm fr (.done r)
      | _ => []

/-- The logs that a frame leaves if every reverted call takes its logs with it. The number bounds the
iterations and the nesting, as it does for `interpreterRun`. -/
def keptFrame (env : Env) : Nat → Evm → Frame → List Log
  | 0 => fun _ _ => []
  | n + 1 => keptLoop env (interpreterRun env env.jumpTable n) (keptFrame env n) n

/-- The logs of an entry point of a machine with the default jump table of its fork. -/
def Entry.startKept (env : Env) (fuel : Nat) (evm : Evm) (caller : ContractRef) (gas : UInt64)
    (e : Entry) : List Log :=
  e.keptLogs env (interpreterRun env env.jumpTable fuel) (keptFrame env fuel) evm caller gas

/-! ## They are among the logs that were appended -/

namespace Entry

/-- What an entry point does to the store before it runs the contract. -/
theorem prepare_replays {env : Env} {evm : Evm} {caller : ContractRef} {gas : UInt64} {e : Entry}
    {l : Launch} (h : e.prepare env evm caller gas = some (.inr l)) :
    Replays evm.stateDB l.evm.stateDB := by
  cases e with
  | call addr input value =>
    simp only [prepare] at h
    split at h
    · cases h
    · split_ifs at h <;> cases h
      exact .of_ops [.getBalance caller.address, .subBalance caller.address value,
        .addBalance addr value] rfl
  | callCode addr input value =>
    simp only [prepare] at h
    split at h
    · cases h
    · split_ifs at h <;> cases h
      exact .of_ops [.getBalance caller.address] rfl
  | delegateCall addr input =>
    simp only [prepare] at h
    split at h
    · cases h
    · obtain ⟨c, -, h⟩ := Option.map_eq_some_iff.mp h
      cases h
      exact .refl _
  | staticCall addr input =>
    simp only [prepare] at h
    split at h
    · cases h
    · cases h
      exact .refl _
  | create code value =>
    simp only [prepare] at h
    split_ifs at h <;> cases h
    exact .of_ops _ (newAccount_ops ..)

/-- What it does to the store after the run: at most, it stores the code of a new contract. -/
theorem conclude_replays (env : Env) (outermost : Bool) (l : Launch) (e : Entry) (r : RunResult) :
    Replays r.evm.stateDB (e.conclude env outermost l r).evm.stateDB := by
  have hsettle : Replays r.evm.stateDB (settle 0 r).evm.stateDB := by
    rw [settle_evm]
    exact .refl _
  cases e with
  | call | callCode | delegateCall => exact hsettle
  | staticCall =>
    cases outermost
    · exact hsettle
    · exact hsettle
  | create code value =>
    show Replays r.evm.stateDB (settleCreate env 0 l.contract.self r).evm.stateDB
    obtain h | h := settleCreate_evm env 0 l.contract.self r
    · rw [h]
      exact .refl _
    · rw [h]
      exact .of_ops [.setCode l.contract.self r.ret] rfl

end Entry

/-- What every entry point keeps at a level of nesting is among the logs it appends. -/
def KeepsSublist (env : Env) (fuel : Nat) : Prop :=
  ∀ {evm : Evm} {caller : ContractRef} {gas : UInt64} {e : Entry} {r : CreateResult},
    e.start env fuel evm caller gas = .ok r →
      List.Sublist (e.startKept env fuel evm caller gas) (evm.stateDB.logsTo r.evm.stateDB)

section Sublist

variable {env : Env} {fuel : Nat}

theorem Ready.invoking_unpaid {evm evm' : Evm} {fr fr' : Frame} {op : OpCode} {n : UInt64}
    (ready : Ready env evm fr op n)
    (charged : charge env (operation op) (evm.attempting fr op) fr n = some (false, evm', fr')) :
    invoking env evm fr = none := by
  simp only [invoking, ready.fetched, charged, ite_self]

/-- One iteration keeps its own logs, and those of the call it makes as that call keeps them. -/
theorem keptStep_sublist (keeps : KeepsSublist env fuel) {evm : Evm} {fr : Frame} {s : StepResult}
    (h : step env env.jumpTable (interpreterRun env env.jumpTable fuel) evm fr = .ok s) :
    List.Sublist (keptStep env (interpreterRun env env.jumpTable fuel) (keptFrame env fuel) evm fr s)
      (evm.stateDB.logsTo s.evm.stateDB) := by
  have own : invoking env evm fr = none → List.Sublist
      (keptStep env (interpreterRun env env.jumpTable fuel) (keptFrame env fuel) evm fr s)
      (evm.stateDB.logsTo s.evm.stateDB) := by
    intro hnone
    rw [keptStep, hnone]
  cases step_cases h with
  | rejected hfetch => exact own (by simp only [invoking, hfetch])
  | unpaid ready charged => exact own (ready.invoking_unpaid charged)
  | simple ready hc charged executed => exact own (ready.invoking_none hc)
  | @call op n evm' fr' i r res ready hc charged invocation invoked resumed =>
    have hpaid : Replays evm.stateDB (evm'.executing (fr'.expand n) op).stateDB :=
      (Evolves.attempt ready (charge_spec charged)).replays
    have hcalled : Replays (evm'.executing (fr'.expand n) op).stateDB r.evm.stateDB :=
      (Entry.start_evolves invoked).replays
    have hend : (finish (operation op) res).evm.stateDB = r.evm.stateDB := by
      rw [finish_evm, ← (OpCode.resume_spec resumed).evm]
      split_ifs <;> rfl
    rw [keptStep, ready.invoking_some hc charged, invocation, Option.map_some, hend]
    exact (keeps invoked).trans (hpaid.logsTo_sublist hcalled (.refl _))

theorem keptLoop_sublist (keeps : KeepsSublist env fuel) {n : Nat} {evm : Evm} {fr : Frame}
    {r : RunResult} (begun : fr.Begun)
    (h : loop env env.jumpTable (interpreterRun env env.jumpTable fuel) n evm fr = .ok r) :
    List.Sublist (keptLoop env (interpreterRun env env.jumpTable fuel) (keptFrame env fuel) n evm fr)
      (evm.stateDB.logsTo r.evm.stateDB) := by
  have evolves := interpreterRun_evolves env fuel
  induction n generalizing evm fr with
  | zero => cases h
  | succ n ih =>
    rw [keptLoop]
    unfold loop at h
    split_ifs at h ⊢
    · exact List.nil_sublist _
    · obtain ⟨s, hstep, h⟩ := Outcome.bind_eq_ok.mp h
      have hkept := keptStep_sublist keeps hstep
      rw [hstep]
      cases s with
      | done r' =>
        cases h
        exact hkept
      | next evm' fr' =>
        obtain ⟨begun', -⟩ := step_next hstep
        have hfirst : Replays evm.stateDB evm'.stateDB := (step_evolves evolves begun hstep).replays
        have hrest : Replays evm'.stateDB r.evm.stateDB := (loop_evolves evolves begun' h).replays
        rw [hfirst.logsTo_trans hrest]
        exact hkept.append (ih begun' h)

/-- What a frame that is entered keeps is among the logs of the entry point. -/
theorem keepsSublist (env : Env) (fuel : Nat) : KeepsSublist env fuel := by
  induction fuel with
  | zero =>
    intro evm caller gas e r h
    rw [Entry.startKept, Entry.keptLogs]
    split
    · split_ifs <;> exact List.nil_sublist _
    · exact List.nil_sublist _
  | succ fuel ih =>
    intro evm caller gas e r h
    rw [Entry.startKept, Entry.keptLogs]
    split
    · rename_i l r' hl hr
      split_ifs
      · exact List.nil_sublist _
      · have enters := Entry.launch_enters hl
        rw [Entry.start, Entry.invoke_eq, enters.prepared, Outcome.ofOption_some, Outcome.bind_ok] at h
        obtain ⟨rr, hrun, h⟩ := Outcome.bind_eq_ok.mp h
        cases h
        rw [runContract, enters.interpreted] at hrun
        obtain ⟨rl, hloop, hend⟩ := Outcome.bind_eq_ok.mp hrun
        rw [if_neg enters.code] at hloop
        cases hend
        have begun := Frame.start_begun l.contract l.input
        have hinner : Replays l.evm.stateDB rl.evm.stateDB :=
          (loop_evolves (interpreterRun_evolves env fuel) begun hloop).replays
        exact (keptLoop_sublist ih begun hloop).trans
          ((Entry.prepare_replays enters.prepared).logsTo_sublist hinner
            (Entry.conclude_replays env _ l e _))
    · exact List.nil_sublist _

end Sublist

end MiniEvm
