import MiniEvm.Detectors.ContractUtils
import MiniEvm.Vm.History

namespace MiniEvm

open Math Framework StateDB

noncomputable instance : Fintype Address :=
  Fintype.ofEquiv (Fin (2 ^ 160)) ⟨BitVec.ofFin, BitVec.toFin, fun _ => rfl, fun _ => rfl⟩

/-- The ether in the store. -/
noncomputable def StateDB.total (db : StateDB) : Int := ∑ a : Address, (db.account a).balance

/-- What an operation adds to the ether in the store. -/
def StateOp.drift (db : StateDB) : StateOp → Int
  | createAccount a => -(db.account a).balance
  | subBalance a v => if db.present a then -v else 0
  | addBalance _ v => v
  | getBalance _ => 100
  | _ => 0

theorem StateOp.update_balance (db : StateDB) {op : StateOp} {a : Address}
    (ht : op.target = some a) : (op.update (db.present a) (db.account a)).balance =
      (db.account a).balance + op.drift db := by
  cases op with
  | createAccount x =>
    cases ht
    simp [update, drift, State.new]
  | subBalance x v =>
    cases ht
    simp only [update, drift]
    split_ifs <;> simp [sub_eq_add_neg]
  | addBalance x v | getBalance x => rfl
  | _ => exact (add_zero _).symm

/-- A sum with at most one term. -/
private theorem sum_some_eq {α : Type} [Fintype α] [DecidableEq α] (o : Option α) (d : Int) :
    ∑ x : α, (if o = some x then d else 0) = if o.isSome then d else 0 := by
  cases o with
  | none => simp
  | some a => simp

theorem StateDB.total_perform (db : StateDB) (op : StateOp) :
    (db.perform op).total = db.total + op.drift db := by
  have hterm : ∀ x : Address, ((db.perform op).account x).balance =
      (db.account x).balance + if op.target = some x then op.drift db else 0 := by
    intro x
    rw [account_perform]
    split_ifs with ht
    · exact op.update_balance db ht
    · exact (add_zero _).symm
  have hdrift : (if op.target.isSome then op.drift db else 0) = op.drift db := by
    cases op <;> rfl
  simp only [total, hterm]
  rw [Finset.sum_add_distrib, sum_some_eq, hdrift]

/-- The drift of a whole history. -/
def StateDB.driftAll : StateDB → List StateOp → Int
  | _, [] => 0
  | db, op :: ops => op.drift db + driftAll (db.perform op) ops

theorem StateDB.total_replay (db : StateDB) (ops : List StateOp) :
    (db.replay ops).total = db.total + db.driftAll ops := by
  induction ops generalizing db with
  | nil => exact (add_zero _).symm
  | cons op ops ih =>
    rw [replay, List.foldl_cons, ← replay, ih, total_perform, driftAll, add_assoc]

def StateOp.asks : StateOp → Bool
  | getBalance _ => true
  | _ => false

/-- The number of balance queries in a history. -/
def asked (ops : List StateOp) : Nat := ops.countP StateOp.asks

theorem asked_append (ops ops' : List StateOp) : asked (ops ++ ops') = asked ops + asked ops' :=
  List.countP_append

/-- A reset account held nothing, and no contract destructs itself. -/
def StateOp.Fair (db : StateDB) : StateOp → Prop
  | createAccount a => (db.account a).balance = 0
  | suicide _ => False
  | _ => True

instance (db : StateDB) : DecidablePred (StateOp.Fair db)
  | .createAccount a => inferInstanceAs (Decidable ((db.account a).balance = 0))
  | .suicide _ => isFalse id
  | .subBalance _ _ | .addBalance _ _ | .getBalance _ | .setNonce _ _ | .setCode _ _ | .getState _ _
  | .setState _ _ _ | .hasSuicided _ | .addLog _ => isTrue trivial

/-- The later store holds as much more as the balance queries in between gave away. -/
def Conserves (db : StateDB) (ops : List StateOp) : Prop :=
  Along StateDB.perform (fun db op => op.Fair db) db ops → db.driftAll ops = 100 * asked ops

theorem driftAll_append (db : StateDB) (ops ops' : List StateOp) :
    db.driftAll (ops ++ ops') = db.driftAll ops + (db.replay ops).driftAll ops' := by
  induction ops generalizing db with
  | nil => exact (zero_add _).symm
  | cons op ops ih =>
    rw [List.cons_append, driftAll, ih, driftAll, add_assoc]
    rfl

theorem Conserves.append {db : StateDB} {ops ops' : List StateOp} (h : Conserves db ops)
    (h' : Conserves (db.replay ops) ops') : Conserves db (ops ++ ops') := by
  intro hfair
  obtain ⟨hops, hops'⟩ := along_append.mp hfair
  rw [driftAll_append, h hops, h' hops', asked_append]
  push_cast
  ring

theorem OpCode.gasOps_conserves (op : OpCode) (env : Env) (db : StateDB) (fr : Frame) :
    Conserves db (op.gasOps env fr) := by
  intro _
  unfold gasOps
  split
  · rfl
  · split_ifs <;> rfl
  · rfl

/-- `SELFDESTRUCT` is not fair; every other instruction moves no ether. -/
theorem OpCode.effectOps_conserves (op : OpCode) (env : Env) (db : StateDB) (fr : Frame) :
    Conserves db (op.effectOps env db fr) := by
  unfold effectOps
  split
  case h_4 => exact fun hfair => hfair.2.2.1.elim
  case h_6 =>
    split
    · split_ifs <;> exact fun _ => rfl
    · exact fun _ => rfl
  all_goals exact fun _ => rfl

/-- The sender is in the map because its balance was just read. -/
theorem pay_conserves (db : StateDB) (sender recipient : Address) (value : Int) :
    Conserves db [.getBalance sender, .subBalance sender value, .addBalance recipient value] := by
  intro _
  simp [driftAll, StateOp.drift, asked, List.countP_cons, StateOp.asks, present_perform,
    StateOp.enters, StateOp.target]

theorem createOps_conserves (env : Env) (db : StateDB) (creator contractAddr : Address)
    (value : Int) : Conserves db (createOps env db creator contractAddr value) := by
  intro hfair
  have hreset := hfair.2.2.1
  simp only [StateOp.Fair] at hreset
  unfold createOps
  split_ifs
  all_goals
    simp [driftAll, StateOp.drift, asked, List.countP_cons, StateOp.asks, present_perform,
      StateOp.enters, StateOp.target, hreset]

/-- In fair steps a call tree conserves the ether up to the balance bonus. -/
theorem conserves_rule (env : Env) : HistoryRule env Conserves where
  nil _ _ := rfl
  append := Conserves.append
  gas op db fr := op.gasOps_conserves env db fr
  effect op db fr := op.effectOps_conserves env db fr
  ask _ _ _ := rfl
  pay := pay_conserves
  raise _ _ _ := rfl
  create v _ := createOps_conserves env _ _ _ v
  store _ _ inner := ((createOps_conserves env _ _ _ _).append inner).append fun _ => rfl

/-- The ether is conserved, up to 100 for each balance query, by every call or creation in which no
contract destructs itself and no funded address is reset. -/
theorem total_of_fair {env : Env} {fuel : Nat} {evm : Evm} {caller : ContractRef} {gas : UInt64}
    {e : Entry} {r : CreateResult} (h : e.start env fuel evm caller gas = .ok r)
    (hfair : Along StateDB.perform (fun db op => op.Fair db) evm.stateDB
      (evm.stateDB.opsTo r.evm.stateDB)) :
    r.evm.stateDB.total - evm.stateDB.total = 100 * asked (evm.stateDB.opsTo r.evm.stateDB) := by
  have hev := e.start_evolves h
  have htotal := total_replay evm.stateDB (evm.stateDB.opsTo r.evm.stateDB)
  rw [← hev.replays, (conserves_rule env).evolves hev hfair] at htotal
  omega

/-- A contract that asks for the balance of `0x42`. -/
def asking : Evm := Evm.new (StateDB.new.setCode 0x100 [0x60, 0x42, 0x31])

def askingRun : Outcome Evm CreateResult :=
  (Entry.call 0x100 [] 7).start recursiveEnv 10 asking (.account 7) 100000

theorem askingRun_fair : askingRun.Returns fun r =>
    Along StateDB.perform (fun db op => op.Fair db) asking.stateDB
      (asking.stateDB.opsTo r.evm.stateDB) ∧
    asked (asking.stateDB.opsTo r.evm.stateDB) = 2 := by
  decide +kernel

theorem total_of_fair_asking : ∃ r, askingRun = .ok r ∧
    r.evm.stateDB.total - asking.stateDB.total = 100 * (2 : Nat) := by
  obtain ⟨r, hr, hfair, hasked⟩ := askingRun_fair.exists
  have htotal := total_of_fair hr hfair
  rw [hasked] at htotal
  exact ⟨r, hr, htotal⟩

/-- A contract that destructs itself in favour of `0x42`. -/
def destructing : Evm := Evm.new (StateDB.new.setCode 0x100 [0x60, 0x42, 0xff])

def destructingRun : Outcome Evm CreateResult :=
  (Entry.call 0x100 [] 0).start recursiveEnv 10 destructing (.account 7) 100000

theorem destructingRun_drift : destructingRun.Returns fun r =>
    destructing.stateDB.driftAll (destructing.stateDB.opsTo r.evm.stateDB) ≠
      100 * asked (destructing.stateDB.opsTo r.evm.stateDB) := by
  decide +kernel

/-- The beneficiary is credited and the contract keeps what it had. -/
theorem destructingRun_mints : ∃ r, destructingRun = .ok r ∧
    r.evm.stateDB.total - destructing.stateDB.total ≠
      100 * asked (destructing.stateDB.opsTo r.evm.stateDB) := by
  obtain ⟨r, hr, hdrift⟩ := destructingRun_drift.exists
  refine ⟨r, hr, fun htotal => hdrift ?_⟩
  have hreplay := total_replay destructing.stateDB (destructing.stateDB.opsTo r.evm.stateDB)
  rw [← (Entry.start_evolves hr).replays] at hreplay
  omega

end MiniEvm
