import MiniEvm.State.Replay
import MiniEvm.Vm.Evolution

namespace MiniEvm

open Math Framework StateDB

namespace OpCode

/-- The state operations of computing the gas of an instruction. -/
def gasOps (op : OpCode) (env : Env) (fr : Frame) : List StateOp :=
  match op, fr.stack with
  | SSTORE, x :: _ => [.getState fr.contract.self (bigToHash x)]
  | SELFDESTRUCT, _ =>
    if env.isEIP150 && env.isEIP158 then
      [.getBalance fr.contract.self, .hasSuicided fr.contract.self]
    else [.hasSuicided fr.contract.self]
  | _, _ => []

/-- The state operations of executing an instruction that enters no frame. -/
def effectOps (op : OpCode) (env : Env) (db : StateDB) (fr : Frame) : List StateOp :=
  match op, fr.stack with
  | BALANCE, x :: _ => [.getBalance (bigToAddress x)]
  | SLOAD, x :: _ => [.getState fr.contract.self (bigToHash x)]
  | SSTORE, x :: val :: _ => [.setState fr.contract.self (bigToHash x) (bigToHash val)]
  | SELFDESTRUCT, x :: _ =>
    [.getBalance fr.contract.self,
      .addBalance (bigToAddress x) (db.getBalance fr.contract.self).1, .suicide fr.contract.self]
  | LOG n, mStart :: mSize :: st =>
    [.addLog ⟨fr.contract.self, (st.take n).map bigToHash,
      (fr.mem.get (int64 mStart) (int64 mSize)).getD [], uint64 env.blockNumber⟩]
  | op, st =>
    match op.exactResult st with
    | some (key, v) =>
      if v ≠ u256 v then [.setState fr.contract.self (stringToHash key) (bigToHash (int64 fr.pc))]
      else []
    | none => []

theorem gasEffect_ops (op : OpCode) (env : Env) (db : StateDB) (fr : Frame) :
    op.gasEffect env db fr = db.replay (op.gasOps env fr) := by
  simp only [gasEffect, gasOps]
  generalize fr.stack = st
  cases op with
  | SSTORE => cases st <;> rfl
  | SELFDESTRUCT =>
    simp only
    split_ifs <;> rfl
  | _ => rfl

theorem effect_ops (op : OpCode) (env : Env) (evm : Evm) (fr : Frame) :
    (op.effect env evm fr).stateDB = evm.stateDB.replay (op.effectOps env evm.stateDB fr) := by
  simp only [effect, effectOps]
  generalize fr.stack = st
  -- a mark is one operation, and no mark is none
  have marked : ∀ key v, (markOverflow key v evm fr).stateDB = evm.stateDB.replay
      (if v ≠ u256 v then [.setState fr.contract.self (stringToHash key) (bigToHash (int64 fr.pc))]
        else []) := by
    intro key v
    unfold markOverflow
    split_ifs <;> rfl
  cases op with
  | BALANCE | SLOAD | SELFDESTRUCT => cases st <;> rfl
  | SSTORE | LOG => rcases st with _ | ⟨x, _ | ⟨y, st⟩⟩ <;> rfl
  | ADD | SUB | MUL | DIV =>
    simp only
    cases exactResult _ st with
    | none => rfl
    | some r => exact marked r.1 r.2
  | _ => rfl

end OpCode

/-- The state operations of a `Create` up to the point where it runs the code. -/
def createOps (env : Env) (db : StateDB) (creator contractAddr : Address) (value : Int) :
    List StateOp :=
  [.getBalance creator, .setNonce creator (db.getNonce creator + 1), .createAccount contractAddr] ++
    (if env.isEIP158 then [.setNonce contractAddr 1] else []) ++
    [.subBalance creator value, .addBalance contractAddr value]

theorem getNonce_getBalance (db : StateDB) (a x : Address) :
    (db.getBalance a).2.getNonce x = db.getNonce x := by
  rw [getNonce, account_getBalance]
  split_ifs with hx <;> simp [getNonce, hx]

theorem raiseNonce_ops (db : StateDB) (a : Address) (v : Int) :
    (canTransfer db a v).2.raiseNonce a =
      db.replay [.getBalance a, .setNonce a (db.getNonce a + 1)] := by
  rw [raiseNonce, canTransfer, getNonce_getBalance]
  rfl

theorem newAccount_ops (env : Env) (db : StateDB) (a addr : Address) (v : Int) :
    newAccount env ((canTransfer db a v).2.raiseNonce a) a addr v =
      db.replay (createOps env db a addr v) := by
  rw [raiseNonce_ops]
  unfold newAccount createOps
  split_ifs <;> rfl

/-- A call tree changes the state by the operations it records and by nothing else. -/
theorem Evolves.replays {env : Env} {s : Site} {a b : Evm} (h : Evolves env s a b) :
    Replays a.stateDB b.stateDB := by
  induction h with
  | refl => exact .refl _
  | trans _ _ ih ih' => exact ih.trans ih'
  | @attempt evm evm' fr fr' op n ready charged =>
    rw [charged.stateDB]
    split_ifs
    · exact .refl _
    · exact .of_ops _ (op.gasEffect_ops env _ fr)
  | @execute evm fr op n ready begun hc => exact .of_ops _ (op.effect_ops env _ fr)
  | callInstruction | output | enter => exact .refl _
  | @checkBalance s evm | @failCreate s evm => exact .of_ops [.getBalance s.address] rfl
  | @pay s evm recipient value =>
    exact .of_ops [.getBalance s.address, .subBalance s.address value, .addBalance recipient value] rfl
  | @collide s evm value => exact .of_ops _ (raiseNonce_ops evm.stateDB s.address value)
  | @create s evm evm' evm'' db addr value depth may can hdb haddr free inner stored ih =>
    subst hdb
    rw [newAccount_ops] at ih
    have hin := (Replays.of_ops _ rfl).trans ih
    obtain rfl | ⟨-, code, rfl⟩ := stored
    · exact hin
    · exact hin.trans (.of_ops [.setCode addr code] rfl)
  | run pass code inner ih => exact ih
  | static outermost inner ih => exact ih

/-- A property of the histories of call trees: it holds of what single instructions and entry points
do, and of stretches one after the other. -/
structure HistoryRule (env : Env) (P : StateDB → List StateOp → Prop) : Prop where
  nil (db : StateDB) : P db []
  append {db : StateDB} {ops ops' : List StateOp} : P db ops → P (db.replay ops) ops' →
    P db (ops ++ ops')
  gas (op : OpCode) (db : StateDB) (fr : Frame) : P db (op.gasOps env fr)
  effect (op : OpCode) (db : StateDB) (fr : Frame) : P db (op.effectOps env db fr)
  ask (db : StateDB) (a : Address) : P db [.getBalance a]
  pay (db : StateDB) (a b : Address) (v : Int) :
    P db [.getBalance a, .subBalance a v, .addBalance b v]
  raise (db : StateDB) (a : Address) : P db [.getBalance a, .setNonce a (db.getNonce a + 1)]
  create {db : StateDB} {a addr : Address} (v : Int)
    (free : collides env (db.replay [.getBalance a, .setNonce a (db.getNonce a + 1)]) addr = false) :
    P db (createOps env db a addr v)
  store {db : StateDB} {a addr : Address} {v : Int} {ops : List StateOp} (code : Bytes)
    (free : collides env (db.replay [.getBalance a, .setNonce a (db.getNonce a + 1)]) addr = false)
    (inner : P (db.replay (createOps env db a addr v)) ops) :
    P db (createOps env db a addr v ++ ops ++ [.setCode addr code])

namespace HistoryRule

variable {env : Env} {P : StateDB → List StateOp → Prop}

theorem of_ops {db db' : StateDB} (ops : List StateOp) (h : db' = db.replay ops) (hops : P db ops) :
    P db (db.opsTo db') := by
  subst h
  rwa [(db.replays_replay ops).1]

theorem evolves (rule : HistoryRule env P) {s : Site} {a b : Evm} (h : Evolves env s a b) :
    P a.stateDB (a.stateDB.opsTo b.stateDB) := by
  induction h with
  | refl s evm => exact of_ops [] rfl (rule.nil _)
  | trans hab hbc ih ih' =>
    rw [hab.replays.opsTo_trans hbc.replays]
    exact rule.append ih (hab.replays ▸ ih')
  | @attempt evm evm' fr fr' op n ready charged =>
    rw [charged.stateDB]
    split_ifs
    · exact of_ops [] rfl (rule.nil _)
    · exact of_ops _ (op.gasEffect_ops env _ fr) (rule.gas op _ fr)
  | @execute evm fr op n ready begun hc =>
    exact of_ops _ (op.effect_ops env _ fr) (rule.effect op _ fr)
  | callInstruction | output | enter => exact of_ops [] rfl (rule.nil _)
  | @checkBalance s evm | @failCreate s evm => exact of_ops _ rfl (rule.ask _ s.address)
  | @pay s evm recipient value => exact of_ops _ rfl (rule.pay _ s.address recipient value)
  | @collide s evm value => exact of_ops _ (raiseNonce_ops evm.stateDB s.address value) (rule.raise _ _)
  | @create s evm evm' evm'' db addr value depth may can hdb haddr free inner stored ih =>
    subst hdb
    have hin := inner.replays
    simp only [newAccount_ops] at ih hin
    rw [raiseNonce_ops] at free
    have hrun : evm'.stateDB = evm.stateDB.replay (createOps env evm.stateDB s.address addr value ++
        (evm.stateDB.replay (createOps env evm.stateDB s.address addr value)).opsTo evm'.stateDB) := by
      rw [replay_append]
      exact hin
    obtain rfl | ⟨-, code, rfl⟩ := stored
    · exact of_ops _ hrun (rule.append (rule.create value free) ih)
    · refine of_ops _ ?_ (rule.store code free ih)
      rw [replay_append, ← hrun]
      rfl
  | run pass code inner ih => exact ih
  | static outermost inner ih => exact ih

end HistoryRule

theorem Entry.start_evolves {env : Env} {fuel : Nat} {evm : Evm} {caller : ContractRef}
    {gas : UInt64} {e : Entry} {r : CreateResult} (h : e.start env fuel evm caller gas = .ok r) :
    Evolves env (.entry caller) evm r.evm := by
  refine invoke_evolves (interpreterRun_evolves env fuel) rfl ?_ h
  cases e <;> trivial

end MiniEvm
