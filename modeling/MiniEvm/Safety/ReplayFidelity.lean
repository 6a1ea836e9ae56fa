import MiniEvm.Detectors.CReplayer
import MiniEvm.Safety.Conservation
import MiniEvm.Vm.KeptLogs

namespace MiniEvm

open Math Framework StateDB

namespace CReplayer

/-- What the replay is meant to do: one call for each transaction to the replayed contract. -/
def replayed (env : Env) (fuel : Nat) (cr : CReplayer) : Outcome Evm CReplayer :=
  forEach (callTx env fuel) (cr.txs.filter fun tx => hexToAddress tx.toAddr = cr.caddr) cr

/-- Both reach a state, and it is the same. -/
def Faithful (env : Env) (cr : CReplayer) : Prop :=
  ∃ fuel r r', cr.transactionExecuter env fuel = .ok r ∧ cr.replayed env fuel = .ok r' ∧
    r.evm.stateDB.stateMap = r'.evm.stateDB.stateMap ∧ r.evm.stateDB.logs = r'.evm.stateDB.logs

/-- The arguments of a `Call`. -/
structure CallArgs where
  calleraddress : String
  calldata : String
  gaslimit : String
  value : String

/-- What is called for a transaction: its own call and the two price queries. Its recipient plays no
role. -/
def callsOf (tx : RpcTransaction) : List CallArgs :=
  [⟨tx.fromAddr, tx.input, tx.gas, tx.value⟩, ⟨tx.fromAddr, "0x4b750334", tx.gas, "0x00"⟩,
    ⟨tx.fromAddr, "0x8620410b", tx.gas, "0x00"⟩]

/-- Calls one after the other on the same state. Each of them starts with a check of the caller's
balance, which raises it by 100. -/
inductive Performs (env : Env) (fuel : Nat) : List CallArgs → CReplayer → CReplayer → Prop
  | nil (cr : CReplayer) : Performs env fuel [] cr cr
  | cons {c : CallArgs} {cs : List CallArgs} {cr cr' r : CReplayer} {ret : Bytes} {sender : Address}
      {ops : List StateOp} (hsender : sender = hexToAddress c.calleraddress)
      (called : cr.call env fuel c.calleraddress c.calldata c.gaslimit c.value = .ok (ret, cr'))
      (checked : cr'.evm.stateDB = (cr.evm.stateDB.getBalance sender).2.replay ops)
      (raised : ((cr.evm.stateDB.getBalance sender).2.account sender).balance =
        (cr.evm.stateDB.account sender).balance + 100)
      (rest : Performs env fuel cs cr' r) : Performs env fuel (c :: cs) cr r

/-- Between two calls, with a contract that has no code. -/
structure Codeless (cr : CReplayer) : Prop where
  depth : cr.evm.depth = 0
  caddr : cr.caddr = 0x100
  code : cr.evm.stateDB.getCode 0x100 = []

end CReplayer

theorem precompiles_codeless (env : Env) : env.precompiles 0x100 = none := by
  unfold Env.precompiles
  split_ifs <;> decide

theorem total_canTransfer (db : StateDB) (a : Address) (v : Int) :
    (canTransfer db a v).2.total = db.total + 100 :=
  total_perform db (.getBalance a)

/-- A payment after its balance check moves no ether but the bonus of the check. -/
theorem total_pay (db : StateDB) (a b : Address) (v : Int) :
    (transfer (canTransfer db a v).2 a b v).total = db.total + 100 := by
  have hpay := total_replay db [.getBalance a, .subBalance a v, .addBalance b v]
  have hfair : Along StateDB.perform (fun db op => op.Fair db) db
      [.getBalance a, .subBalance a v, .addBalance b v] := ⟨trivial, trivial, trivial, trivial⟩
  rw [pay_conserves db a b v hfair] at hpay
  exact hpay

theorem getCode_perform {db : StateDB} (op : StateOp) {x : Address}
    (h : ∀ present s, (op.update present s).code = s.code) :
    (db.perform op).getCode x = db.getCode x := by
  rw [getCode, account_perform]
  split_ifs
  · exact h _ _
  · rfl

theorem getCode_canTransfer (db : StateDB) (a x : Address) (v : Int) :
    (canTransfer db a v).2.getCode x = db.getCode x :=
  getCode_perform (.getBalance a) fun _ _ => rfl

theorem getCode_transfer (db : StateDB) (a b x : Address) (v : Int) :
    (transfer db a b v).getCode x = db.getCode x := by
  have hsub : (db.subBalance a v).getCode x = db.getCode x := by
    refine getCode_perform (.subBalance a v) ?_
    intro present s
    cases present <;> rfl
  have hadd : ((db.subBalance a v).addBalance b v).getCode x = (db.subBalance a v).getCode x :=
    getCode_perform (.addBalance b v) fun _ _ => rfl
  exact hadd.trans hsub

/-- Running a contract without code leaves the store alone. -/
theorem runContract_codeless {env : Env} {fuel : Nat} {evm : Evm} {contract : Contract} {input : Bytes}
    {r : RunResult} (haddr : contract.codeAddr = some 0x100) (hcode : contract.code = [])
    (h : runContract env (interpreterRun env env.jumpTable fuel) evm contract input = .ok r) :
    r.evm.stateDB = evm.stateDB ∧ r.evm.depth = evm.depth := by
  unfold runContract at h
  simp only [haddr, Option.bind_some, precompiles_codeless] at h
  have hran := interpreterRun_evolves env fuel _ _ _ _ h
  generalize r.evm = evm' at hran
  cases hran with
  | empty => exact ⟨rfl, rfl⟩
  | code code => exact absurd hcode code

namespace CReplayer

/-- A call of the contract without code: all it does to the ether is the bonus of the check. -/
theorem Codeless.call {env : Env} {fuel : Nat} {cr cr' : CReplayer} {ret : Bytes}
    {calleraddress calldata gaslimit value : String} (hcr : cr.Codeless)
    (h : cr.call env fuel calleraddress calldata gaslimit value = .ok (ret, cr')) :
    cr'.Codeless ∧ cr'.evm.stateDB.total = cr.evm.stateDB.total + 100 := by
  obtain ⟨data, -, h⟩ := Outcome.bind_eq_ok.mp h
  obtain ⟨r, hr, h⟩ := Outcome.bind_eq_ok.mp h
  cases h
  have hdepth := hcr.depth
  unfold Evm.runCall Evm.call at hr
  rw [if_neg (by omega), if_neg (by omega)] at hr
  simp only [StateDB.exist, hcr.caddr, ContractRef.address] at hr
  generalize hexToAddress calleraddress = a at hr
  generalize setString value = v at hr
  cases hcan : (canTransfer cr.evm.stateDB a v).1 with
  | false =>
    simp only [hcan] at hr
    cases hr
    have hcode := (getCode_canTransfer cr.evm.stateDB a 0x100 v).trans hcr.code
    exact ⟨⟨hdepth, hcr.caddr, hcode⟩, total_canTransfer cr.evm.stateDB a v⟩
  | true =>
    simp only [hcan, Bool.not_true, Bool.false_eq_true, false_and, if_false, if_true] at hr
    obtain ⟨rr, hrr, hr⟩ := Outcome.bind_eq_ok.mp hr
    cases hr
    have hcode : (transfer (canTransfer cr.evm.stateDB a v).2 a 0x100 v).getCode 0x100 = [] := by
      rw [getCode_transfer, getCode_canTransfer, hcr.code]
    obtain ⟨hdb, hd⟩ := runContract_codeless rfl hcode hrr
    refine ⟨⟨?_, hcr.caddr, ?_⟩, ?_⟩
    · rw [settle_evm]
      exact hd.trans hdepth
    · rw [settle_evm, hdb]
      exact hcode
    · rw [settle_evm, hdb]
      exact total_pay ..

/-- The ether after one call for each transaction of a list. -/
theorem Codeless.callTx {env : Env} {fuel : Nat} {tx : RpcTransaction} {cr cr' : CReplayer}
    (hcr : cr.Codeless) (h : cr.callTx env fuel tx = .ok cr') :
    cr'.Codeless ∧ cr'.evm.stateDB.total = cr.evm.stateDB.total + 100 := by
  obtain ⟨⟨ret, c⟩, hc, h⟩ := Outcome.bind_eq_ok.mp h
  cases h
  exact hcr.call hc

theorem Codeless.query {env : Env} {fuel : Nat} {calldata : String} {tx : RpcTransaction}
    {cr cr' : CReplayer} (hcr : cr.Codeless) (h : cr.query env fuel calldata tx = .ok cr') :
    cr'.Codeless ∧ cr'.evm.stateDB.total = cr.evm.stateDB.total + 100 := by
  obtain ⟨⟨ret, c⟩, hc, h⟩ := Outcome.bind_eq_ok.mp h
  cases h
  exact hcr.call hc

theorem Codeless.executeTx {env : Env} {fuel : Nat} {tx : RpcTransaction} {cr cr' : CReplayer}
    (hcr : cr.Codeless) (h : cr.executeTx env fuel tx = .ok cr') :
    cr'.Codeless ∧ cr'.evm.stateDB.total = cr.evm.stateDB.total + 300 := by
  obtain ⟨c, hc, h⟩ := Outcome.bind_eq_ok.mp h
  obtain ⟨c', hc', h⟩ := Outcome.bind_eq_ok.mp h
  obtain ⟨hidle, htotal⟩ := hcr.callTx hc
  obtain ⟨hidle', htotal'⟩ := hidle.query hc'
  obtain ⟨hidle'', htotal''⟩ := hidle'.query h
  exact ⟨hidle'', by omega⟩

/-- Every call on an idle machine starts with the check of a balance, and leaves the machine idle. -/
theorem call_checks {env : Env} {fuel : Nat} {cr cr' : CReplayer} {ret : Bytes}
    {calleraddress calldata gaslimit value : String} (hdepth : cr.evm.depth = 0)
    (h : cr.call env fuel calleraddress calldata gaslimit value = .ok (ret, cr')) :
    cr'.evm.depth = 0 ∧ ∃ ops, cr'.evm.stateDB =
      (cr.evm.stateDB.getBalance (hexToAddress calleraddress)).2.replay ops := by
  obtain ⟨data, -, h⟩ := Outcome.bind_eq_ok.mp h
  obtain ⟨r, hr, h⟩ := Outcome.bind_eq_ok.mp h
  cases h
  have hstart : (Entry.call cr.caddr (hex2Bytes data) (setString value)).start env fuel cr.evm
      (.account (hexToAddress calleraddress)) (uint64 (setString gaslimit)) = .ok ⟨r, 0⟩ :=
    Outcome.bind_eq_ok.mpr ⟨r, hr, rfl⟩
  refine ⟨(Entry.start_evolves hstart).mode.1.trans hdepth, ?_⟩
  unfold Evm.runCall Evm.call at hr
  rw [if_neg (by omega), if_neg (by omega)] at hr
  simp only [StateDB.exist, ContractRef.address] at hr
  generalize hexToAddress calleraddress = a at hr ⊢
  cases hcan : (canTransfer cr.evm.stateDB a (setString value)).1 with
  | false =>
    simp only [hcan] at hr
    cases hr
    exact ⟨[], rfl⟩
  | true =>
    simp only [hcan, Bool.not_true, Bool.false_eq_true, false_and, if_false, if_true] at hr
    obtain ⟨rr, hrr, hr⟩ := Outcome.bind_eq_ok.mp hr
    cases hr
    have hrun := (runContract_evolves (s := .entry (.account a)) (interpreterRun_evolves env fuel)
      ⟨by simp [hdepth], by simp [hdepth]⟩ hrr).replays
    obtain ⟨ops, hops⟩ : ∃ ops, rr.evm.stateDB = (transfer (canTransfer cr.evm.stateDB a
        (setString value)).2 a cr.caddr (setString value)).replay ops := ⟨_, hrun⟩
    refine ⟨.subBalance a (setString value) :: .addBalance cr.caddr (setString value) :: ops, ?_⟩
    rw [settle_evm, hops]
    rfl

theorem Performs.snoc {env : Env} {fuel : Nat} {c : CallArgs} {cs : List CallArgs}
    {cr cr' r : CReplayer} {ret : Bytes} (hdepth : cr.evm.depth = 0)
    (called : cr.call env fuel c.calleraddress c.calldata c.gaslimit c.value = .ok (ret, cr'))
    (rest : cr'.evm.depth = 0 → Performs env fuel cs cr' r) : Performs env fuel (c :: cs) cr r := by
  obtain ⟨hidle, ops, hops⟩ := call_checks hdepth called
  refine .cons rfl called hops ?_ (rest hidle)
  rw [account_getBalance, if_pos rfl]

/-- The calls of a replay are those of its transactions, in order. -/
theorem performs_of_forEach {env : Env} {fuel : Nat} {txs : List RpcTransaction} {cr r : CReplayer}
    (hdepth : cr.evm.depth = 0) (h : forEach (executeTx env fuel) txs cr = .ok r) :
    Performs env fuel (txs.flatMap callsOf) cr r := by
  induction txs generalizing cr with
  | nil =>
    cases h
    exact .nil _
  | cons tx txs ih =>
    obtain ⟨c, hexec, hrest⟩ := Outcome.bind_eq_ok.mp h
    obtain ⟨c₁, hcall, hqueries⟩ := Outcome.bind_eq_ok.mp hexec
    obtain ⟨c₂, hsell, hbuy⟩ := Outcome.bind_eq_ok.mp hqueries
    obtain ⟨⟨ret₁, d₁⟩, hcall, h₁⟩ := Outcome.bind_eq_ok.mp hcall
    obtain ⟨⟨ret₂, d₂⟩, hsell, h₂⟩ := Outcome.bind_eq_ok.mp hsell
    obtain ⟨⟨ret₃, d₃⟩, hbuy, h₃⟩ := Outcome.bind_eq_ok.mp hbuy
    cases h₁
    cases h₂
    cases h₃
    exact .snoc hdepth hcall fun hdepth => .snoc hdepth hsell fun hdepth => .snoc hdepth hbuy
      fun hdepth => ih hdepth hrest

/-- The replayer of a contract without code, on an empty store. -/
def codeless (txs : List RpcTransaction) : CReplayer := ⟨Evm.new StateDB.new, 0x100, txs⟩

theorem codeless_codeless (txs : List RpcTransaction) : (codeless txs).Codeless := ⟨rfl, rfl, rfl⟩

/-- A replay is faithful, whatever the contract and the store, exactly when there is nothing to
replay: every transaction is executed whatever its recipient is, and it and its two queries raise a
balance each. -/
theorem transactionExecuter_faithful_iff (env : Env) (txs : List RpcTransaction) :
    ((∀ cr : CReplayer, cr.txs = txs → cr.Faithful env) ↔ txs = []) ∧
    ∀ (fuel : Nat) (cr r : CReplayer), cr.txs = txs → cr.evm.depth = 0 →
      cr.transactionExecuter env fuel = .ok r → Performs env fuel (txs.flatMap callsOf) cr r := by
  refine ⟨⟨?_, ?_⟩, ?_⟩
  · intro h
    obtain ⟨fuel, r, r', hr, hr', hmap, -⟩ := h (codeless txs) rfl
    have hall : r.evm.stateDB.total = (codeless txs).evm.stateDB.total + 300 * txs.length :=
      forEach_raises (P := Codeless) (f := fun cr => cr.evm.stateDB.total)
        (fun tx _ _ hcr h => hcr.executeTx h) (codeless_codeless txs) hr
    have hours := forEach_raises (P := Codeless) (f := fun cr => cr.evm.stateDB.total)
      (fun tx _ _ hcr h => hcr.callTx h) (codeless_codeless txs) hr'
    have htotal : r.evm.stateDB.total = r'.evm.stateDB.total := by simp only [total, account, hmap]
    have hfilter := List.length_filter_le
      (fun tx : RpcTransaction => decide (hexToAddress tx.toAddr = (codeless txs).caddr)) txs
    have hzero : txs.length = 0 := by
      simp only [codeless] at hall hours hfilter
      omega
    exact List.length_eq_zero_iff.mp hzero
  · rintro rfl cr hcr
    refine ⟨0, cr, cr, ?_, ?_, rfl, rfl⟩
    · rw [transactionExecuter, hcr]
      rfl
    · rw [replayed, hcr]
      rfl
  · intro fuel cr r htxs hdepth h
    rw [← htxs]
    exact performs_of_forEach hdepth h

/-- One transaction, to another contract than the replayed one. -/
def toAnother : List RpcTransaction := [⟨"0x07", "0x200", "0x", "0x05", "0x00"⟩]

theorem toAnother_returns :
    ((codeless toAnother).transactionExecuter recursiveEnv 5).Returns fun _ => True := by
  decide +kernel

theorem transactionExecuter_faithful_iff_another : ∃ r,
    (codeless toAnother).transactionExecuter recursiveEnv 5 = .ok r ∧
      Performs recursiveEnv 5 (toAnother.flatMap callsOf) (codeless toAnother) r := by
  obtain ⟨r, hr, -⟩ := toAnother_returns.exists
  have hperforms := (transactionExecuter_faithful_iff recursiveEnv toAnother).2
  exact ⟨r, hr, hperforms 5 (codeless toAnother) r rfl rfl hr⟩

end CReplayer

end MiniEvm
