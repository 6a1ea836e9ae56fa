import MiniEvm.Safety.Creation
import MiniEvm.Vm.WordRule

namespace MiniEvm

open Math Framework StateDB

/-- No account is overdrawn. -/
def StateDB.Solvent (db : StateDB) : Prop := ∀ a, 0 ≤ (db.account a).balance

/-- A debit is covered by an account that is there, and a credit is not negative. -/
def StateOp.Covered (db : StateDB) : StateOp → Prop
  | subBalance a v => db.present a = true ∧ v ≤ (db.account a).balance
  | addBalance _ v => 0 ≤ v
  | _ => True

theorem StateDB.Solvent.perform {db : StateDB} {op : StateOp} (h : db.Solvent)
    (hop : op.Covered db) : (db.perform op).Solvent := by
  intro x
  have hx := h x
  rw [account_perform]
  split_ifs with ht
  · cases op with
    | createAccount a => exact Int.le_refl 0
    | subBalance a v =>
      cases ht
      obtain ⟨hp, hle⟩ := hop
      simp only [StateOp.update, hp, if_true]
      omega
    | addBalance a v =>
      have hv : 0 ≤ v := hop
      simp only [StateOp.update]
      omega
    | getBalance a =>
      simp only [StateOp.update]
      omega
    | _ => exact hx
  · exact hx

/-- No account that has used up its nonces would create itself. -/
def StateDB.Separate (env : Env) (db : StateDB) : Prop :=
  ∀ a, db.getNonce a = maxUint64 → createAddress env.crypto a maxUint64 ≠ a

/-- As long as no nonce runs out, accounts are separate. -/
theorem Lasting.separate {db : StateDB} {ops : List StateOp} (h : Lasting db ops) (env : Env) :
    Along StateDB.perform (fun db _ => db.Separate env) db ops := by
  refine along_iff.mpr fun pre op hpre a hmax => ?_
  have hlast := h pre ((List.prefix_append ..).trans hpre) a
  rw [replay, hmax] at hlast
  exact absurd hlast (by decide)

/-- No account is overdrawn after the operations between the two states; each of them was covered,
if accounts stayed separate. -/
structure CoveredTo (env : Env) (db db' : StateDB) : Prop where
  replays : Replays db db'
  solvent : db'.Solvent
  covered : Along StateDB.perform (fun db _ => db.Separate env) db (db.opsTo db') →
    Along StateDB.perform (fun db op => op.Covered db) db (db.opsTo db')

namespace CoveredTo

variable {env : Env} {base db : StateDB}

theorem refl (h : db.Solvent) : CoveredTo env db db :=
  ⟨.refl _, h, fun _ => HistoryRule.of_ops [] rfl trivial⟩

theorem extend (h : CoveredTo env base db) {db' : StateDB} (ops : List StateOp)
    (hdb : db' = db.replay ops) (hsolvent : db'.Solvent)
    (hops : Along StateDB.perform (fun db _ => db.Separate env) db ops →
      Along StateDB.perform (fun db op => op.Covered db) db ops) : CoveredTo env base db' := by
  have hr : Replays db db' := .of_ops ops hdb
  refine ⟨h.replays.trans hr, hsolvent, fun hsep => ?_⟩
  obtain ⟨hsep, hsep'⟩ := (h.replays.along_trans hr).mp hsep
  refine (h.replays.along_trans hr).mpr ⟨h.covered hsep, ?_⟩
  rw [hdb, (db.replays_replay ops).1] at hsep' ⊢
  exact hops hsep'

theorem extend_covered (h : CoveredTo env base db) {db' : StateDB} (ops : List StateOp)
    (hdb : db' = db.replay ops)
    (hops : Along StateDB.perform (fun db op => op.Covered db) db ops) : CoveredTo env base db' := by
  refine h.extend ops hdb ?_ fun _ => hops
  rw [hdb]
  exact (hops.invariant h.solvent fun _ _ hs hop => hs.perform hop).1

end CoveredTo

theorem nonneg_words : WordSet (fun x => 0 ≤ x) where
  small n _ := Int.natCast_nonneg n
  nonneg _ h := h
  land x y hx hy := by
    obtain ⟨m, rfl⟩ := Int.eq_ofNat_of_zero_le hx
    obtain ⟨n, rfl⟩ := Int.eq_ofNat_of_zero_le hy
    exact Int.natCast_nonneg _
  lor x y hx hy := by
    obtain ⟨m, rfl⟩ := Int.eq_ofNat_of_zero_le hx
    obtain ⟨n, rfl⟩ := Int.eq_ofNat_of_zero_le hy
    exact Int.natCast_nonneg _
  xor x y hx hy := by
    obtain ⟨m, rfl⟩ := Int.eq_ofNat_of_zero_le hx
    obtain ⟨n, rfl⟩ := Int.eq_ofNat_of_zero_le hy
    exact Int.natCast_nonneg _

theorem OpCode.gasOps_covered (op : OpCode) (env : Env) (db : StateDB) (fr : Frame) :
    Along StateDB.perform (fun db op => op.Covered db) db (op.gasOps env fr) := by
  unfold gasOps
  split
  · exact ⟨trivial, trivial⟩
  · split_ifs
    · exact ⟨trivial, trivial, trivial⟩
    · exact ⟨trivial, trivial⟩
  · trivial

/-- `SELFDESTRUCT` credits a balance that is not negative. -/
theorem OpCode.effectOps_covered (op : OpCode) (env : Env) {db : StateDB} (fr : Frame)
    (h : db.Solvent) :
    Along StateDB.perform (fun db op => op.Covered db) db (op.effectOps env db fr) := by
  unfold effectOps
  split
  case h_4 =>
    refine ⟨trivial, ?_, trivial, trivial⟩
    have hself := h fr.contract.self
    change 0 ≤ (db.account fr.contract.self).balance + 100
    omega
  case h_6 =>
    split
    · split_ifs
      · exact ⟨trivial, trivial⟩
      · trivial
    · trivial
  all_goals exact ⟨trivial, trivial⟩

theorem pay_covered {db : StateDB} {a : Address} (b : Address) {v : Int} (hv : 0 ≤ v)
    (can : (canTransfer db a v).1 = true) :
    Along StateDB.perform (fun db op => op.Covered db) db
      [.getBalance a, .subBalance a v, .addBalance b v] := by
  have hcan : v ≤ (db.account a).balance + 100 := of_decide_eq_true can
  refine ⟨trivial, ⟨?_, ?_⟩, hv, trivial⟩
  · simp [present_perform, StateOp.enters, StateOp.target]
  · simpa [account_perform, StateOp.target, StateOp.update] using hcan

/-- The creator is not the account that is reset, unless its nonce wraps around. -/
theorem creator_ne_of_free {env : Env} {db : StateDB} {a addr : Address} {v : Int}
    (hsep : db.Separate env)
    (haddr : addr = createAddress env.crypto a ((canTransfer db a v).2.getNonce a))
    (free : collides env ((canTransfer db a v).2.raiseNonce a) addr = false) : a ≠ addr := by
  rintro rfl
  have hread : (canTransfer db a v).2.getNonce a = db.getNonce a := getNonce_getBalance ..
  have hnonce : ((canTransfer db a v).2.raiseNonce a).getNonce a = 0 := by
    simp only [collides, Bool.or_eq_false_iff, decide_eq_false_iff_not, not_not] at free
    exact free.1
  have hraised : ((canTransfer db a v).2.raiseNonce a).getNonce a = db.getNonce a + 1 := by
    rw [raiseNonce_ops]
    simp [replay, getNonce, account_perform, StateOp.target, StateOp.update]
  have hmax : db.getNonce a = maxUint64 := by
    have hwrap : db.getNonce a = db.getNonce a + 1 - 1 := by simp
    rw [hwrap, ← hraised, hnonce]
    decide
  rw [hread, hmax] at haddr
  exact hsep a hmax haddr.symm

theorem createOps_covered {env : Env} {db : StateDB} {a addr : Address} {v : Int} (hv : 0 ≤ v)
    (can : (canTransfer db a v).1 = true) (hne : a ≠ addr) :
    Along StateDB.perform (fun db op => op.Covered db) db (createOps env db a addr v) := by
  have hcan : v ≤ (db.account a).balance + 100 := of_decide_eq_true can
  unfold createOps
  split_ifs
  · refine ⟨trivial, trivial, trivial, trivial, ⟨?_, ?_⟩, hv, trivial⟩
    · simp [present_perform, StateOp.enters, StateOp.target]
    · simpa [account_perform, StateOp.target, StateOp.update, Ne.symm hne] using hcan
  · refine ⟨trivial, trivial, trivial, ⟨?_, ?_⟩, hv, trivial⟩
    · simp [present_perform, StateOp.enters, StateOp.target]
    · simpa [account_perform, StateOp.target, StateOp.update, Ne.symm hne] using hcan

/-- An account that creates itself is reset, pays itself and is left with nothing. -/
theorem createOps_self (env : Env) (db : StateDB) (a : Address) (v : Int) :
    ((db.replay (createOps env db a a v)).account a).balance = 0 := by
  unfold createOps
  split_ifs <;>
    simp [replay, account_perform, present_perform, StateOp.target, StateOp.update, StateOp.enters,
      State.new]

theorem createOps_solvent {env : Env} {db : StateDB} {a addr : Address} {v : Int} (hv : 0 ≤ v)
    (can : (canTransfer db a v).1 = true) (h : db.Solvent) :
    (db.replay (createOps env db a addr v)).Solvent := by
  by_cases hne : a = addr
  · subst hne
    intro x
    by_cases hx : x = a
    · rw [hx, createOps_self]
    · have hx' := h x
      unfold createOps
      split_ifs <;>
        simpa [replay, account_perform, StateOp.target, Ne.symm hx] using hx'
  · exact ((createOps_covered hv can hne).invariant h fun _ _ hs hop => hs.perform hop).1

theorem covered_rule {env : Env} (base : StateDB) (hprice : 0 ≤ env.gasPrice) :
    WordRule env (fun _ => True) (fun x => 0 ≤ x) (fun db _ => CoveredTo env base db) where
  words := nonneg_words
  earlier _ _ := trivial
  enter _ _ h _ := h
  attempt _ h _ := h
  gas op fr h := h.extend_covered _ (op.gasEffect_ops env _ fr) (op.gasOps_covered env _ fr)
  exec _ h _ := h
  reads := by
    intro evm fr op n ready h hfr _
    unfold OpCode.Reads
    split
    · intro x st _
      have hx := h.solvent (bigToAddress x)
      change 0 ≤ (evm.stateDB.account (bigToAddress x)).balance + 100
      omega
    · exact hfr.value
    · exact hprice
    · exact Int.natCast_nonneg _
    · exact Int.natCast_nonneg _
    · exact fun _ _ _ => Int.natCast_nonneg _
    · exact Int.natCast_nonneg _
    · exact Int.natCast_nonneg _
    · exact Int.natCast_nonneg _
    · trivial
  effect op h _ := h.extend_covered _ (op.effect_ops env _ _) (op.effectOps_covered env _ h.solvent)
  ask a h := h.extend_covered [.getBalance a] rfl ⟨trivial, trivial⟩
  pay b h hv can := h.extend_covered _ rfl (pay_covered b (hv trivial) can)
  raise a v h := h.extend_covered _ (raiseNonce_ops _ a v) ⟨trivial, trivial, trivial⟩
  create h hv can haddr free := by
    refine h.extend _ (newAccount_ops ..) ?_ fun hsep => ?_
    · rw [newAccount_ops]
      exact createOps_solvent (hv trivial) can h.solvent
    · exact createOps_covered (hv trivial) can (creator_ne_of_free hsep.1 haddr free)
  store addr code h := h.extend_covered [.setCode addr code] rfl ⟨trivial, trivial⟩

/-- On the way from `db` to `db'` no balance is ever negative, and no debit is made from an absent
account or for more than the account holds. -/
structure NoOverdraft (db db' : StateDB) : Prop where
  replays : Replays db db'
  balance : ∀ pre, pre <+: db.opsTo db' → ∀ a, 0 ≤ ((db.replay pre).account a).balance
  debit : ∀ pre a v, pre ++ [.subBalance a v] <+: db.opsTo db' →
    (db.replay pre).present a = true ∧ v ≤ ((db.replay pre).account a).balance

theorem CoveredTo.noOverdraft {env : Env} {db db' : StateDB} (h : CoveredTo env db db')
    (hdb : db.Solvent)
    (hsep : Along StateDB.perform (fun db _ => db.Separate env) db (db.opsTo db')) :
    NoOverdraft db db' := by
  refine ⟨h.replays, fun pre hpre => ?_, fun pre a v hpre => ?_⟩
  · obtain ⟨rest, hrest⟩ := hpre
    have hcovered := h.covered hsep
    rw [← hrest] at hcovered
    exact ((along_append.mp hcovered).1.invariant hdb fun _ _ hs hop => hs.perform hop).1
  · exact along_iff.mp (h.covered hsep) pre (.subBalance a v) hpre

/-- No run overdraws an account, whether it returns or panics. After the run no balance is negative;
nor is any before its end, and every debit is covered, if no account that has used up its nonces is
its own `CreateAddress`. -/
theorem start_noOverdraft {env : Env} {fuel : Nat} {evm evm' : Evm} {caller : ContractRef}
    {gas : UInt64} {e : Entry} (hprice : 0 ≤ env.gasPrice) (hsolvent : evm.stateDB.Solvent)
    (hvalue : 0 ≤ e.value caller)
    (h : (∃ r, e.start env fuel evm caller gas = .ok r ∧ evm' = r.evm) ∨
      e.start env fuel evm caller gas = .panic evm') :
    evm'.stateDB.Solvent ∧
      (Along StateDB.perform (fun db _ => db.Separate env) evm.stateDB
        (evm.stateDB.opsTo evm'.stateDB) → NoOverdraft evm.stateDB evm'.stateDB) := by
  have hrun := (covered_rule evm.stateDB hprice).start_leaves fuel gas (CoveredTo.refl hsolvent)
    fun _ => hvalue
  have hend : CoveredTo env evm.stateDB evm'.stateDB := by
    obtain ⟨r, hr, rfl⟩ | hpanic := h
    · exact (hrun.of_ok hr).state
    · exact (hrun.of_panic hpanic).state
  exact ⟨hend.solvent, hend.noOverdraft hsolvent⟩

/-- A contract that creates another one with a value of 3, and its caller's funds. -/
def endowingOps : List StateOp :=
  [.setCode 0x100 [0x60, 0, 0x60, 0, 0x60, 3, 0xf0], .addBalance 7 100]

def endowing : Evm := Evm.new (StateDB.new.replay endowingOps)

def endowingRun : Outcome Evm CreateResult :=
  (Entry.call 0x100 [] 10).start recursiveEnv 20 endowing (.account 7) 100000

/-- No account has used up its nonces before any operation of the run. -/
theorem endowingRun_returns : endowingRun.Returns fun r =>
    r.err = none ∧ (r.evm.stateDB.account 0).balance = 3 ∧
    (endowing.stateDB.opsTo r.evm.stateDB).all StateOp.leavesNonces = true := by
  decide +kernel

theorem endowing_solvent : endowing.stateDB.Solvent := by
  have hcovered : Along StateDB.perform (fun db op => op.Covered db) StateDB.new endowingOps :=
    ⟨trivial, show (0 : Int) ≤ 100 by decide, trivial⟩
  exact (hcovered.invariant (fun _ => Int.le_refl 0) fun _ _ hs hop => hs.perform hop).1

theorem start_noOverdraft_endowing : ∃ r, endowingRun = .ok r ∧
    (r.evm.stateDB.account 0).balance = 3 ∧ NoOverdraft endowing.stateDB r.evm.stateDB := by
  obtain ⟨r, hr, -, hbalance, hops⟩ := endowingRun_returns.exists
  have hvalue : 0 ≤ (Entry.call 0x100 [] 10).value (.account 7) := by decide
  have hprice : 0 ≤ recursiveEnv.gasPrice := by decide
  have hrun := start_noOverdraft hprice endowing_solvent hvalue (.inl ⟨r, hr, rfl⟩)
  have hleft : endowing.stateDB.NoncesLeft :=
    lasting_of_leavesNonces noncesLeft_new (by decide) _ List.prefix_rfl
  exact ⟨r, hr, hbalance, hrun.2 ((lasting_of_leavesNonces hleft hops).separate recursiveEnv)⟩

end MiniEvm
