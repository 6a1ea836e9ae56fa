import MiniEvm.Detectors.ContractUtils
import MiniEvm.Framework.Added
import MiniEvm.Vm.Evolution

namespace MiniEvm

open Math Framework

def StateOp.reads (a : Address) : StateOp → Bool
  | getBalance b => b = a
  | _ => false

/-- What a read-only stretch may change: marker slots, and balances by the bonus of each read. -/
structure ReadOnlyChange (db db' : StateDB) : Prop where
  history : db.history <+: db'.history
  nonce : ∀ a, (db'.account a).nonce = (db.account a).nonce
  code : ∀ a, (db'.account a).code = (db.account a).code
  codeHash : ∀ a, (db'.account a).codeHash = (db.account a).codeHash
  isSuicide : ∀ a, (db'.account a).isSuicide = (db.account a).isSuicide
  logs : db'.logs = db.logs
  slot : ∀ a k, k ∉ markerSlots → db'.slot a k = db.slot a k
  balance : ∀ a, (db'.account a).balance =
    (db.account a).balance + 100 * ((added db.history db'.history).countP (StateOp.reads a) : Nat)

namespace ReadOnlyChange

theorem refl (db : StateDB) : ReadOnlyChange db db where
  history := List.prefix_rfl
  nonce _ := rfl
  code _ := rfl
  codeHash _ := rfl
  isSuicide _ := rfl
  logs := rfl
  slot _ _ _ := rfl
  balance a := by simp

theorem trans {db db' db'' : StateDB} (h : ReadOnlyChange db db') (h' : ReadOnlyChange db' db'') :
    ReadOnlyChange db db'' where
  history := h.history.trans h'.history
  nonce a := (h'.nonce a).trans (h.nonce a)
  code a := (h'.code a).trans (h.code a)
  codeHash a := (h'.codeHash a).trans (h.codeHash a)
  isSuicide a := (h'.isSuicide a).trans (h.isSuicide a)
  logs := h'.logs.trans h.logs
  slot a k hk := (h'.slot a k hk).trans (h.slot a k hk)
  balance a := by
    rw [h'.balance, h.balance, added_trans h.history h'.history, List.countP_append]
    push_cast
    ring

/-- An unobservable change that reads no balance. -/
theorem of_same {db db' : StateDB} {ops : List StateOp} (h : db.Same db')
    (hist : db'.history = db.history ++ ops) (hops : ∀ a, ops.countP (StateOp.reads a) = 0) :
    ReadOnlyChange db db' where
  history := ⟨ops, hist.symm⟩
  nonce := h.nonce
  code := h.code
  codeHash := h.codeHash
  isSuicide := h.isSuicide
  logs := h.logs
  slot a k _ := h.slot a k
  balance a := by rw [h.balance, hist, added_append, hops]; simp

theorem of_getBalance (db : StateDB) (a : Address) : ReadOnlyChange db (db.getBalance a).2 := by
  have hacc := db.account_getBalance a
  have hhist : (db.getBalance a).2.history = db.history ++ [.getBalance a] := rfl
  refine ⟨⟨_, hhist.symm⟩, ?_, ?_, ?_, ?_, rfl, ?_, ?_⟩
  case refine_5 =>
    intro x k _
    rw [StateDB.slot, hacc, StateDB.slot]
    split_ifs with hx <;> simp [hx]
  case refine_6 =>
    intro x
    rw [hacc, hhist, added_append]
    by_cases hx : x = a
    · simp [hx, StateOp.reads]
    · simp [hx, StateOp.reads, Ne.symm hx]
  all_goals
    intro x
    rw [hacc]
    split_ifs with hx <;> simp [hx]

theorem of_marker (db : StateDB) (a : Address) {k : Hash} (v : Hash) (hk : k ∈ markerSlots) :
    ReadOnlyChange db (db.setState a k v) := by
  have hacc := fun x => db.account_setState a x k v
  have hhist : (db.setState a k v).history = db.history ++ [.setState a k v] := rfl
  refine ⟨⟨_, hhist.symm⟩, ?_, ?_, ?_, ?_, rfl, ?_, ?_⟩
  case refine_5 =>
    intro x y hy
    have hne : y ≠ k := fun h => hy (h ▸ hk)
    rw [StateDB.slot, hacc, StateDB.slot]
    split_ifs with hx <;> simp [hx, hne]
  case refine_6 =>
    intro x
    rw [hacc, hhist, added_append]
    split_ifs with hx <;> simp [hx, StateOp.reads]
  all_goals
    intro x
    rw [hacc]
    split_ifs with hx <;> simp [hx]

theorem of_zero_transfer (db : StateDB) (a b : Address) : ReadOnlyChange db (transfer db a b 0) :=
  of_same ((db.subBalance_zero_same a).trans (StateDB.addBalance_zero_same _ b))
    (transfer_history db a b 0) (fun _ => rfl)

end ReadOnlyChange

/-- The instructions that the write protection lets through change nothing while gas is computed. -/
theorem OpCode.gasEffect_of_not_writes {op : OpCode} (h : (operation op).writes = false) (env : Env)
    (db : StateDB) (fr : Frame) : op.gasEffect env db fr = db := by
  unfold gasEffect
  split
  · cases h
  · cases h
  · rfl

theorem OpCode.effect_readOnly {op : OpCode} (h : (operation op).writes = false) (env : Env)
    (evm : Evm) (fr : Frame) :
    ReadOnlyChange evm.stateDB (op.effect env evm fr).stateDB := by
  unfold effect
  split
  case h_1 x st hst => exact .of_getBalance ..
  case h_2 x st hst => exact .of_same (evm.stateDB.getState_same ..) rfl (fun _ => rfl)
  case h_3 | h_4 | h_5 => cases h
  case h_6 =>
    split
    · rename_i key v hv
      unfold markOverflow
      split_ifs
      · exact .of_marker _ _ _ (exactResult_key hv)
      · exact .refl _
    · exact .refl _

/-- Inside the frames of a read-only machine nothing else happens, however they are nested. -/
theorem Evolves.readOnly {env : Env} {s : Site} {a b : Evm} (h : Evolves env s a b)
    (hb : env.isByzantium = true) (hs : ∃ c, s = .frame c) (hro : a.readOnly = true) :
    ReadOnlyChange a.stateDB b.stateDB := by
  have not_may : ∀ {s evm}, (∃ c, s = Site.frame c) → evm.readOnly = true →
      ¬ s.MayWrite env evm := by
    rintro s evm ⟨c, rfl⟩ hro may
    rw [may hb] at hro
    cases hro
  induction h with
  | refl => exact .refl _
  | trans hab hbc ih ih' => exact (ih hs hro).trans (ih' hs (hab.mode.2.trans hro))
  | @attempt evm evm' fr fr' op n ready charged =>
    have hw := (enforceRestrictions_eq_none ready.allowed hb hro).1
    have hdb := charged.stateDB
    rw [OpCode.gasEffect_of_not_writes hw, ite_self] at hdb
    rw [hdb]
    exact .refl _
  | @execute evm fr op n ready begun hc =>
    have hw := (enforceRestrictions_eq_none ready.allowed hb hro).1
    exact OpCode.effect_readOnly hw env (evm.executing fr op) fr
  | callInstruction => exact .refl _
  | output => exact .refl _
  | checkBalance => exact .of_getBalance ..
  | @pay s evm recipient value pass may can =>
    obtain ⟨c, rfl⟩ := hs
    obtain rfl : value = 0 := may hb hro
    exact (ReadOnlyChange.of_getBalance ..).trans (.of_zero_transfer ..)
  | failCreate value depth may => exact absurd may (not_may hs hro)
  | collide value depth may => exact absurd may (not_may hs hro)
  | create value depth may => exact absurd may (not_may hs hro)
  | enter => exact .refl _
  | run pass code inner ih => exact ih ⟨_, rfl⟩ hro
  | static outermost inner ih =>
    rw [outermost] at hro
    cases hro

/-- A static call changes nothing but marker slots and read balances, and keeps the mode: whatever
it calls, to any depth, and however it ends. -/
theorem staticCall_readOnly {env : Env} {n : Nat} {evm : Evm} {caller : ContractRef}
    {addr : Address} {input : Bytes} {gas : UInt64} {r : CallResult} (hb : env.isByzantium = true)
    (h : evm.staticCall env (interpreterRun env env.jumpTable n) caller addr input gas = .ok r) :
    ReadOnlyChange evm.stateDB r.evm.stateDB ∧ r.evm.readOnly = evm.readOnly := by
  let callee := Contract.new caller addr 0 gas
  obtain he | ⟨evm', inner, he⟩ :=
    staticCall_inner (interpreterRun_evolves env n) (.frame callee) h
  · rw [he]
    exact ⟨.refl _, rfl⟩
  · have hchange := inner.readOnly hb ⟨callee, rfl⟩ rfl
    have hmode := inner.mode.2
    cases hro : evm.readOnly with
    | false =>
      rw [he, hro]
      exact ⟨hchange, rfl⟩
    | true =>
      rw [he, hro]
      exact ⟨hchange, hmode⟩

/-- `SSTORE` in a contract that another one calls. -/
def storeThroughCall : StateDB :=
  (StateDB.new.setCode 0x100 [0x60, 0, 0x60, 0, 0x60, 0, 0x60, 0, 0x60, 0, 0x61, 2, 0, 0x5a, 0xf1,
    0x00]).setCode 0x200 [0x60, 1, 0x60, 0, 0x55]

def storeThroughCallRun : Outcome Evm CallResult :=
  (Evm.new storeThroughCall).staticCall recursiveEnv
    (interpreterRun recursiveEnv recursiveEnv.jumpTable 20) (.account 7) 0x100 [] 100000

theorem storeThroughCallRun_returns : storeThroughCallRun.Returns fun r => r.err = none := by
  decide +kernel

theorem staticCall_readOnly_storeThroughCall : ∃ r, storeThroughCallRun = .ok r ∧
    ReadOnlyChange (Evm.new storeThroughCall).stateDB r.evm.stateDB ∧
    r.evm.readOnly = (Evm.new storeThroughCall).readOnly := by
  obtain ⟨r, hr, -⟩ := storeThroughCallRun_returns.exists
  exact ⟨r, hr, staticCall_readOnly rfl hr⟩

end MiniEvm
