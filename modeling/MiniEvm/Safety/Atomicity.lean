import MiniEvm.Detectors.ContractUtils
import MiniEvm.Framework.Added
import MiniEvm.Vm.Evolution

namespace MiniEvm

open Math Framework

/-- A failed invocation leaves no trace in the state; `Create` may have raised the nonce of the
creator. -/
def FailsAtomically (e : Entry) (caller : Address) (before : StateDB) (r : CreateResult) : Prop :=
  r.err ≠ none → before.Same r.evm.stateDB ∨
    ∃ code value, e = .create code value ∧ (before.raiseNonce caller).Same r.evm.stateDB

def StateOp.isBalanceRead : StateOp → Bool
  | getBalance _ => true
  | _ => false

/-- The step logs nothing, stores only what the slot already holds, and its arithmetic does not
overflow. -/
def Event.quiet : Event → Bool
  | exec w fr op =>
    !op.isLog &&
    ((op.stored fr.stack).all fun s => w.stateDB.slot fr.contract.self s.1 = s.2) &&
    ((op.exactResult fr.stack).all fun r => r.2 = u256 r.2)
  | _ => true

/-- Between the two moments no balance was read and every step was quiet. -/
def Quiet (a b : Evm) : Prop :=
  (∀ op ∈ added a.stateDB.history b.stateDB.history, op.isBalanceRead = false) ∧
  (∀ e ∈ added a.trace b.trace, e.quiet = true)

instance (a b : Evm) : Decidable (Quiet a b) := inferInstanceAs (Decidable (_ ∧ _))

namespace Quiet

/-- A quiet stretch consists of quiet stretches. -/
theorem split {a b c : Evm} (hab : a.Grows b) (hbc : b.Grows c) (h : Quiet a c) :
    Quiet a b ∧ Quiet b c := by
  unfold Quiet at h
  rw [added_trans hab.history hbc.history, added_trans hab.trace hbc.trace] at h
  simp only [List.mem_append, or_imp, forall_and] at h
  exact ⟨⟨h.1.1, h.2.1⟩, ⟨h.1.2, h.2.2⟩⟩

/-- A balance read is not quiet. -/
theorem not_of_read {a b : Evm} (addr : Address)
    (h : a.stateDB.history ++ [.getBalance addr] <+: b.stateDB.history) : ¬ Quiet a b := by
  intro hq
  obtain ⟨ops, hops⟩ := h
  have hr := hq.1 (.getBalance addr) (by rw [← hops]; simp)
  cases hr

theorem of_trace_eq {a b : Evm} {e : Event} (ht : b.trace = a.trace ++ [e]) (h : Quiet a b) :
    e.quiet = true := h.2 e (by simp [ht])

end Quiet

theorem OpCode.gasEffect_same {op : OpCode} {env : Env} {db : StateDB} {fr : Frame}
    (h : ∀ o ∈ added db.history (op.gasEffect env db fr).history, o.isBalanceRead = false) :
    db.Same (op.gasEffect env db fr) := by
  unfold gasEffect at h ⊢
  split at h
  · exact db.getState_same ..
  · split_ifs at h ⊢
    · have hr := h (.getBalance fr.contract.self) (by simp [StateDB.hasSuicided, StateDB.getBalance])
      cases hr
    · exact db.hasSuicided_same _
  · exact .refl _

/-- A quiet step that reads no balance is not observable in the state. -/
theorem OpCode.effect_same (op : OpCode) (env : Env) (evm : Evm) (fr : Frame) {w : World}
    (hw : w = evm.toWorld) (hq : (Event.exec w fr op).quiet = true)
    (h : ∀ o ∈ added evm.stateDB.history (op.effect env evm fr).stateDB.history,
      o.isBalanceRead = false) : evm.stateDB.Same (op.effect env evm fr).stateDB := by
  subst hw
  simp only [Event.quiet, Bool.and_eq_true, Bool.not_eq_true', Option.all_eq_true,
    decide_eq_true_eq] at hq
  obtain ⟨⟨hlog, hstored⟩, hexact⟩ := hq
  unfold effect at h ⊢
  split at h
  case h_1 x st hst =>
    have hr := h (.getBalance (bigToAddress x)) (by simp [StateDB.getBalance])
    cases hr
  case h_2 x st hst => exact evm.stateDB.getState_same ..
  case h_3 x val st hst =>
    exact StateDB.setState_same (hstored (bigToHash x, bigToHash val) (by simp [stored, hst]))
  case h_4 x st hst =>
    have hr := h (.getBalance fr.contract.self)
      (by simp [StateDB.getBalance, StateDB.addBalance, StateDB.suicide])
    cases hr
  case h_5 n mStart mSize st hst => cases hlog
  case h_6 =>
    split
    · rename_i key v hv
      rw [markOverflow, if_neg (not_not.mpr (hexact _ hv))]
      exact .refl _
    · exact .refl _

/-- A call tree whose steps are quiet and read no balance is not observable in the state. -/
theorem Evolves.same {env : Env} {s : Site} {a b : Evm} (h : Evolves env s a b) (hq : Quiet a b) :
    a.stateDB.Same b.stateDB := by
  induction h with
  | refl => exact .refl _
  | trans hab hbc ih ih' =>
    obtain ⟨h1, h2⟩ := hq.split hab.grows hbc.grows
    exact (ih h1).trans (ih' h2)
  | @attempt evm evm' fr fr' op n ready charged =>
    have hdb := charged.stateDB
    split_ifs at hdb
    · rw [hdb]
      exact .refl _
    · have hread := hq.1
      rw [hdb] at hread ⊢
      exact OpCode.gasEffect_same hread
  | @execute evm fr op n ready begun hc =>
    have hgrows := op.effect_grows env (evm.executing fr op) fr
    obtain ⟨h1, h2⟩ := hq.split (Evm.Grows.emit ..) hgrows
    exact op.effect_same env (evm.executing fr op) fr rfl (h1.of_trace_eq rfl) h2.1
  | callInstruction => exact .refl _
  | output => exact .refl _
  | @checkBalance s => exact absurd hq (Quiet.not_of_read s.address List.prefix_rfl)
  | @pay s =>
    refine absurd hq (Quiet.not_of_read s.address ?_)
    simp [transfer_history, canTransfer_history]
  | @failCreate s => exact absurd hq (Quiet.not_of_read s.address List.prefix_rfl)
  | @collide s =>
    exact absurd hq (Quiet.not_of_read s.address (List.prefix_append ..))
  | @create s evm evm' evm'' db addr value depth may can hdb haddr free inner stored ih =>
    -- the balance of the creator is read before anything else happens
    refine absurd hq (Quiet.not_of_read s.address ?_)
    have hnew : evm.stateDB.history ++ [.getBalance s.address] <+: evm'.stateDB.history := by
      refine List.IsPrefix.trans ?_ inner.grows.history
      refine List.IsPrefix.trans ?_ (newAccount_history ..)
      rw [hdb]
      exact List.prefix_append ..
    obtain rfl | ⟨-, code, rfl⟩ := stored
    · exact hnew
    · exact hnew.trans (List.prefix_append ..)
  | enter => exact .refl _
  | run pass code inner ih => exact ih hq
  | static outermost inner ih => exact ih hq

/-- Since nothing is ever rolled back, a failed invocation leaves the state alone when nothing it
ran was observable: at top level and inside any frame, through any of the entry points. -/
theorem failsAtomically_of_quiet {env : Env} {n : Nat} {e : Entry} {evm : Evm}
    {caller : ContractRef} {gas : UInt64} {r : CreateResult}
    (h : e.start env n evm caller gas = .ok r) (hq : Quiet evm r.evm) :
    FailsAtomically e caller.address evm.stateDB r := by
  intro _
  have hs : Site.Is (.entry caller) caller := rfl
  have allowed : e.Allowed env evm (.entry caller) := by
    cases e <;> trivial
  exact .inl ((invoke_evolves (interpreterRun_evolves env n) hs allowed h).same hq)

/-- `PUSH1 0 SLOAD` and an undefined opcode, called statically: it fails and nothing has changed. -/
theorem failsAtomically_of_quiet_sload :
    ∃ r, (Entry.staticCall 0x100 []).start sampleEnv 5
        (Evm.new (StateDB.new.setCode 0x100 [0x60, 0, 0x54, 0xfe])) (.account 7) 1000 = .ok r ∧
      r.err = some (.invalidOpcode 0xfe) ∧
      FailsAtomically (.staticCall 0x100 []) 7 (StateDB.new.setCode 0x100 [0x60, 0, 0x54, 0xfe]) r := by
  have hrun : ((Entry.staticCall 0x100 []).start sampleEnv 5
      (Evm.new (StateDB.new.setCode 0x100 [0x60, 0, 0x54, 0xfe])) (.account 7) 1000).Returns fun r =>
        r.err = some (.invalidOpcode 0xfe) ∧
        Quiet (Evm.new (StateDB.new.setCode 0x100 [0x60, 0, 0x54, 0xfe])) r.evm := by
    decide +kernel
  obtain ⟨r, hr, herr, hq⟩ := hrun.exists
  exact ⟨r, hr, herr, failsAtomically_of_quiet hr hq⟩

/-- `PUSH1 1 PUSH1 0 SSTORE PUSH1 0 PUSH1 0 REVERT`. -/
def storeAndRevert : Bytes := [0x60, 1, 0x60, 0, 0x55, 0x60, 0, 0x60, 0, 0xfd]

/-- The stored word is still there after the call was reverted. -/
theorem storeAndRevert_not_undone :
    ∃ r, (Entry.call 0x100 [] 0).start sampleEnv 9
        (Evm.new (StateDB.new.setCode 0x100 storeAndRevert)) (.account 7) 100000 = .ok r ∧
      r.err = some .executionReverted ∧
      ¬ FailsAtomically (.call 0x100 [] 0) 7 (StateDB.new.setCode 0x100 storeAndRevert) r := by
  have hrun : ((Entry.call 0x100 [] 0).start sampleEnv 9
      (Evm.new (StateDB.new.setCode 0x100 storeAndRevert)) (.account 7) 100000).Returns fun r =>
        r.err = some .executionReverted ∧ r.evm.stateDB.slot 0x100 0 = 1 := by
    decide +kernel
  obtain ⟨r, hr, herr, hslot⟩ := hrun.exists
  refine ⟨r, hr, herr, fun hf => ?_⟩
  obtain hs | ⟨_, _, he, -⟩ := hf (by simp [herr])
  · have h0 := hs.slot 0x100 0
    rw [hslot] at h0
    revert h0
    decide
  · cases he

end MiniEvm
