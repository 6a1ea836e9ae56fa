import MiniEvm.State.StateDB

namespace MiniEvm.StateDB

/-- The value of a storage slot, zero when it was never written. -/
def slot (db : StateDB) (a : Address) (k : Hash) : Hash := ((db.account a).storage k).getD 0

@[simp] theorem account_put (db : StateDB) (a x : Address) (s : State) :
    (db.put a s).account x = if x = a then s else db.account x := by
  simp only [account, put]
  split_ifs <;> rfl

@[simp] theorem account_record (db : StateDB) (op : StateOp) : (db.record op).account = db.account :=
  rfl

@[simp] theorem logs_put (db : StateDB) (a : Address) (s : State) : (db.put a s).logs = db.logs := rfl

@[simp] theorem logs_record (db : StateDB) (op : StateOp) : (db.record op).logs = db.logs := rfl

@[simp] theorem history_put (db : StateDB) (a : Address) (s : State) :
    (db.put a s).history = db.history := rfl

@[simp] theorem history_record (db : StateDB) (op : StateOp) :
    (db.record op).history = db.history ++ [op] := rfl

/-- The operations only append to the history. -/
theorem history_subBalance (db : StateDB) (a : Address) (v : Int) :
    (db.subBalance a v).history = db.history ++ [.subBalance a v] := by
  unfold subBalance
  split <;> rfl

theorem account_eq_of_stateMap {db : StateDB} {a : Address} {s : State} (h : db.stateMap a = some s) :
    db.account a = s := by
  simp [account, h]

theorem account_getBalance (db : StateDB) (a x : Address) : (db.getBalance a).2.account x =
    if x = a then { db.account a with balance := (db.account a).balance + 100 }
    else db.account x := by
  simp [getBalance]

theorem account_addBalance (db : StateDB) (a x : Address) (v : Int) : (db.addBalance a v).account x =
    if x = a then { db.account a with balance := (db.account a).balance + v }
    else db.account x := by
  simp [addBalance]

theorem account_setState (db : StateDB) (a x : Address) (k v : Hash) :
    (db.setState a k v).account x = if x = a then { db.account a with
      storage := fun y => if y = k then some v else (db.account a).storage y }
    else db.account x := by
  simp [setState]

/-- Equality of everything the queries of a `StateDB` can tell. -/
structure Same (db db' : StateDB) : Prop where
  balance : ∀ a, (db'.account a).balance = (db.account a).balance
  nonce : ∀ a, (db'.account a).nonce = (db.account a).nonce
  code : ∀ a, (db'.account a).code = (db.account a).code
  codeHash : ∀ a, (db'.account a).codeHash = (db.account a).codeHash
  isSuicide : ∀ a, (db'.account a).isSuicide = (db.account a).isSuicide
  slot : ∀ a k, db'.slot a k = db.slot a k
  logs : db'.logs = db.logs

namespace Same

theorem refl (db : StateDB) : Same db db :=
  ⟨fun _ => rfl, fun _ => rfl, fun _ => rfl, fun _ => rfl, fun _ => rfl, fun _ _ => rfl, rfl⟩

theorem trans {db db' db'' : StateDB} (h : Same db db') (h' : Same db' db'') : Same db db'' where
  balance a := (h'.balance a).trans (h.balance a)
  nonce a := (h'.nonce a).trans (h.nonce a)
  code a := (h'.code a).trans (h.code a)
  codeHash a := (h'.codeHash a).trans (h.codeHash a)
  isSuicide a := (h'.isSuicide a).trans (h.isSuicide a)
  slot a k := (h'.slot a k).trans (h.slot a k)
  logs := h'.logs.trans h.logs

theorem of_account {db db' : StateDB} (h : ∀ a, db'.account a = db.account a)
    (hl : db'.logs = db.logs) : Same db db' where
  balance a := by rw [h]
  nonce a := by rw [h]
  code a := by rw [h]
  codeHash a := by rw [h]
  isSuicide a := by rw [h]
  slot a k := by rw [StateDB.slot, StateDB.slot, h]
  logs := hl

end Same

theorem getState_same (db : StateDB) (a : Address) (k : Hash) : Same db (db.getState a k).2 := by
  apply Same.of_account
  · intro x
    simp only [getState, account_record, account_put]
    split_ifs with h <;> simp [h]
  · rfl

theorem hasSuicided_same (db : StateDB) (a : Address) : Same db (db.hasSuicided a).2 := by
  apply Same.of_account
  · intro x
    simp only [hasSuicided, account_record, account_put]
    split_ifs with h <;> simp [h]
  · rfl

/-- Storing the value that is already there is not observable. -/
theorem setState_same {db : StateDB} {a : Address} {k v : Hash} (h : db.slot a k = v) :
    Same db (db.setState a k v) := by
  refine ⟨?_, ?_, ?_, ?_, ?_, ?_, rfl⟩
  case refine_6 =>
    intro x y
    rw [slot, account_setState, slot]
    split_ifs with hx
    · subst hx
      by_cases hy : y = k
      · simp only [hy, if_true, Option.getD_some]
        exact h.symm
      · simp [hy]
    · rfl
  all_goals
    intro x
    rw [account_setState]
    split_ifs with hx <;> simp [hx]

theorem slot_setState (db : StateDB) (a x : Address) (k y v : Hash) :
    (db.setState a k v).slot x y = if x = a ∧ y = k then v else db.slot x y := by
  rw [slot, account_setState, slot]
  by_cases hx : x = a
  · by_cases hy : y = k <;> simp [hx, hy]
  · simp [hx]

/-- An operation that assigns an account with the storage it had. -/
theorem slot_of_storage {db db' : StateDB} (h : ∀ a, (db'.account a).storage = (db.account a).storage)
    (a : Address) (k : Hash) : db'.slot a k = db.slot a k := by
  rw [slot, slot, h]

@[simp] theorem slot_getBalance (db : StateDB) (a x : Address) (k : Hash) :
    (db.getBalance a).2.slot x k = db.slot x k := by
  refine slot_of_storage (fun y => ?_) x k
  rw [account_getBalance]
  split_ifs with h <;> simp [h]

@[simp] theorem slot_addBalance (db : StateDB) (a x : Address) (v : Int) (k : Hash) :
    (db.addBalance a v).slot x k = db.slot x k := by
  refine slot_of_storage (fun y => ?_) x k
  rw [account_addBalance]
  split_ifs with h <;> simp [h]

@[simp] theorem slot_subBalance (db : StateDB) (a x : Address) (v : Int) (k : Hash) :
    (db.subBalance a v).slot x k = db.slot x k := by
  refine slot_of_storage (fun y => ?_) x k
  unfold subBalance
  split
  · rfl
  · rename_i s hs
    simp only [account_record, account_put]
    split_ifs with h
    · rw [h, account_eq_of_stateMap hs]
    · rfl

@[simp] theorem slot_setNonce (db : StateDB) (a x : Address) (n : UInt64) (k : Hash) :
    (db.setNonce a n).slot x k = db.slot x k := by
  refine slot_of_storage (fun y => ?_) x k
  simp only [setNonce, account_record, account_put]
  split_ifs with h <;> simp [h]

@[simp] theorem slot_suicide (db : StateDB) (a x : Address) (k : Hash) :
    (db.suicide a).slot x k = db.slot x k := by
  refine slot_of_storage (fun y => ?_) x k
  simp only [suicide, account_record, account_put]
  split_ifs with h <;> simp [h]

@[simp] theorem slot_addLog (db : StateDB) (l : Log) (x : Address) (k : Hash) :
    (db.addLog l).slot x k = db.slot x k := rfl

theorem slot_createAccount {db : StateDB} {a x : Address} (h : x ≠ a) (k : Hash) :
    (db.createAccount a).slot x k = db.slot x k := by
  simp [slot, createAccount, h]

/-- Moving nothing is not observable. -/
theorem subBalance_zero_same (db : StateDB) (a : Address) : Same db (db.subBalance a 0) := by
  unfold subBalance
  split
  · exact .of_account (fun _ => rfl) rfl
  · rename_i s hs
    refine .of_account (fun x => ?_) rfl
    simp only [account_record, account_put]
    split_ifs with hx
    · rw [hx, account_eq_of_stateMap hs, Int.sub_zero]
    · rfl

theorem addBalance_zero_same (db : StateDB) (a : Address) : Same db (db.addBalance a 0) := by
  refine .of_account (fun x => ?_) rfl
  rw [account_addBalance]
  split_ifs with hx
  · rw [hx, Int.add_zero]
  · rfl

theorem canTransfer_code (db : StateDB) (a x : Address) (v : Int) :
    (canTransfer db a v).2.getCode x = db.getCode x := by
  rw [canTransfer, getCode, account_getBalance]
  split_ifs with hx <;> simp [getCode, hx]

/-- A value of zero moves nothing, and the check before it only gives the caller its bonus. -/
theorem transfer_zero_code (db : StateDB) (a b x : Address) :
    (transfer (canTransfer db a 0).2 a b 0).getCode x = db.getCode x := by
  have hsame := ((canTransfer db a 0).2.subBalance_zero_same a).trans (addBalance_zero_same _ b)
  exact (hsame.code x).trans (canTransfer_code db a x 0)

end MiniEvm.StateDB
