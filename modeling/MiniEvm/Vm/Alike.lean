import MiniEvm.State.Replay
import MiniEvm.Vm.Plain

namespace MiniEvm

open Math Framework

/-! ## Stores that differ in the marker slots -/

/-- An account without its marker slots. -/
def State.unmarked (s : State) : State :=
  { s with storage := fun k => if markerSlots.contains k then none else s.storage k }

/-- Stores that agree outside of the marker slots; which accounts are in the map may differ. -/
structure StateDB.Alike (db db' : StateDB) : Prop where
  account : ∀ a, (db.account a).unmarked = (db'.account a).unmarked
  logs : db.logs = db'.logs

theorem State.unmarked_storage (s : State) {k : Hash} (hk : k ∉ markerSlots) :
    s.unmarked.storage k = s.storage k := by
  have hcontains : ¬markerSlots.contains k = true := by
    rw [List.contains_iff_mem]
    exact hk
  exact if_neg hcontains

/-- Every operation can be done before or after the marker slots are dropped. -/
theorem State.unmarked_update (op : StateOp) (present : Bool) (s : State) :
    (op.update present s.unmarked).unmarked = (op.update present s).unmarked := by
  have hidem : s.unmarked.unmarked = s.unmarked := by
    simp only [unmarked, State.mk.injEq, true_and]
    funext k
    split_ifs <;> rfl
  cases op with
  | createAccount a => rfl
  | subBalance a v =>
    cases present
    · exact hidem
    · exact congrArg (fun t : State => { t with balance := s.balance - v }) hidem
  | addBalance a v => exact congrArg (fun t : State => { t with balance := s.balance + v }) hidem
  | getBalance a => exact congrArg (fun t : State => { t with balance := s.balance + 100 }) hidem
  | setNonce a n => exact congrArg (fun t : State => { t with nonce := n }) hidem
  | setCode a code => exact congrArg (fun t : State => { t with code := code }) hidem
  | suicide a => exact congrArg (fun t : State => { t with isSuicide := true }) hidem
  | getState | hasSuicided | addLog => exact hidem
  | setState a k v =>
    simp only [StateOp.update, unmarked, State.mk.injEq, true_and]
    funext x
    split_ifs <;> rfl

theorem StateDB.logs_subBalance (db : StateDB) (a : Address) (v : Int) :
    (db.subBalance a v).logs = db.logs := by
  unfold subBalance
  split <;> rfl

namespace StateDB.Alike

variable {db db' : StateDB}

theorem refl (db : StateDB) : db.Alike db := ⟨fun _ => rfl, rfl⟩

theorem symm (h : db.Alike db') : db'.Alike db := ⟨fun a => (h.account a).symm, h.logs.symm⟩

theorem trans {db'' : StateDB} (h : db.Alike db') (h' : db'.Alike db'') : db.Alike db'' :=
  ⟨fun a => (h.account a).trans (h'.account a), h.logs.trans h'.logs⟩

/-- What does not depend on the storage. -/
theorem field {α : Type} (f : State → α) (hf : ∀ s : State, f s.unmarked = f s) (h : db.Alike db')
    (a : Address) : f (db.account a) = f (db'.account a) := by
  rw [← hf, h.account, hf]

theorem balance (h : db.Alike db') (a : Address) : (db.account a).balance = (db'.account a).balance :=
  h.field State.balance (fun _ => rfl) a

theorem nonce (h : db.Alike db') (a : Address) : db.getNonce a = db'.getNonce a :=
  h.field State.nonce (fun _ => rfl) a

theorem code (h : db.Alike db') (a : Address) : db.getCode a = db'.getCode a :=
  h.field State.code (fun _ => rfl) a

theorem codeHash (h : db.Alike db') (a : Address) : db.getCodeHash a = db'.getCodeHash a :=
  h.field State.codeHash (fun _ => rfl) a

theorem storage (h : db.Alike db') (a : Address) {k : Hash} (hk : k ∉ markerSlots) :
    (db.account a).storage k = (db'.account a).storage k := by
  rw [← State.unmarked_storage _ hk, ← State.unmarked_storage (db'.account a) hk, h.account]

/-- The same operation on both; a debit does nothing to an absent account. -/
theorem perform (h : db.Alike db') (op : StateOp)
    (hpresent : ∀ a, op.target = some a → op.enters = false → db.present a = db'.present a) :
    (db.perform op).Alike (db'.perform op) := by
  constructor
  · intro x
    rw [account_perform, account_perform]
    split_ifs with ht
    · have hupdate : ∀ s, (op.update (db.present x) s).unmarked =
          (op.update (db'.present x) s).unmarked := by
        intro s
        cases op with
        | subBalance a v => rw [hpresent x ht rfl]
        | _ => rfl
      rw [hupdate, ← State.unmarked_update, h.account, State.unmarked_update]
    · exact h.account x
  · cases op with
    | addLog l =>
      show db.logs ++ [l] = db'.logs ++ [l]
      rw [h.logs]
    | subBalance a v =>
      show (db.subBalance a v).logs = (db'.subBalance a v).logs
      rw [logs_subBalance, logs_subBalance, h.logs]
    | _ => exact h.logs

/-- An operation that enters an account, or adds a log. -/
theorem enter (h : db.Alike db') (op : StateOp) (hop : op.enters = true) :
    (db.perform op).Alike (db'.perform op) :=
  h.perform op fun _ _ hno => by rw [hop] at hno; cases hno

/-- The balance that a query finds, and what it leaves. -/
theorem getBalance (h : db.Alike db') (a : Address) :
    (db.getBalance a).1 = (db'.getBalance a).1 ∧ (db.getBalance a).2.Alike (db'.getBalance a).2 := by
  refine ⟨?_, h.enter (.getBalance a) rfl⟩
  show (db.account a).balance + 100 = (db'.account a).balance + 100
  rw [h.balance]

theorem canTransfer (h : db.Alike db') (a : Address) (v : Int) :
    (canTransfer db a v).1 = (canTransfer db' a v).1 ∧
      (canTransfer db a v).2.Alike (canTransfer db' a v).2 := by
  obtain ⟨hbalance, hdb⟩ := h.getBalance a
  refine ⟨?_, hdb⟩
  show decide ((db.getBalance a).1 ≥ v) = decide ((db'.getBalance a).1 ≥ v)
  rw [hbalance]

/-- A transfer from an account that is in both maps. -/
theorem transfer (h : db.Alike db') {a : Address} (hp : db.present a = true)
    (hp' : db'.present a = true)
    (b : Address) (v : Int) : (transfer db a b v).Alike (transfer db' a b v) := by
  have hsub : (db.perform (.subBalance a v)).Alike (db'.perform (.subBalance a v)) := by
    refine h.perform _ ?_
    rintro _ ⟨⟩ _
    rw [hp, hp']
  exact hsub.enter (.addBalance b v) rfl

theorem raiseNonce (h : db.Alike db') (a : Address) : (db.raiseNonce a).Alike (db'.raiseNonce a) := by
  unfold StateDB.raiseNonce
  rw [h.nonce]
  exact h.enter (.setNonce a _) rfl

/-- A mark is invisible. -/
theorem mark (h : db.Alike db') (a : Address) {k : Hash} (hk : k ∈ markerSlots) (v : Hash) :
    (db.setState a k v).Alike db' := by
  refine ⟨?_, h.logs⟩
  intro x
  rw [account_setState]
  split_ifs with hx
  · subst hx
    rw [← h.account]
    simp only [State.unmarked, State.mk.injEq, true_and]
    funext y
    split_ifs with hy heq
    · rfl
    · rw [List.contains_iff_mem, heq] at hy
      exact absurd hk hy
    · rfl
  · exact h.account x

end StateDB.Alike

theorem present_canTransfer (db : StateDB) (a : Address) (v : Int) :
    (canTransfer db a v).2.present a = true := by
  have h := db.present_perform (.getBalance a) a
  rw [show (canTransfer db a v).2 = db.perform (.getBalance a) from rfl, h]
  simp [StateOp.enters, StateOp.target]

/-! ## Machines that differ in the marker slots -/

/-- Everything but the store is equal. -/
structure World.Alike (w w' : World) : Prop where
  stateDB : w.stateDB.Alike w'.stateDB
  depth : w.depth = w'.depth
  readOnly : w.readOnly = w'.readOnly
  returnData : w.returnData = w'.returnData
  callGasTemp : w.callGasTemp = w'.callGasTemp
  abort : w.abort = w'.abort

/-- The same instruction in the same frame, at alike machines. -/
inductive Event.Alike : Event → Event → Prop
  | attempt {w w' : World} (fr : Frame) (op : OpCode) (h : w.Alike w') :
      Event.Alike (.attempt w fr op) (.attempt w' fr op)
  | exec {w w' : World} (fr : Frame) (op : OpCode) (h : w.Alike w') :
      Event.Alike (.exec w fr op) (.exec w' fr op)
  | callback (site : OpCode) (loc : Hash) (val : Int) :
      Event.Alike (.callback site loc val) (.callback site loc val)
  | enter (depth : Nat) (c : Contract) (input : Bytes) :
      Event.Alike (.enter depth c input) (.enter depth c input)

structure Evm.Alike (a b : Evm) : Prop where
  world : a.toWorld.Alike b.toWorld
  trace : List.Forall₂ Event.Alike a.trace b.trace

theorem World.Alike.refl (w : World) : w.Alike w := ⟨.refl _, rfl, rfl, rfl, rfl, rfl⟩

theorem Event.Alike.refl (e : Event) : e.Alike e := by
  cases e with
  | attempt w fr op => exact .attempt fr op (.refl w)
  | exec w fr op => exact .exec fr op (.refl w)
  | callback site loc val => exact .callback site loc val
  | enter depth c input => exact .enter depth c input

namespace Evm.Alike

variable {a b : Evm}

theorem refl (a : Evm) : a.Alike a := ⟨.refl _, List.forall₂_same.mpr fun e _ => .refl e⟩

theorem stateDB (h : a.Alike b) : a.stateDB.Alike b.stateDB := h.world.stateDB

theorem withDB (h : a.Alike b) {db db' : StateDB} (hdb : db.Alike db') :
    Evm.Alike { a with stateDB := db } { b with stateDB := db' } :=
  ⟨⟨hdb, h.world.depth, h.world.readOnly, h.world.returnData, h.world.callGasTemp, h.world.abort⟩,
    h.trace⟩

theorem emit (h : a.Alike b) {e e' : Event} (he : e.Alike e') : (a.emit e).Alike (b.emit e') :=
  ⟨h.world, List.rel_append h.trace (.cons he .nil)⟩

theorem attempting (h : a.Alike b) (fr : Frame) (op : OpCode) :
    (a.attempting fr op).Alike (b.attempting fr op) :=
  h.emit (.attempt fr op h.world)

theorem executing (h : a.Alike b) (fr : Frame) (op : OpCode) :
    (a.executing fr op).Alike (b.executing fr op) :=
  h.emit (.exec fr op h.world)

end Evm.Alike

end MiniEvm
