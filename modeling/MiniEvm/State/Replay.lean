import MiniEvm.Framework.Added
import MiniEvm.Framework.Replay
import MiniEvm.State.Observation

namespace MiniEvm

open Framework

namespace StateOp

/-- The account an operation is about. -/
def target : StateOp → Option Address
  | createAccount a | subBalance a _ | addBalance a _ | getBalance a | setNonce a _ | setCode a _
  | getState a _ | setState a _ _ | suicide a | hasSuicided a => some a
  | addLog _ => none

/-- What an operation makes of the account it is about. -/
def update (present : Bool) (s : State) : StateOp → State
  | createAccount _ => State.new
  | subBalance _ v => if present then { s with balance := s.balance - v } else s
  | addBalance _ v => { s with balance := s.balance + v }
  | getBalance _ => { s with balance := s.balance + 100 }
  | setNonce _ n => { s with nonce := n }
  | setCode _ code => { s with code := code }
  | setState _ k v => { s with storage := fun x => if x = k then some v else s.storage x }
  | suicide _ => { s with isSuicide := true }
  | getState _ _ | hasSuicided _ | addLog _ => s

/-- The operations that leave an entry for the account they are about. -/
def enters : StateOp → Bool
  | subBalance _ _ | addLog _ => false
  | _ => true

end StateOp

namespace StateDB

/-- The effect of one recorded operation. -/
def perform (db : StateDB) : StateOp → StateDB
  | .createAccount a => db.createAccount a
  | .subBalance a v => db.subBalance a v
  | .addBalance a v => db.addBalance a v
  | .getBalance a => (db.getBalance a).2
  | .setNonce a n => db.setNonce a n
  | .setCode a code => db.setCode a code
  | .getState a k => (db.getState a k).2
  | .setState a k v => db.setState a k v
  | .suicide a => db.suicide a
  | .hasSuicided a => (db.hasSuicided a).2
  | .addLog l => db.addLog l

/-- Whether the account is in the map. -/
def present (db : StateDB) (a : Address) : Bool := (db.stateMap a).isSome

/-- An operation assigns the entry of the account it is about, or ignores it. -/
theorem perform_eq (db : StateDB) (op : StateOp) :
    db.perform op = (match op.target with
      | some a => if op.enters || db.present a then
          db.put a (op.update (db.present a) (db.account a)) else db
      | none => { db with logs := (db.perform op).logs }).record op := by
  cases op with
  | subBalance a v =>
    simp only [perform, subBalance, StateOp.target, StateOp.enters, StateOp.update, present]
    obtain hs | ⟨s, hs⟩ := Option.eq_none_or_eq_some (db.stateMap a)
    · simp [hs]
    · simp [hs, account_eq_of_stateMap hs]
  | addLog l => rfl
  | _ => rfl

theorem account_perform (db : StateDB) (op : StateOp) (x : Address) :
    (db.perform op).account x =
      if op.target = some x then op.update (db.present x) (db.account x) else db.account x := by
  rw [perform_eq, account_record]
  cases ht : op.target with
  | none => rfl
  | some a =>
    simp only [Option.some.injEq]
    by_cases hx : x = a
    · subst hx
      by_cases hin : (op.enters || db.present x) = true
      · simp [hin]
      · -- only a debit leaves no entry, and it does nothing to an absent account
        simp only [Bool.not_eq_true, Bool.or_eq_false_iff] at hin
        rw [if_neg (by simp [hin]), if_pos rfl]
        cases op with
        | subBalance y v => simp [StateOp.update, hin.2]
        | addLog l => rfl
        | _ => cases hin.1
    · rw [if_neg (Ne.symm hx)]
      split_ifs <;> simp [hx]

theorem present_perform (db : StateDB) (op : StateOp) (x : Address) :
    (db.perform op).present x = (db.present x || (op.enters && op.target = some x)) := by
  rw [perform_eq]
  cases ht : op.target with
  | none => simp [present, record]
  | some a =>
    simp only [Option.some.injEq]
    by_cases hx : x = a
    · subst hx
      cases he : op.enters <;> cases hp : db.present x <;> simp_all [present, record, put]
    · split_ifs <;> simp [present, record, put, hx, Ne.symm hx]

/-- The operations of a history, performed again. -/
def replay (db : StateDB) (ops : List StateOp) : StateDB := ops.foldl perform db

theorem replay_append (db : StateDB) (ops ops' : List StateOp) :
    db.replay (ops ++ ops') = (db.replay ops).replay ops' := List.foldl_append

theorem history_perform (db : StateDB) (op : StateOp) :
    (db.perform op).history = db.history ++ [op] := by
  cases op with
  | subBalance a v => exact db.history_subBalance a v
  | _ => rfl

theorem history_replay (db : StateDB) (ops : List StateOp) :
    (db.replay ops).history = db.history ++ ops := by
  induction ops generalizing db with
  | nil => simp [replay]
  | cons op ops ih => rw [replay, List.foldl_cons, ← replay, ih, history_perform, List.append_assoc,
      List.singleton_append]

/-- The operations between two states of one store. -/
def opsTo (db db' : StateDB) : List StateOp := added db.history db'.history

/-- The later state is what the operations recorded in between make of the earlier one. -/
def Replays (db db' : StateDB) : Prop := db' = db.replay (db.opsTo db')

theorem replays_replay (db : StateDB) (ops : List StateOp) :
    db.opsTo (db.replay ops) = ops ∧ Replays db (db.replay ops) := by
  have hops : db.opsTo (db.replay ops) = ops := by rw [opsTo, history_replay, added_append]
  exact ⟨hops, by rw [Replays, hops]⟩

namespace Replays

theorem of_ops {db db' : StateDB} (ops : List StateOp) (h : db' = db.replay ops) : Replays db db' :=
  h ▸ (db.replays_replay ops).2

theorem refl (db : StateDB) : Replays db db := of_ops [] rfl

theorem opsTo_trans {db db' db'' : StateDB} (h : Replays db db') (h' : Replays db' db'') :
    db.opsTo db'' = db.opsTo db' ++ db'.opsTo db'' := by
  have hp : db.history <+: db'.history := by
    rw [h, history_replay]
    exact List.prefix_append ..
  have hp' : db'.history <+: db''.history := by
    rw [h', history_replay]
    exact List.prefix_append ..
  exact added_trans hp hp'

theorem trans {db db' db'' : StateDB} (h : Replays db db') (h' : Replays db' db'') :
    Replays db db'' := by
  rw [Replays, opsTo_trans h h', replay_append, ← h]
  exact h'

/-- A property of all operations of two stretches is one of each stretch. -/
theorem along_trans {P : StateDB → StateOp → Prop} {db db' db'' : StateDB} (h : Replays db db')
    (h' : Replays db' db'') : Along perform P db (db.opsTo db'') ↔
      Along perform P db (db.opsTo db') ∧ Along perform P db' (db'.opsTo db'') := by
  rw [opsTo_trans h h', along_append, ← replay, ← h]

end Replays

end StateDB

end MiniEvm
