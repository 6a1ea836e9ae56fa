import MiniEvm.Vm.History

namespace MiniEvm

open Math Framework StateDB

namespace StateOp

/-- The operations that create or write the account. -/
def writes (a : Address) : StateOp → Bool
  | createAccount x | subBalance x _ | addBalance x _ | setNonce x _ | setCode x _ | setState x _ _
  | suicide x => x == a
  | getBalance _ | getState _ _ | hasSuicided _ | addLog _ => false

end StateOp

/-- What a history says about one account. `ledger` is what the queries are meant to report; the
other fields record where the store departs from it. -/
structure Books where
  /-- The credits minus the debits since the last `CreateAccount`. -/
  ledger : Int
  /-- The balance queries since then. -/
  asked : Nat
  /-- The debits made while the account was absent. -/
  ignored : Int
  present : Bool

namespace Books

def new : Books := ⟨0, 0, 0, false⟩

/-- An operation about the account. -/
def update (b : Books) : StateOp → Books
  | .createAccount _ => ⟨0, 0, 0, true⟩
  | .subBalance _ v =>
    { b with ledger := b.ledger - v, ignored := if b.present then b.ignored else b.ignored + v }
  | .addBalance _ v => { b with ledger := b.ledger + v, present := true }
  | .getBalance _ => { b with asked := b.asked + 1, present := true }
  | _ => { b with present := true }

def enter (a : Address) (b : Books) (op : StateOp) : Books :=
  if op.target = some a then b.update op else b

def of (a : Address) (ops : List StateOp) : Books := ops.foldl (enter a) new

theorem of_append_singleton (a : Address) (ops : List StateOp) (op : StateOp) :
    of a (ops ++ [op]) = (of a ops).enter a op := by
  rw [of, List.foldl_append]
  rfl

/-- The books of an account and its entry in the store. -/
structure Match (a : Address) (b : Books) (db : StateDB) : Prop where
  present : b.present = db.present a
  balance : (db.account a).balance = b.ledger + 100 * b.asked + b.ignored

theorem Match.perform {a : Address} {b : Books} {db : StateDB} (h : Match a b db) (op : StateOp) :
    Match a (b.enter a op) (db.perform op) := by
  have hb := h.balance
  unfold enter
  split_ifs with ht
  · constructor
    · rw [present_perform, ← h.present]
      cases op with
      | addLog l => cases ht
      | _ => simp [update, StateOp.enters, ht]
    · rw [account_perform, ← h.present, if_pos ht]
      cases op with
      | subBalance x v =>
        cases hp : b.present <;>
          simp only [StateOp.update, update, hp, if_true, Bool.false_eq_true, if_false] <;> omega
      | createAccount x | addBalance x v | getBalance x =>
        simp only [StateOp.update, update, State.new]
        omega
      | _ => exact hb
  · exact ⟨by simp [present_perform, ht, h.present], by rw [account_perform, if_neg ht, hb]⟩

/-- The books of every account match the store after any sequence of operations. -/
theorem match_replay (a : Address) (ops : List StateOp) :
    Match a (of a ops) (StateDB.new.replay ops) := by
  induction ops using List.reverseRecOn with
  | nil => exact ⟨rfl, rfl⟩
  | append_singleton ops op ih =>
    rw [of_append_singleton, replay_append]
    exact ih.perform op

end Books

/-- Asking for a balance, in one of the three ways the program does it. -/
inductive Asks (a : Address) (db : StateDB) : StateDB → Prop
  | getBalance : Asks a db (db.getBalance a).2
  | canTransfer (amount : Int) : Asks a db (canTransfer db a amount).2
  | instruction {env : Env} {evm : Evm} {fr : Frame} {x : Int} {st : Stack}
      (hst : fr.stack = x :: st) (ha : bigToAddress x = a) (hdb : evm.stateDB = db) :
      Asks a db (OpCode.BALANCE.effect env evm fr).stateDB

/-- Any number of balance queries about one account. -/
inductive AsksTimes (a : Address) : Nat → StateDB → StateDB → Prop
  | zero (db : StateDB) : AsksTimes a 0 db db
  | succ {n : Nat} {db db' db'' : StateDB} : Asks a db db' → AsksTimes a n db' db'' →
      AsksTimes a (n + 1) db db''

theorem Asks.eq {a : Address} {db db' : StateDB} (h : Asks a db db') : db' = (db.getBalance a).2 := by
  cases h with
  | getBalance | canTransfer => rfl
  | instruction hst ha hdb =>
    simp only [OpCode.effect, hst]
    rw [ha, hdb]

theorem AsksTimes.balance {a : Address} {n : Nat} {db db' : StateDB} (h : AsksTimes a n db db')
    (x : Address) :
    (db'.account x).balance = (db.account x).balance + if x = a then 100 * n else 0 := by
  induction h with
  | zero => simp
  | @succ n db db' db'' ask _ ih =>
    rw [ih, ask.eq, account_getBalance]
    split_ifs with hx
    · subst hx
      push_cast
      ring
    · simp

/-- A question about the store that a history leads to. -/
inductive Query where
  | balance (a : Address)
  /-- The balance of `a` once that of `b` was asked for `n` times. -/
  | balanceAfter (a b : Address) (n : Nat)
  | codeHash (a : Address)
  | exist (a : Address)
  | empty (a : Address)

namespace Query

/-- The store answers as `vm.StateDB` documents. -/
def Right (crypto : Crypto) (ops : List StateOp) : Query → Prop
  | balance a => ((StateDB.new.replay ops).getBalance a).1 = (Books.of a ops).ledger
  | balanceAfter a b n => ∀ db, AsksTimes b n (StateDB.new.replay ops) db →
      (db.getBalance a).1 = ((StateDB.new.replay ops).getBalance a).1
  | codeHash a => (StateDB.new.replay ops).getCode a ≠ [] →
      (StateDB.new.replay ops).getCodeHash a =
        crypto.keccak256 ((StateDB.new.replay ops).getCode a)
  | exist a => (StateDB.new.replay ops).exist a = true ↔ ∃ op ∈ ops, op.writes a = true
  | empty a => (StateDB.new.replay ops).empty a = true ↔
      ((StateDB.new.replay ops).account a).balance = 0 ∧ (StateDB.new.replay ops).getNonce a = 0 ∧
        (StateDB.new.replay ops).getCode a = []

/-- The histories after which the answer is right. -/
def Fine (crypto : Crypto) (ops : List StateOp) : Query → Prop
  | balance a => 100 * ((Books.of a ops).asked + 1) + (Books.of a ops).ignored = 0
  | balanceAfter a b n => n = 0 ∨ b ≠ a
  | codeHash a => (StateDB.new.replay ops).getCode a = [] ∨
      crypto.keccak256 ((StateDB.new.replay ops).getCode a) = 0
  | exist a => ∃ op ∈ ops, op.writes a = true
  | empty a => ((StateDB.new.replay ops).account a).balance = 0 ∧
      (StateDB.new.replay ops).getNonce a = 0 ∧ (StateDB.new.replay ops).getCode a = []

end Query

/-- No operation ever assigns a code hash. -/
theorem codeHash_perform {db : StateDB} (h : ∀ a, db.getCodeHash a = 0) (op : StateOp) (a : Address) :
    (db.perform op).getCodeHash a = 0 := by
  rw [getCodeHash, account_perform]
  split_ifs with ht
  · cases op with
    | createAccount x => rfl
    | subBalance x v =>
      simp only [StateOp.update]
      split_ifs <;> exact h a
    | _ => exact h a
  · exact h a

theorem codeHash_replay (ops : List StateOp) (a : Address) :
    (StateDB.new.replay ops).getCodeHash a = 0 := by
  have hall : ∀ db : StateDB, (∀ a, db.getCodeHash a = 0) → (db.replay ops).getCodeHash a = 0 := by
    induction ops with
    | nil => exact fun db h => h a
    | cons op ops ih => exact fun db h => ih _ (codeHash_perform h op)
  exact hall _ fun _ => rfl

/-- Every balance query is answered with 100 more for each query since the account was created, no
code hash is ever known, and every account is said to exist and to be empty. -/
theorem query_right_iff (crypto : Crypto) (ops : List StateOp) (q : Query) :
    q.Right crypto ops ↔ q.Fine crypto ops := by
  cases q with
  | balance a =>
    have hb := (Books.match_replay a ops).balance
    have hanswer : ((StateDB.new.replay ops).getBalance a).1 =
      ((StateDB.new.replay ops).account a).balance + 100 := rfl
    simp only [Query.Right, Query.Fine, hanswer]
    omega
  | balanceAfter a b n =>
    have hanswer : ∀ db : StateDB, (db.getBalance a).1 = (db.account a).balance + 100 := fun _ => rfl
    simp only [Query.Right, Query.Fine, hanswer]
    constructor
    · intro h
      by_contra hne
      obtain ⟨hn, rfl⟩ : n ≠ 0 ∧ b = a := by tauto
      -- asking through `GetBalance` alone already shows it
      obtain ⟨db, hdb⟩ : ∃ db, AsksTimes b n (StateDB.new.replay ops) db := by
        generalize StateDB.new.replay ops = db₀
        clear h hn hanswer hne
        induction n generalizing db₀ with
        | zero => exact ⟨db₀, .zero db₀⟩
        | succ n ih =>
          obtain ⟨db, hdb⟩ := ih (db₀.getBalance b).2
          exact ⟨db, .succ .getBalance hdb⟩
      have hbal := hdb.balance b
      have hsame := h db hdb
      rw [if_pos rfl] at hbal
      omega
    · intro hfine db hdb
      rw [hdb.balance a]
      obtain rfl | hne := hfine
      · simp
      · simp [Ne.symm hne]
  | codeHash a =>
    simp only [Query.Right, Query.Fine, codeHash_replay]
    rw [or_iff_not_imp_left]
    exact ⟨fun h hcode => (h hcode).symm, fun h hcode => (h hcode).symm⟩
  | exist a => simp [Query.Right, Query.Fine, StateDB.exist]
  | empty a => simp [Query.Right, Query.Fine, StateDB.empty]

/-- After one credit of 5 the balance is reported as 105, the account as empty, and an account that
was never mentioned as existing. -/
theorem credited_not_right : ¬(Query.balance 1).Right Crypto.zero [.addBalance 1 5] ∧
    ¬(Query.empty 1).Right Crypto.zero [.addBalance 1 5] ∧
    ¬(Query.exist 2).Right Crypto.zero [.addBalance 1 5] := by
  refine ⟨fun h => ?_, fun h => ?_, fun h => ?_⟩
  · have hanswer : ((StateDB.new.replay [.addBalance 1 5]).getBalance 1).1 = 105 := by decide
    have hledger : (Books.of 1 [.addBalance 1 5]).ledger = 5 := by decide
    rw [Query.Right, hanswer, hledger] at h
    omega
  · have hbalance : ((StateDB.new.replay [.addBalance 1 5]).account 1).balance = 5 := by decide
    have hzero := (h.mp rfl).1
    omega
  · obtain ⟨op, hop, hw⟩ := h.mp rfl
    obtain rfl := List.mem_singleton.mp hop
    exact absurd hw (by decide)

end MiniEvm
