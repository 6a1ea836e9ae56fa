import MiniEvm.Common.Big

namespace MiniEvm

/-- `types.Log`: the fields the interpreter fills in. -/
structure Log where
  address : Address
  topics : List Hash
  data : Bytes
  blockNumber : UInt64

/-- `state.State`, one account. -/
structure State where
  balance : Int
  nonce : UInt64
  codeHash : Hash
  code : Bytes
  isSuicide : Bool
  storage : Hash → Option Hash

/-- The literal every operation uses for an account that is not in the map. -/
def State.new : State := ⟨0, 0, 0, [], false, fun _ => none⟩

/-- The operations that can change a `StateDB`, with their arguments. -/
inductive StateOp where
  | createAccount (a : Address)
  | subBalance (a : Address) (v : Int)
  | addBalance (a : Address) (v : Int)
  | getBalance (a : Address)
  | setNonce (a : Address) (n : UInt64)
  | setCode (a : Address) (code : Bytes)
  | getState (a : Address) (k : Hash)
  | setState (a : Address) (k v : Hash)
  | suicide (a : Address)
  | hasSuicided (a : Address)
  | addLog (l : Log)

/-- `history` is a ghost: it lists the operations performed and is never read. -/
structure StateDB where
  stateMap : Address → Option State
  logs : List Log
  history : List StateOp

namespace StateDB

def new : StateDB := ⟨fun _ => none, [], []⟩

/-- The account at `a`, read through the default for an absent one. -/
def account (db : StateDB) (a : Address) : State := (db.stateMap a).getD State.new

/-- Assigns the map entry at `a`. -/
def put (db : StateDB) (a : Address) (s : State) : StateDB :=
  { db with stateMap := fun x => if x = a then some s else db.stateMap x }

def record (db : StateDB) (op : StateOp) : StateDB := { db with history := db.history ++ [op] }

def createAccount (db : StateDB) (a : Address) : StateDB :=
  (db.put a State.new).record (.createAccount a)

/-- The only operation that ignores an absent account instead of creating it. -/
def subBalance (db : StateDB) (a : Address) (v : Int) : StateDB :=
  match db.stateMap a with
  | none => db.record (.subBalance a v)
  | some s => (db.put a { s with balance := s.balance - v }).record (.subBalance a v)

def addBalance (db : StateDB) (a : Address) (v : Int) : StateDB :=
  (db.put a { db.account a with balance := (db.account a).balance + v }).record (.addBalance a v)

/-- Reading a balance first adds 100 to it. -/
def getBalance (db : StateDB) (a : Address) : Int × StateDB :=
  let s : State := { db.account a with balance := (db.account a).balance + 100 }
  (s.balance, (db.put a s).record (.getBalance a))

def getNonce (db : StateDB) (a : Address) : UInt64 := (db.account a).nonce

def setNonce (db : StateDB) (a : Address) (n : UInt64) : StateDB :=
  (db.put a { db.account a with nonce := n }).record (.setNonce a n)

def getCodeHash (db : StateDB) (a : Address) : Hash := (db.account a).codeHash

def getCode (db : StateDB) (a : Address) : Bytes := (db.account a).code

/-- The stored code hash is left alone. -/
def setCode (db : StateDB) (a : Address) (code : Bytes) : StateDB :=
  (db.put a { db.account a with code := code }).record (.setCode a code)

def getCodeSize (db : StateDB) (a : Address) : Nat := (db.account a).code.length

/-- Creates an absent account before it reads. -/
def getState (db : StateDB) (a : Address) (k : Hash) : Hash × StateDB :=
  let s := db.account a
  ((s.storage k).getD 0, (db.put a s).record (.getState a k))

def setState (db : StateDB) (a : Address) (k v : Hash) : StateDB :=
  let s := db.account a
  (db.put a { s with storage := fun x => if x = k then some v else s.storage x }).record
    (.setState a k v)

def suicide (db : StateDB) (a : Address) : StateDB :=
  (db.put a { db.account a with isSuicide := true }).record (.suicide a)

def hasSuicided (db : StateDB) (a : Address) : Bool × StateDB :=
  ((db.account a).isSuicide, (db.put a (db.account a)).record (.hasSuicided a))

def exist (_ : StateDB) (_ : Address) : Bool := true

def empty (_ : StateDB) (_ : Address) : Bool := true

/-- Nothing is remembered. -/
def snapshot (_ : StateDB) : Int := 0

/-- Nothing is undone. -/
def revertToSnapshot (db : StateDB) (_ : Int) : StateDB := db

def addLog (db : StateDB) (l : Log) : StateDB :=
  { db with logs := db.logs ++ [l] }.record (.addLog l)

end StateDB

/-- `core.CanTransfer` reads the balance, so it changes it. -/
def canTransfer (db : StateDB) (a : Address) (amount : Int) : Bool × StateDB :=
  let (balance, db) := db.getBalance a
  (balance ≥ amount, db)

/-- `core.Transfer`. -/
def transfer (db : StateDB) (sender recipient : Address) (amount : Int) : StateDB :=
  (db.subBalance sender amount).addBalance recipient amount

end MiniEvm
