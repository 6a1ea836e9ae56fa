import MiniEvm.Framework.Registry

namespace MiniEvm.Abi

open Framework

/-- `abi.Method`; what an argument is plays no role here. -/
structure Method (Arg : Type) where
  name : String
  const : Bool
  inputs : List Arg
  outputs : List Arg
  deriving DecidableEq

structure Event (Arg : Type) where
  name : String
  anonymous : Bool
  inputs : List Arg
  deriving DecidableEq

/-- An entry of the JSON array, as `json.Unmarshal` fills it in. -/
structure Field (Arg : Type) where
  type : String
  name : String
  constant : Bool
  anonymous : Bool
  inputs : List Arg
  outputs : List Arg

namespace Field

variable {Arg : Type}

/-- The empty type defaults to function. -/
def isFunction (f : Field Arg) : Bool := f.type = "function" || f.type = ""

def isEvent (f : Field Arg) : Bool := f.type = "event"

def method (f : Field Arg) : Method Arg := ⟨f.name, f.constant, f.inputs, f.outputs⟩

def event (f : Field Arg) : Event Arg := ⟨f.name, f.anonymous, f.inputs⟩

end Field

/-- `abi.ABI`: Go maps with one entry for each key. -/
structure ABI (Arg : Type) where
  constructor : Option (List Arg)
  methods : AList fun _ : String => Method Arg
  events : AList fun _ : String => Event Arg

/-- `name+strconv.Itoa(cnt)`. -/
def movedKey (name : String) (cnt : Nat) : String := name ++ toString cnt

/-- What `UnmarshalJSON` has built so far, with its two counters. -/
structure Parsing (Arg : Type) where
  abi : ABI Arg
  functionCnt : Nat
  eventCnt : Nat

variable {Arg : Type}

/-- One round of the loop over the fields; other types are skipped. -/
def Parsing.field (p : Parsing Arg) (f : Field Arg) : Parsing Arg :=
  if f.type = "constructor" then { p with abi := { p.abi with constructor := some f.inputs } }
  else if f.isFunction then
    { p with
      abi := { p.abi with
        methods := register movedKey p.abi.methods p.functionCnt f.name f.method }
      functionCnt := p.functionCnt + 1 }
  else if f.isEvent then
    { p with
      abi := { p.abi with events := register movedKey p.abi.events p.eventCnt f.name f.event }
      eventCnt := p.eventCnt + 1 }
  else p

/-- `ABI.UnmarshalJSON` on the parsed fields; an absent constructor keeps its zero value. -/
def unmarshalJSON (fields : List (Field Arg)) : ABI Arg :=
  (fields.foldl Parsing.field ⟨⟨none, ∅, ∅⟩, 0, 0⟩).abi

/-- The methods that `FuzzContracts` fuzzes: it ranges over the map and skips constant ones. -/
def fuzzedMethods (abi : ABI Arg) : List (Method Arg) :=
  (abi.methods.entries.map fun e => e.2).filter fun m => !m.const

end MiniEvm.Abi
