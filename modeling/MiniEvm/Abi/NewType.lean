import MiniEvm.Abi.Pack
import MiniEvm.Framework.Scan

namespace MiniEvm.Abi

open Framework

/-- The two reasons of a `strconv.NumError`. -/
inductive NumError where
  | invalid (num : List Char)
  | range (num : List Char)
  deriving DecidableEq

/-- `strconv.ParseUint` in base 10 with 64 bits, after the digits that make `n`. -/
def parseUint (num : List Char) (n : Nat) : List Char → Except NumError Nat
  | [] => .ok n
  | c :: cs =>
    if !c.isDigit then .error (.invalid num)
    else if n * 10 + (c.toNat - '0'.toNat) < 2^64 then parseUint num (n * 10 + (c.toNat - '0'.toNat)) cs
    else .error (.range num)

/-- `strconv.Atoi` of a text without a sign. -/
def atoi (num : List Char) : Except NumError Nat :=
  if num = [] then .error (.invalid num)
  else
    match parseUint num 0 num with
    | .error e => .error e
    | .ok n => if n < 2^63 then .ok n else .error (.range num)

/-- The errors of `NewType`, by their texts. -/
inductive TypeError where
  | invalidArgType
  | variableSize (e : NumError)
  | arrayFormatting
  | unsupportedArgType (t : List Char)
  deriving DecidableEq

/-- The submatches 1, 3 and 4 of `([a-zA-Z]+)(([0-9]+)(x([0-9]+))?)?`. -/
structure TypeMatch where
  word : List Char
  digits : List Char
  suffix : List Char

/-- The optional `x([0-9]+)`. -/
def suffixMatch : List Char → List Char
  | 'x' :: cs => if cs.takeWhile Char.isDigit = [] then [] else 'x' :: cs.takeWhile Char.isDigit
  | _ => []

/-- The leftmost match of the expression; its parts are greedy and none has to give a character
back. -/
def typeRegex (t : List Char) : Option TypeMatch :=
  let rest := t.dropWhile fun c => !c.isAlpha
  let word := rest.takeWhile Char.isAlpha
  let rest := rest.dropWhile Char.isAlpha
  let digits := rest.takeWhile Char.isDigit
  if word = [] then none
  else some ⟨word, digits, if digits = [] then [] else suffixMatch (rest.dropWhile Char.isDigit)⟩

namespace AbiType

/-- The size in bytes of the Go type that holds the values. -/
def goSize : AbiType → Nat
  | int size | uint size =>
    match size with
    | 8 => 1
    | 16 => 2
    | 32 => 4
    | _ => 8
  | bool => 1
  | string => 16
  | slice _ | bytes => 24
  | array elem size => elem.goSize * size
  | address => 20
  | fixedBytes size => size
  | function => 24

/-- `reflect.ArrayOf` panics if the array would not fit into the address space. -/
def arrayOf (elem : AbiType) (size : Nat) : Result TypeError AbiType :=
  if elem.goSize * size < 2^64 then .ok (.array elem size) else .panic

/-- The switch over the word of a type. -/
def ofWord (word : List Char) (varSize : Nat) : Option AbiType :=
  if word = "int".toList then some (int varSize)
  else if word = "uint".toList then some (uint varSize)
  else if word = "bool".toList then some bool
  else if word = "address".toList then some address
  else if word = "string".toList then some string
  else if word = "bytes".toList then some (if varSize = 0 then bytes else fixedBytes varSize)
  else if word = "function".toList then some function
  else none

end AbiType

/-- The size that stands after the word. -/
def variableSize (t : List Char) (m : TypeMatch) : Result TypeError Nat :=
  if m.digits = [] then
    if m.word = "uint".toList ∨ m.word = "int".toList then .error (.unsupportedArgType t) else .ok 0
  else
    match atoi (m.digits ++ m.suffix) with
    | .ok n => .ok n
    | .error e => .error (.variableSize e)

/-- A type without brackets. Indexing the matches panics if there is none. -/
def elementaryType (t : List Char) : Result TypeError AbiType := do
  let m ← Result.ofOption (typeRegex t)
  let varSize ← variableSize t m
  match AbiType.ofWord m.word varSize with
  | some type => .ok type
  | none => .error (.unsupportedArgType t)

/-- A slice or an array, by the numbers from the last bracket on. -/
def arrayType (sliced : List Char) (elem : AbiType) : Result TypeError AbiType :=
  match runs Char.isDigit sliced with
  | [] => .ok (.slice elem)
  | [digits] =>
    match atoi digits with
    | .ok size => elem.arrayOf size
    | .error e => .error (.variableSize e)
  | _ => .error .arrayFormatting

/-- `NewType`, on the characters of the string. -/
def newType (t : List Char) : Result TypeError AbiType :=
  if t.count '[' ≠ t.count ']' then .error .invalidArgType
  else
    match _hsplit : splitLast '[' t with
    | some (front, back) => do
      let elem ← newType front
      arrayType ('[' :: back) elem
    | none => elementaryType t
  termination_by t.length
  decreasing_by
    rw [(splitLast_eq_some.mp _hsplit).1]
    simp

/-- `Argument.UnmarshalJSON` on the fields of the entry; the type keeps its unparsed text. -/
def Argument.unmarshalJSON (type : String) (indexed : Bool) : Result TypeError Argument := do
  let t ← newType type.toList
  return ⟨t, indexed, type⟩

end MiniEvm.Abi
