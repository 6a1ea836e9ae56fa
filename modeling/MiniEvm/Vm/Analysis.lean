import MiniEvm.Common.Big

namespace MiniEvm

open Math

/-- One bit per code byte, most significant bit first; a set bit marks push data. -/
abbrev Bitvec := List UInt8

namespace Bitvec

/-- `bits[i] |= mask`; absent when the index is out of range. -/
def orAt (bits : Bitvec) (i : Nat) (mask : UInt8) : Option Bitvec :=
  if i < bits.length then some (bits.modify i (· ||| mask)) else none

/-- `k >> n` on a byte; the shift count is below eight. -/
def shiftMask (k : UInt8) (n : Nat) : UInt8 := k >>> UInt8.ofNat n

def set (bits : Bitvec) (pos : Nat) : Option Bitvec :=
  orAt bits (pos / 8) (shiftMask 0x80 (pos % 8))

def set8 (bits : Bitvec) (pos : Nat) : Option Bitvec :=
  (orAt bits (pos / 8) (shiftMask 0xff (pos % 8))).bind fun bits =>
    orAt bits (pos / 8 + 1) (~~~(shiftMask 0xff (pos % 8)))

/-- The guard compares with `>`, so the index just past the end is still read. -/
def codeSegment (bits : Bitvec) (pos : Nat) : Option Bool :=
  if pos / 8 > bits.length then some false
  else bits[pos / 8]?.map fun b => b &&& shiftMask 0x80 (pos % 8) == 0

end Bitvec

def isPush (op : UInt8) : Bool := 0x60 ≤ op ∧ op ≤ 0x7f

/-- The two inner loops: eight bits at a time, then the remaining ones. -/
def setBits : Nat → Nat → Bitvec → Option (Nat × Bitvec)
  | numbits + 8, pc, bits => (Bitvec.set8 bits pc).bind (setBits numbits (pc + 8))
  | numbits + 1, pc, bits => (Bitvec.set bits pc).bind (setBits numbits (pc + 1))
  | 0, pc, bits => some (pc, bits)

/-- The outer loop; every round moves `pc` on, so `code.length` rounds are enough. -/
def codeBitmapLoop (code : Bytes) : Nat → Nat → Bitvec → Option Bitvec
  | 0, _, bits => some bits
  | rounds + 1, pc, bits =>
    match code[pc]? with
    | none => some bits
    | some op =>
      if isPush op then
        (setBits (op - 0x60 + 1).toNat (pc + 1) bits).bind fun r =>
          codeBitmapLoop code rounds r.1 r.2
      else codeBitmapLoop code rounds (pc + 1) bits

def codeBitmap (code : Bytes) : Option Bitvec :=
  codeBitmapLoop code code.length 0 (List.replicate (code.length / 8 + 1 + 4) 0)

/-- One bitmap per code hash. -/
abbrev Destinations := Hash → Option Bitvec

def Destinations.empty : Destinations := fun _ => none

/-- The cached bitmap, or a new one that is cached. -/
def Destinations.analyse (d : Destinations) (codehash : Hash) (code : Bytes) :
    Option (Bitvec × Destinations) :=
  match d codehash with
  | some m => some (m, d)
  | none => (codeBitmap code).map fun m => (m, fun h => if h = codehash then some m else d h)

/-- The answer and the cache it leaves; absent when an index is out of range. -/
def Destinations.has (d : Destinations) (codehash : Hash) (code : Bytes) (dest : Int) :
    Option (Bool × Destinations) :=
  let udest := (uint64 dest).toNat
  if bitLen dest ≥ 63 ∨ udest ≥ code.length then some (false, d)
  else
    (d.analyse codehash code).bind fun (m, d) =>
      if code[udest]? = some 0x5b then (m.codeSegment udest).map fun b => (b, d)
      else some (false, d)

end MiniEvm
