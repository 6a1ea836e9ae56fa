import MiniEvm.Math.Bytes

namespace MiniEvm.Framework

/-- The most bytes that the Go runtime allocates for one object on a 64-bit platform. -/
def maxAlloc : Nat := 2 ^ 48

/-- A Go byte slice: a byte string that the runtime can allocate. -/
structure GoBytes where
  bytes : List UInt8
  length_le : bytes.length ≤ maxAlloc

namespace GoBytes

theorem length_lt (s : GoBytes) {n : Nat} (hn : maxAlloc < n) : s.bytes.length < n :=
  Nat.lt_of_le_of_lt s.length_le hn

end GoBytes

/-- A Go slice of anything. -/
structure GoSlice (α : Type) where
  items : List α
  length_le : items.length ≤ maxAlloc

end MiniEvm.Framework
