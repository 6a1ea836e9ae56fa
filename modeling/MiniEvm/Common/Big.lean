import MiniEvm.Math.Bytes

namespace MiniEvm

open Math

/-- `[]byte`; a nil slice is the empty list. -/
abbrev Bytes := List UInt8

/-- `common.Address`, the twenty bytes read as one number. -/
abbrev Address := BitVec 160

/-- `common.Hash`, the thirty-two bytes read as one number. -/
abbrev Hash := BitVec 256

/-- Longer input is cropped from the left, shorter input is padded on the left. -/
def bytesToHash (b : Bytes) : Hash := BitVec.ofNat 256 (ofBytes b)

def stringToHash (s : String) : Hash := bytesToHash s.toByteArray.data.toList

/-- `b.Bytes()` is the absolute value, so the sign is lost. -/
def bigToHash (b : Int) : Hash := BitVec.ofNat 256 b.natAbs

def Hash.big (h : Hash) : Int := h.toNat

def emptyHash (h : Hash) : Bool := h == 0

def bytesToAddress (b : Bytes) : Address := BitVec.ofNat 160 (ofBytes b)

def stringToAddress (s : String) : Address := bytesToAddress s.toByteArray.data.toList

def bigToAddress (b : Int) : Address := BitVec.ofNat 160 b.natAbs

def Address.big (a : Address) : Int := a.toNat

def Address.bytes (a : Address) : Bytes := toBytes 20 a.toNat

def tt255 : Int := 2^255
def tt256 : Int := 2^256

/-- `x.And(x, tt256m1)`: big integers are two's complement, so a negative value wraps too. -/
def u256 (x : Int) : Int := x % tt256

/-- Reads a 256-bit word as signed; larger inputs are only shifted. -/
def s256 (x : Int) : Int := if x < tt255 then x else x - tt256

/-- `x.Uint64()`: the low 64 bits of the absolute value. -/
def uint64 (x : Int) : UInt64 := UInt64.ofNat x.natAbs

/-- `x.Int64()`: the low 64 bits, signed. -/
def int64 (x : Int) : Int := x.bmod (2^64)

def maxUint64 : UInt64 := 0xffffffffffffffff

/-- The exact sum modulo 2^64, and whether it overflowed. -/
def safeAdd (x y : UInt64) : UInt64 × Bool := (x + y, y > maxUint64 - x)

def safeMul (x y : UInt64) : UInt64 × Bool :=
  if x = 0 ∨ y = 0 then (0, false) else (x * y, y > maxUint64 / x)

/-- `bigint.Bytes()`: the absolute value without leading zeros. -/
def bigBytes (x : Int) : Bytes := toBytes ((bitLen x + 7) / 8) x.natAbs

def paddedBigBytes (x : Int) (n : Nat) : Bytes :=
  if bitLen x / 8 ≥ n then bigBytes x else toBytes n x.natAbs

/-- Byte `n` counted from the least significant one. -/
def bigEndianByteAt (x : Int) (n : Nat) : UInt8 := UInt8.ofNat (x.natAbs / 256^n)

/-- `math.Byte`: byte `n` of the big-endian form padded to `padlength`. -/
def bigByte (x : Int) (padlength n : Int) : UInt8 :=
  if n ≥ padlength then 0 else bigEndianByteAt x (padlength - 1 - n).toNat

/-- One word of square-and-multiply: running result, running square, remaining bits. -/
def expWord : Nat → Nat → Int × Int → Int × Int
  | 0, _, rb => rb
  | i + 1, word, (result, base) =>
    let result := if word % 2 = 1 then u256 (result * base) else result
    expWord i (word / 2) (result, u256 (base * base))

/-- The 64-bit words of a natural number, least significant first. -/
def bigWords (n : Nat) : List Nat :=
  (List.range ((bitLen n + 63) / 64)).map fun i => n / 2^(64 * i) % 2^64

/-- `math.Exp`: the result, and what the caller's `base` holds afterwards. -/
def bigExp (base exponent : Int) : Int × Int :=
  (bigWords exponent.natAbs).foldl (fun rb word => expWord 64 word rb) (1, base)

theorem tt256_pos : 0 < tt256 := by decide

theorem u256_nonneg (x : Int) : 0 ≤ u256 x := Int.emod_nonneg x (by decide)

theorem u256_lt (x : Int) : u256 x < tt256 := Int.emod_lt_of_pos x tt256_pos

/-- Truncation changes a value exactly when it is not a 256-bit word. -/
theorem u256_eq_self (x : Int) : u256 x = x ↔ 0 ≤ x ∧ x < tt256 := by
  constructor
  · intro h
    rw [← h]
    exact ⟨u256_nonneg x, u256_lt x⟩
  · rintro ⟨h0, h1⟩
    exact Int.emod_eq_of_lt h0 h1

/-- A word takes 32 bytes. -/
theorem paddedBigBytes_eq {v : Int} (h : 0 ≤ v ∧ v < tt256) :
    paddedBigBytes v 32 = toBytes 32 v.toNat := by
  have habs : v.natAbs = v.toNat := by omega
  have hlt : v.natAbs < 2^256 := by
    have : v < 2^256 := h.2
    omega
  have hbits := (bitLen_le_iff v 256).mpr hlt
  unfold paddedBigBytes
  split_ifs with hlen
  · have hfull : (bitLen v + 7) / 8 = 32 := by omega
    rw [bigBytes, hfull, habs]
  · rw [habs]

/-- An integer that Go's type holds is kept. -/
theorem int64_small {x : Int} (h0 : 0 ≤ x) (h : x < 2^63) : int64 x = x := by
  unfold int64
  rw [Int.bmod_eq_of_le] <;> omega

theorem toNat_uint64 (x : Int) : (uint64 x).toNat = x.natAbs % 2^64 := by
  simp [uint64]

theorem safeAdd_ok (x y : UInt64) (h : (safeAdd x y).2 = false) :
    (safeAdd x y).1.toNat = x.toNat + y.toNat := by
  have hx := x.toNat_lt
  have hy := y.toNat_lt
  simp only [safeAdd, maxUint64, gt_iff_lt, decide_eq_false_iff_not, UInt64.not_lt,
    UInt64.le_iff_toNat_le] at h ⊢
  have hm : (18446744073709551615 - x : UInt64).toNat = 2^64 - 1 - x.toNat := by
    rw [UInt64.toNat_sub_of_le]
    · rfl
    · rw [UInt64.le_iff_toNat_le]
      change x.toNat ≤ 2^64 - 1
      omega
  rw [hm] at h
  rw [UInt64.toNat_add]
  omega

end MiniEvm
