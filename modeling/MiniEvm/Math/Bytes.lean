import Mathlib

namespace MiniEvm.Math

/-- Number of bits of the absolute value; zero has none. -/
def bitLen (x : Int) : Nat := if x.natAbs = 0 then 0 else x.natAbs.log2 + 1

theorem bitLen_le_iff (x : Int) (k : Nat) : bitLen x ≤ k ↔ x.natAbs < 2^k := by
  unfold bitLen
  split_ifs with h
  · simp [h]
  · rw [← Nat.log2_lt h]
    omega

theorem bitLen_eq_zero (x : Int) : bitLen x = 0 ↔ x = 0 := by
  have h := bitLen_le_iff x 0
  simpa using h

/-- Big-endian value of a byte string. -/
def ofBytes (bs : List UInt8) : Nat := bs.foldl (fun n b => n * 256 + b.toNat) 0

/-- The low `len` bytes of `n`, most significant first. -/
def toBytes : Nat → Nat → List UInt8
  | 0, _ => []
  | len + 1, n => toBytes len (n / 256) ++ [UInt8.ofNat n]

@[simp] theorem toBytes_length (len n : Nat) : (toBytes len n).length = len := by
  induction len generalizing n with
  | zero => rfl
  | succ len ih => simp [toBytes, ih]

theorem ofBytes_append_singleton (bs : List UInt8) (b : UInt8) :
    ofBytes (bs ++ [b]) = ofBytes bs * 256 + b.toNat := by
  simp [ofBytes, List.foldl_append]

theorem ofBytes_lt (bs : List UInt8) : ofBytes bs < 256 ^ bs.length := by
  induction bs using List.reverseRecOn with
  | nil => decide
  | append_singleton bs b ih =>
    have hb := b.toNat_lt
    rw [ofBytes_append_singleton, List.length_append, List.length_singleton, Nat.pow_succ]
    omega

/-- Encoding keeps exactly the residue that the width can hold. -/
theorem ofBytes_toBytes (len n : Nat) : ofBytes (toBytes len n) = n % 256^len := by
  induction len generalizing n with
  | zero => simp [toBytes, ofBytes, Nat.mod_one]
  | succ len ih =>
    have hlast : (UInt8.ofNat n).toNat = n % 256 := by simp
    have hsplit := Nat.mod_mul (x := n) (a := 256) (b := 256^len)
    rw [toBytes, ofBytes_append_singleton, ih, hlast, Nat.pow_succ']
    omega

/-- The last bytes of an encoding encode the number in fewer bytes. -/
theorem toBytes_drop (a len n : Nat) : (toBytes (a + len) n).drop a = toBytes len n := by
  induction len generalizing n with
  | zero => simp [toBytes]
  | succ len ih =>
    have hle : a ≤ (toBytes (a + len) (n / 256)).length := by simp
    rw [← Nat.add_assoc, toBytes, List.drop_append_of_le_length hle, ih, toBytes]

theorem toBytes_ofBytes (bs : List UInt8) : toBytes bs.length (ofBytes bs) = bs := by
  induction bs using List.reverseRecOn with
  | nil => rfl
  | append_singleton bs b ih =>
    have hb : b.toNat < 256 := b.toNat_lt
    have hdiv : (ofBytes bs * 256 + b.toNat) / 256 = ofBytes bs := by omega
    have hlast : UInt8.ofNat (ofBytes bs * 256 + b.toNat) = b := by
      rw [← UInt8.toNat_inj, UInt8.toNat_ofNat']
      omega
    rw [ofBytes_append_singleton, List.length_append, List.length_singleton, toBytes, hdiv, ih, hlast]

/-- The slice expression `bs[lo:hi]`; absent when the bounds are out of order or range. -/
def slice {α : Type} (bs : List α) (lo hi : Nat) : Option (List α) :=
  if lo ≤ hi ∧ hi ≤ bs.length then some ((bs.drop lo).take (hi - lo)) else none

theorem slice_eq_some {α : Type} {bs r : List α} {lo hi : Nat} :
    slice bs lo hi = some r ↔ lo ≤ hi ∧ hi ≤ bs.length ∧ r = (bs.drop lo).take (hi - lo) := by
  unfold slice
  split_ifs with h
  · simp [h.1, h.2, eq_comm]
  · simp only [false_iff]
    intro hs
    exact h ⟨hs.1, hs.2.1⟩

/-- `copy` of `src` into `bs` from position `off` on; the length never changes. -/
def overwrite {α : Type} (bs : List α) (off : Nat) (src : List α) : List α :=
  bs.take off ++ src.take (bs.length - off) ++ bs.drop (off + src.length)

theorem overwrite_length {α : Type} (bs : List α) (off : Nat) (src : List α)
    (h : off ≤ bs.length) : (overwrite bs off src).length = bs.length := by
  simp only [overwrite, List.length_append, List.length_take, List.length_drop]
  omega

/-- `src` extended on the right to length `l` by zero bytes, never shortened, for any `l` however
large. -/
def rightPad (src : List UInt8) (l : Nat) : List UInt8 := src ++ List.replicate (l - src.length) 0

/-- `src` extended on the left to length `l` by zero bytes, never shortened. -/
def leftPad (src : List UInt8) (l : Nat) : List UInt8 := List.replicate (l - src.length) 0 ++ src

end MiniEvm.Math
