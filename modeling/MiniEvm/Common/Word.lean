import Mathlib.Data.Int.Bitwise
import Mathlib.Data.Int.ModEq
import Mathlib.Tactic.Ring
import MiniEvm.Common.Big

namespace MiniEvm

open Math

/-- A 256-bit word; as a stack item it is the natural number it stands for. -/
abbrev Word := BitVec 256

namespace Word

theorem toNat_lt_tt256 (w : Word) : (w.toNat : Int) < tt256 := Int.ofNat_lt.mpr w.isLt

/-- Every integer of the range of a word is one. -/
theorem exists_eq {x : Int} (h0 : 0 ≤ x) (hx : x < tt256) : ∃ w : Word, x = w.toNat := by
  obtain ⟨n, rfl⟩ := Int.eq_ofNat_of_zero_le h0
  have hn : n < 2 ^ 256 := Int.ofNat_lt.mp hx
  exact ⟨BitVec.ofNat 256 n, by rw [BitVec.toNat_ofNat, Nat.mod_eq_of_lt hn]⟩

theorem ofInt_toNat (w : Word) : BitVec.ofInt 256 (w.toNat : Int) = w := by
  rw [BitVec.ofInt_natCast, BitVec.ofNat_toNat, BitVec.setWidth_eq]

theorem toNat_eq_zero {w : Word} : (w.toNat : Int) = 0 ↔ w = 0 := by
  rw [Int.natCast_eq_zero, ← BitVec.toNat_inj]
  rfl

/-- Bits of a truncated integer, negative ones included. -/
theorem getLsbD_ofInt (n : Nat) (z : Int) (i : Nat) :
    (BitVec.ofInt n z).getLsbD i = (decide (i < n) && z.testBit i) := by
  cases z with
  | ofNat m => simp [BitVec.getLsbD_ofNat, Int.testBit]
  | negSucc m =>
    rw [BitVec.ofInt_negSucc_eq_not_ofNat, BitVec.getLsbD_not, BitVec.getLsbD_ofNat]
    by_cases h : i < n <;> simp [h, Int.testBit]

end Word

theorem u256_eq_ofInt (z : Int) : u256 z = (BitVec.ofInt 256 z).toNat := by
  rw [BitVec.toNat_ofInt, Int.toNat_of_nonneg (Int.emod_nonneg z (by decide))]
  rfl

/-- Truncation is a homomorphism onto words. -/
theorem u256_eq_of_ofInt_eq {z : Int} {w : Word} (h : BitVec.ofInt 256 z = w) : u256 z = w.toNat := by
  rw [u256_eq_ofInt, h]

theorem s256_toNat (w : Word) : s256 w.toNat = w.toInt := by
  have hlt := w.isLt
  rw [BitVec.toInt_eq_toNat_cond]
  unfold s256 tt255 tt256
  split_ifs <;> omega

/-- Reading a value twice as signed changes nothing more. -/
theorem s256_s256 (w : Word) : s256 (s256 w.toNat) = w.toInt := by
  rw [s256_toNat]
  have hlt : w.toInt < tt255 := BitVec.toInt_lt
  exact if_pos hlt

/-- Magnitudes divided and the sign put back: division that truncates towards zero. -/
theorem natAbs_div_sign (a b : Int) :
    ((a.natAbs / b.natAbs : Nat) : Int) * (if a * b < 0 then -1 else 1) = a.tdiv b := by
  have hcast : ((a.natAbs / b.natAbs : Nat) : Int) = (a.natAbs : Int).tdiv b.natAbs :=
    Int.ofNat_tdiv _ _
  rw [hcast]
  by_cases hneg : a * b < 0
  · rw [if_pos hneg]
    rcases mul_neg_iff.mp hneg with ⟨ha, hb⟩ | ⟨ha, hb⟩
    · rw [Int.natAbs_of_nonneg ha.le, Int.ofNat_natAbs_of_nonpos hb.le, Int.tdiv_neg]
      ring
    · rw [Int.natAbs_of_nonneg hb.le, Int.ofNat_natAbs_of_nonpos ha.le, Int.neg_tdiv]
      ring
  · rw [if_neg hneg, mul_one]
    rcases mul_nonneg_iff.mp (not_lt.mp hneg) with ⟨ha, hb⟩ | ⟨ha, hb⟩
    · rw [Int.natAbs_of_nonneg ha, Int.natAbs_of_nonneg hb]
    · rw [Int.ofNat_natAbs_of_nonpos ha, Int.ofNat_natAbs_of_nonpos hb, Int.neg_tdiv, Int.tdiv_neg,
        neg_neg]

/-- The remainder of the magnitudes with the sign of the dividend. -/
theorem natAbs_mod_sign (a b : Int) :
    ((a.natAbs % b.natAbs : Nat) : Int) * (if a < 0 then -1 else 1) = a.tmod b := by
  have hcast : ((a.natAbs % b.natAbs : Nat) : Int) = (a.natAbs : Int).tmod b.natAbs :=
    Int.ofNat_tmod _ _
  have habs : ∀ c : Int, c.tmod b.natAbs = c.tmod b := by
    intro c
    rcases Int.natAbs_eq b with hb | hb
    · rw [← hb]
    · rw [hb, Int.natAbs_neg, Int.natAbs_natCast, Int.tmod_neg]
  rw [hcast, habs]
  by_cases hneg : a < 0
  · rw [if_pos hneg, Int.ofNat_natAbs_of_nonpos hneg.le, Int.neg_tmod]
    ring
  · rw [if_neg hneg, Int.natAbs_of_nonneg (not_lt.mp hneg), mul_one]

theorem u256_u256 (x : Int) : u256 (u256 x) = u256 x := Int.emod_emod_of_dvd x dvd_rfl

theorem u256_mul_u256 (x y : Int) : u256 (x * u256 y) = u256 (x * y) := by
  simp only [u256, Int.mul_emod, Int.emod_emod_of_dvd _ dvd_rfl]

theorem u256_u256_mul (x y : Int) : u256 (u256 x * y) = u256 (x * y) := by
  simp only [u256, Int.mul_emod, Int.emod_emod_of_dvd _ dvd_rfl]

theorem u256_u256_pow (x : Int) (k : Nat) : u256 (u256 x ^ k) = u256 (x ^ k) :=
  (Int.ModEq.pow k (Int.mod_modEq x tt256))

/-- Square and multiply: `i` bits of a word multiply the result by their power of the base, and the
base has been squared `i` times. -/
theorem expWord_eq (i word : Nat) {r b : Int} (hr : u256 r = r) (hb : u256 b = b) :
    expWord i word (r, b) = (u256 (r * b ^ (word % 2 ^ i)), u256 (b ^ 2 ^ i)) := by
  induction i generalizing word r b with
  | zero => simp [expWord, hr, hb, Nat.mod_one]
  | succ i ih =>
    have hbits : word % 2 ^ (i + 1) = word % 2 + 2 * (word / 2 % 2 ^ i) := by
      rw [Nat.pow_succ', Nat.mod_mul]
    have hsquare : ∀ k, u256 (u256 (b * b) ^ k) = u256 (b ^ (2 * k)) := by
      intro k
      rw [u256_u256_pow, ← pow_two, ← pow_mul]
    have hlow : ∀ k, u256 ((if word % 2 = 1 then u256 (r * b) else r) * k) =
        u256 (r * b ^ (word % 2) * k) := by
      intro k
      rcases Nat.mod_two_eq_zero_or_one word with h | h
      · simp [h]
      · simp [h, u256_u256_mul]
    have hr' : u256 (if word % 2 = 1 then u256 (r * b) else r) =
        if word % 2 = 1 then u256 (r * b) else r := by
      split_ifs
      · exact u256_u256 _
      · exact hr
    rw [expWord, ih _ hr' (u256_u256 _), hlow, hsquare, hbits, ← Nat.pow_succ', ← u256_mul_u256,
      hsquare, u256_mul_u256, pow_add, mul_assoc]

/-- The words read so far make up the exponent modulo a power of two. -/
theorem foldl_expWord (n k : Nat) {b : Int} (hb : u256 b = b) :
    ((List.range k).map fun i => n / 2 ^ (64 * i) % 2 ^ 64).foldl
        (fun rb word => expWord 64 word rb) (1, b) =
      (u256 (b ^ (n % 2 ^ (64 * k))), u256 (b ^ 2 ^ (64 * k))) := by
  induction k with
  | zero =>
    have hone : u256 1 = 1 := by decide
    simp [hb, hone, Nat.mod_one]
  | succ k ih =>
    have hword : n % 2 ^ (64 * (k + 1)) =
        n % 2 ^ (64 * k) + 2 ^ (64 * k) * (n / 2 ^ (64 * k) % 2 ^ 64) := by
      rw [Nat.mul_succ, Nat.pow_add, Nat.mod_mul]
    rw [List.range_succ, List.map_append, List.foldl_append, ih]
    simp only [List.map_cons, List.map_nil, List.foldl_cons, List.foldl_nil]
    rw [expWord_eq 64 _ (u256_u256 _) (u256_u256 _), Nat.mod_mod, u256_u256_mul, ← u256_mul_u256,
      u256_u256_pow, u256_mul_u256, ← pow_mul, ← pow_add, ← hword, u256_u256_pow, ← pow_mul,
      ← Nat.pow_add, Nat.mul_succ]

/-- `math.Exp` computes the power modulo 2^256. -/
theorem bigExp_eq {b : Int} (hb : u256 b = b) (n : Nat) : (bigExp b n).1 = u256 (b ^ n) := by
  have hbits : n < 2 ^ (64 * ((bitLen n + 63) / 64)) := by
    have hlen : bitLen n ≤ 64 * ((bitLen n + 63) / 64) := by omega
    exact (bitLen_le_iff n _).mp hlen
  have hfold := foldl_expWord n ((bitLen n + 63) / 64) hb
  unfold bigExp bigWords
  rw [Int.natAbs_natCast, hfold, Nat.mod_eq_of_lt hbits]

end MiniEvm
