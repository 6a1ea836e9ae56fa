import MiniEvm.Common.Word
import MiniEvm.Math.Squaring

namespace MiniEvm

open Math

/-- A word of the exponent truncates the base before any later step reads it. -/
theorem expWord_u256 (i word : Nat) (r b : Int) :
    expWord (i + 1) word (r, u256 b) = expWord (i + 1) word (r, b) := by
  simp only [expWord, u256_mul_u256, u256_u256_mul]

/-- The number of words of an exponent, which is also the number of rounds of 64 squarings. -/
def wordCount (n : Nat) : Nat := (bitLen n + 63) / 64

theorem wordCount_pos {n : Nat} (hn : n ≠ 0) : 0 < wordCount n := by
  have hbits : ¬ bitLen n ≤ 0 := by
    rw [bitLen_le_iff]
    simpa using hn
  unfold wordCount
  omega

theorem lt_two_pow_wordCount (n : Nat) : n < 2 ^ (64 * wordCount n) := by
  have hlen : bitLen n ≤ 64 * wordCount n := by
    unfold wordCount
    omega
  exact (bitLen_le_iff n _).mp hlen

/-- A base of any size: what it holds afterwards is its square of squares, truncated. -/
theorem bigExp_pos (base : Int) {n : Nat} (hn : n ≠ 0) :
    bigExp base n = (u256 (base ^ n), u256 (base ^ 2 ^ (64 * wordCount n))) := by
  have hfold := foldl_expWord n (wordCount n) (u256_u256 base)
  rw [Nat.mod_eq_of_lt (lt_two_pow_wordCount n), u256_u256_pow, u256_u256_pow] at hfold
  rw [← hfold]
  obtain ⟨k, hk⟩ := Nat.exists_eq_succ_of_ne_zero (wordCount_pos hn).ne'
  unfold bigExp bigWords
  rw [Int.natAbs_natCast, show (bitLen n + 63) / 64 = k + 1 from hk, hk, List.range_succ_eq_map,
    List.map_cons, List.foldl_cons, List.foldl_cons, expWord_u256]

theorem u256_natCast_mod (n : Nat) : u256 n = ((n % 2 ^ 256 : Nat) : Int) :=
  (Int.natCast_mod n (2 ^ 256)).symm

theorem bigExp_result (base exponent : Nat) :
    (bigExp base exponent).1 = ((base ^ exponent % 2 ^ 256 : Nat) : Int) := by
  by_cases hn : exponent = 0
  · subst hn
    rw [pow_zero]
    rfl
  · rw [bigExp_pos base hn, ← Int.natCast_pow, u256_natCast_mod]

/-- What the caller's base holds afterwards. -/
theorem bigExp_base_eq_iff (base exponent : Nat) :
    (bigExp base exponent).2 = base ↔ exponent = 0 ∨ base ≤ 1 := by
  by_cases hn : exponent = 0
  · subst hn
    exact iff_of_true rfl (Or.inl rfl)
  · have hrounds : 0 < 64 * wordCount exponent := Nat.mul_pos (by decide) (wordCount_pos hn)
    rw [bigExp_pos base hn]
    show u256 ((base : Int) ^ 2 ^ (64 * wordCount exponent)) = base ↔ _
    rw [← Int.natCast_pow, u256_natCast_mod, Int.natCast_inj,
      pow_two_pow_mod_eq_self_iff hrounds (by decide), or_iff_right hn]

/-- The documented contract of `math.Exp`: the power modulo 2^256, with the arguments as they were.
The loop writes to `base` and never to `exponent`. -/
structure ExpContract (base exponent : Nat) : Prop where
  result : (bigExp base exponent).1 = ((base ^ exponent % 2 ^ 256 : Nat) : Int)
  unchanged : (bigExp base exponent).2 = base

/-- The result is always the power; the base survives the squarings only where there are none or
where they do nothing. -/
theorem expContract_iff (base exponent : Nat) :
    ExpContract base exponent ↔ exponent = 0 ∨ base ≤ 1 := by
  constructor
  · intro h
    exact (bigExp_base_eq_iff base exponent).mp h.unchanged
  · intro h
    exact ⟨bigExp_result base exponent, (bigExp_base_eq_iff base exponent).mpr h⟩

/-- Raising 2 to the first power returns 2 and leaves 0 in the caller's base. -/
theorem exp_clears_base : bigExp 2 1 = (2, 0) ∧ ¬ ExpContract 2 1 := by
  have hrun : bigExp 2 1 = (2, 0) := by decide +kernel
  refine ⟨hrun, ?_⟩
  intro h
  have hbase := h.unchanged
  rw [show bigExp (2 : Nat) (1 : Nat) = (2, 0) from hrun] at hbase
  exact absurd hbase (by decide)

end MiniEvm
