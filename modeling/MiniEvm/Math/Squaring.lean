import Mathlib.FieldTheory.Finite.Basic

namespace MiniEvm.Math

/-- Squaring often enough modulo a power of two leaves only the parity of the base. -/
theorem pow_two_pow_mod {b w k : Nat} (hk : w ≤ k + 1) :
    b ^ 2 ^ k % 2 ^ w = if b % 2 = 0 then 0 else 1 % 2 ^ w := by
  split_ifs with hb
  · have hdvd : 2 ∣ b := Nat.dvd_of_mod_eq_zero hb
    have hwk : w ≤ 2 ^ k := hk.trans Nat.lt_two_pow_self
    have hpow : 2 ^ w ∣ b ^ 2 ^ k := (pow_dvd_pow 2 hwk).trans (pow_dvd_pow_of_dvd hdvd _)
    exact Nat.mod_eq_zero_of_dvd hpow
  · have hodd : Nat.Coprime b 2 := by
      rw [Nat.coprime_comm, Nat.coprime_two_left, Nat.odd_iff]
      omega
    cases w with
    | zero => simp [Nat.mod_one]
    | succ w =>
      -- the order of an odd base divides the totient, a power of two below the exponent
      have htotient : Nat.totient (2 ^ (w + 1)) = 2 ^ w := by
        rw [Nat.totient_prime_pow_succ Nat.prime_two, Nat.add_one_sub_one, mul_one]
      have hexp : 2 ^ k = 2 ^ w * 2 ^ (k - w) := by
        rw [← Nat.pow_add]
        congr 1
        omega
      have hone := Nat.ModEq.pow_totient (hodd.pow_right (w + 1))
      rw [htotient] at hone
      have hpow : (b ^ 2 ^ w) ^ 2 ^ (k - w) ≡ 1 ^ 2 ^ (k - w) [MOD 2 ^ (w + 1)] := hone.pow _
      rwa [one_pow, ← pow_mul, ← hexp] at hpow

/-- A base that comes back after one round of squarings comes back after any number of rounds. -/
theorem pow_pow_mod_of_fixed {b e M : Nat} (h : b ^ e % M = b) (m : Nat) : b ^ e ^ m % M = b := by
  induction m with
  | zero =>
    have hb : b % M = b := by
      conv_lhs => rw [← h]
      rw [Nat.mod_mod, h]
    rwa [pow_zero, pow_one]
  | succ m ih => rw [pow_succ, pow_mul, Nat.pow_mod, ih, h]

/-- Squaring modulo a power of two ends where it began only for 0 and 1. -/
theorem pow_two_pow_mod_eq_self_iff {b s w : Nat} (hs : 0 < s) (hw : 0 < w) :
    b ^ 2 ^ s % 2 ^ w = b ↔ b ≤ 1 := by
  have hone : 1 % 2 ^ w = 1 := Nat.mod_eq_of_lt (Nat.one_lt_two_pow hw.ne')
  constructor
  · intro h
    have hrounds := pow_pow_mod_of_fixed h w
    have hsw : w ≤ s * w + 1 := (Nat.le_mul_of_pos_left w hs).trans (Nat.le_succ _)
    rw [← pow_mul, pow_two_pow_mod hsw, hone] at hrounds
    split_ifs at hrounds <;> omega
  · intro h
    obtain rfl | rfl : b = 0 ∨ b = 1 := by omega
    · rw [Nat.zero_pow (Nat.two_pow_pos _), Nat.zero_mod]
    · rw [one_pow, hone]

end MiniEvm.Math
