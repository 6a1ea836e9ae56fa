import MiniEvm.Detectors.ContractUtils
import MiniEvm.Framework.Slice
import MiniEvm.Vm.MemoryEffects

namespace MiniEvm

open Math Framework

/-- `getData` where neither the length nor the end of the field wraps. -/
theorem getData_eq {data : Bytes} {start size : UInt64} (hlen : data.length < 2 ^ 63)
    (hsize : size.toNat < 2 ^ 63) :
    getData data start size = some (padded data start.toNat size.toNat) := by
  have hlength : (UInt64.ofNat data.length).toNat = data.length := by
    rw [UInt64.toNat_ofNat']
    omega
  have hstart : (if start > UInt64.ofNat data.length then UInt64.ofNat data.length
      else start).toNat = min start.toNat data.length := by
    split_ifs with h
    · rw [gt_iff_lt, UInt64.lt_iff_toNat_lt, hlength] at h
      rw [hlength]
      omega
    · rw [gt_iff_lt, UInt64.lt_iff_toNat_lt, hlength] at h
      omega
  unfold getData
  simp only
  generalize (if start > UInt64.ofNat data.length then UInt64.ofNat data.length else start) = s
    at hstart ⊢
  have hlast : (if s + size > UInt64.ofNat data.length then UInt64.ofNat data.length
      else s + size).toNat = min (start.toNat + size.toNat) data.length := by
    have hsum : (s + size).toNat = s.toNat + size.toNat := by
      rw [UInt64.toNat_add]
      omega
    split_ifs with h
    · rw [gt_iff_lt, UInt64.lt_iff_toNat_lt, hlength, hsum] at h
      rw [hlength]
      omega
    · rw [gt_iff_lt, UInt64.lt_iff_toNat_lt, hlength, hsum] at h
      omega
  rw [hstart, hlast, if_pos hsize]
  exact slice_rightPad data start.toNat size.toNat

theorem padded_length (data : Bytes) (off l : Nat) : (padded data off l).length = l :=
  Image.read_length _ _ _

theorem padded_drop (data : Bytes) (n off l : Nat) :
    padded (data.drop n) off l = padded data (n + off) l := by
  unfold padded Image.read Image.ofList
  refine List.map_congr_left fun i _ => ?_
  rw [List.getD_eq_getElem?_getD, List.getElem?_drop, ← List.getD_eq_getElem?_getD, Nat.add_assoc]

/-- Zeros in front of the bytes of a number that fits fewer. -/
theorem toBytes_add {k x : Nat} (a : Nat) (h : x < 256 ^ k) :
    toBytes (a + k) x = List.replicate a 0 ++ toBytes k x := by
  induction k generalizing x with
  | zero =>
    have hx : x = 0 := by simpa using h
    subst hx
    clear h
    induction a with
    | zero => rfl
    | succ a ih =>
      have hstep : toBytes (a + 1) 0 = toBytes (a + 0) 0 ++ [0] := rfl
      rw [Nat.add_zero, hstep, ih, List.replicate_succ']
      simp [toBytes]
  | succ k ih =>
    have hdiv : x / 256 < 256 ^ k := by
      rw [pow_succ] at h
      exact Nat.div_lt_of_lt_mul (by rwa [Nat.mul_comm])
    rw [← Nat.add_assoc, toBytes, ih hdiv, toBytes, List.append_assoc]

theorem leftPad_bigBytes {x n : Nat} (h : x < 256 ^ n) : leftPad (bigBytes x) n = toBytes n x := by
  have hpow : ∀ k, 256 ^ k = 2 ^ (8 * k) := by
    intro k
    rw [Nat.pow_mul]
  have hbits : bitLen x ≤ 8 * n := (bitLen_le_iff x _).mpr (by rw [← hpow]; exact h)
  have hfits : x < 256 ^ ((bitLen x + 7) / 8) := by
    rw [hpow]
    exact (bitLen_le_iff x _).mp (by omega)
  have hn : n - (bitLen x + 7) / 8 + (bitLen x + 7) / 8 = n := by omega
  unfold leftPad bigBytes
  rw [toBytes_length, Int.natAbs_natCast, ← toBytes_add _ hfits, hn]

namespace BigModExp

/-- The complexity is at least the length of the longer operand. -/
theorem le_multComplexity {x : Int} (hx : 0 ≤ x) : x ≤ multComplexity x := by
  have hsq : 0 ≤ x * x := mul_nonneg hx hx
  unfold multComplexity
  split_ifs with h64 h1024
  · nlinarith
  · omega
  · omega

/-- The length fields, without any truncation. -/
def baseLen (input : Bytes) : Nat := ofBytes (padded input 0 32)
def expLen (input : Bytes) : Nat := ofBytes (padded input 32 32)
def modLen (input : Bytes) : Nat := ofBytes (padded input 64 32)

/-- The operands: consecutive fields behind the lengths, continued by zeros. -/
def base (input : Bytes) : Nat := ofBytes (padded input 96 (baseLen input))
def exponent (input : Bytes) : Nat := ofBytes (padded input (96 + baseLen input) (expLen input))
def modulus (input : Bytes) : Nat :=
  ofBytes (padded input (96 + baseLen input + expLen input) (modLen input))

/-- What the precompile is for: the power modulo the modulus in as many bytes as the modulus has,
which is none for an empty modulus, and 0 for a modulus that is 0. -/
def power (input : Bytes) : Bytes :=
  toBytes (modLen input)
    (if modulus input = 0 then 0 else base input ^ exponent input % modulus input)

theorem lengths_eq {input : Bytes} (hlen : input.length < 2 ^ 63) :
    lengths input = some ((baseLen input : Int), (expLen input : Int), (modLen input : Int)) := by
  have hfield : ∀ start, getData input start 32 = some (padded input start.toNat 32) := fun start =>
    getData_eq hlen (by decide)
  simp only [lengths, hfield]
  rfl

/-- A price that the detectors can pay was not cut to 64 bits. -/
theorem le_of_affordable {g : Int}
    (h : (if bitLen g > 64 then maxUint64 else uint64 g) ≤ detectorGas) : g ≤ 10 ^ 11 := by
  have hgas : detectorGas.toNat = 10 ^ 11 := by decide
  rw [UInt64.le_iff_toNat_le, hgas] at h
  split_ifs at h with hbig
  · have hmax : maxUint64.toNat = 2 ^ 64 - 1 := by decide
    omega
  · have hlt := (bitLen_le_iff g 64).mp (Nat.le_of_not_gt hbig)
    rw [toNat_uint64] at h
    omega

/-- A product bounds its factors where both are positive. -/
theorem factors_le {m a n : Int} (hm : 1 ≤ m) (ha : 1 ≤ a) (h : m * a ≤ n) : m ≤ n ∧ a ≤ n := by
  constructor <;> nlinarith

/-- Every affordable price bounds the lengths, unless there is nothing to compute. -/
theorem lengths_of_affordable {input : Bytes} (hlen : input.length < 2 ^ 63) {gas : UInt64}
    (hgas : requiredGas input = some gas) (hle : gas ≤ detectorGas) :
    (baseLen input = 0 ∧ modLen input = 0) ∨
      (baseLen input < 2 ^ 62 ∧ expLen input < 2 ^ 62 ∧ modLen input < 2 ^ 62) := by
  unfold requiredGas at hgas
  rw [lengths_eq hlen] at hgas
  simp only [Option.bind_eq_bind, Option.bind_some] at hgas
  obtain ⟨head, -, hgas⟩ := Option.bind_eq_some_iff.mp hgas
  cases hgas
  by_cases hnone : baseLen input = 0 ∧ modLen input = 0
  · exact .inl hnone
  right
  have hdiv : (modExpQuadCoeffDiv : Int) = 20 := rfl
  have hlong : 1 ≤ max (modLen input : Int) (baseLen input : Int) := by omega
  have hmult := le_multComplexity (le_trans (by decide) hlong)
  revert hle
  generalize multComplexity (max (modLen input : Int) (baseLen input : Int)) = mult at hmult ⊢
  generalize hadj : (if (expLen input : Int) > 32 then 8 * ((expLen input : Int) - 32) else 0) +
    max ((bitLen head : Int) - 1) 0 = adj
  intro hle
  have hprice := le_of_affordable hle
  rw [hdiv] at hprice
  obtain ⟨hmultLe, hadjLe⟩ := factors_le (hlong.trans hmult) (le_max_right adj 1)
    (show mult * max adj 1 ≤ 20 * 10 ^ 11 + 19 by omega)
  have hexp : 8 * ((expLen input : Int) - 32) ≤ adj := by
    rw [← hadj]
    split_ifs <;> omega
  omega

theorem run_eq_nil {input : Bytes} (hlen : input.length < 2 ^ 63) (hbase : baseLen input = 0)
    (hmod : modLen input = 0) : run input = some (power input) := by
  have hpower : power input = [] := by
    unfold power
    rw [hmod]
    rfl
  unfold run
  rw [lengths_eq hlen, hpower, hbase, hmod]
  rfl

/-- Lengths that `uint64` and `int` hold are used as they are. -/
theorem run_eq_power {input : Bytes} (hlen : input.length < 2 ^ 63) (hbase : baseLen input < 2 ^ 62)
    (hexp : expLen input < 2 ^ 62) (hmod : modLen input < 2 ^ 62) :
    run input = some (power input) := by
  have htrunc : ∀ {n : Nat}, n < 2 ^ 62 → (uint64 (n : Int)).toNat = n := by
    intro n hn
    rw [toNat_uint64]
    omega
  have hbody : (body input).length < 2 ^ 63 := by
    rw [body, List.length_drop]
    omega
  have hsum : (uint64 (baseLen input : Int) + uint64 (expLen input : Int)).toNat =
      baseLen input + expLen input := by
    rw [UInt64.toNat_add, htrunc hbase, htrunc hexp]
    omega
  have hfield : ∀ {start size : UInt64}, size.toNat < 2 ^ 63 →
      getData (body input) start size = some (padded input (96 + start.toNat) size.toNat) := by
    intro start size hsize
    rw [getData_eq hbody hsize, body, padded_drop]
  have hwidth : (uint64 (modLen input : Int)).toNat < 2 ^ 63 := by
    rw [htrunc hmod]
    omega
  by_cases hnone : baseLen input = 0 ∧ modLen input = 0
  · exact run_eq_nil hlen hnone.1 hnone.2
  have hsome : ¬ (uint64 (baseLen input : Int) = 0 ∧ uint64 (modLen input : Int) = 0) := by
    simp only [← UInt64.toNat_inj, htrunc hbase, htrunc hmod]
    exact hnone
  unfold run
  rw [lengths_eq hlen]
  simp only [Option.bind_eq_bind, Option.bind_some, if_neg hsome]
  rw [hfield (by rw [htrunc hbase]; omega), hfield (by rw [htrunc hexp]; omega), hfield hwidth]
  simp only [Option.bind_some, hsum, htrunc hbase, htrunc hexp, htrunc hmod]
  have hmodulus : ofBytes (padded input (96 + (baseLen input + expLen input)) (modLen input)) =
      modulus input := by
    rw [← Nat.add_assoc]
    rfl
  have hbaseVal : ofBytes (padded input (96 + UInt64.toNat 0) (baseLen input)) = base input := rfl
  have hexpVal : ofBytes (padded input (96 + baseLen input) (expLen input)) = exponent input := rfl
  rw [hmodulus, hbaseVal, hexpVal, if_pos (show modLen input < 2 ^ 63 by omega)]
  unfold power
  split_ifs with hzero
  · have hnil : leftPad (bigBytes (0 : Nat)) (modLen input) = toBytes (modLen input) 0 :=
      leftPad_bigBytes (Nat.pow_pos (by decide))
    exact congrArg some hnil
  · have hfits : modulus input < 256 ^ modLen input := by
      have hlt := ofBytes_lt (padded input (96 + baseLen input + expLen input) (modLen input))
      rwa [padded_length] at hlt
    have hlt : base input ^ exponent input % modulus input < 256 ^ modLen input :=
      (Nat.mod_lt _ (Nat.pos_of_ne_zero hzero)).trans hfits
    exact congrArg some (leftPad_bigBytes hlt)

/-- The price itself is always computed inside the input. -/
theorem requiredGas_isSome {input : Bytes} (hlen : input.length < 2 ^ 63) :
    (requiredGas input).isSome = true := by
  have hbody : (body input).length < 2 ^ 63 := by
    rw [body, List.length_drop]
    omega
  have hhead : (expHead (body input) (baseLen input) (expLen input)).isSome = true := by
    unfold expHead
    split_ifs with hout hlong
    · rfl
    · rw [getData_eq hbody (by decide)]
      rfl
    · have hsize : (uint64 (expLen input : Int)).toNat < 2 ^ 63 := by
        rw [toNat_uint64]
        omega
      rw [getData_eq hbody hsize]
      rfl
  obtain ⟨head, hhead⟩ := Option.isSome_iff_exists.mp hhead
  unfold requiredGas
  rw [lengths_eq hlen]
  simp only [Option.bind_eq_bind, Option.bind_some, hhead]
  rfl

/-- Both functions stay inside the input: the price is always found, and where the detectors can pay
it the precompile returns the power. -/
theorem run_affordable (input : GoBytes) : ∃ gas, requiredGas input.bytes = some gas ∧
    (gas ≤ detectorGas → run input.bytes = some (power input.bytes)) := by
  have hlen : input.bytes.length < 2 ^ 63 := input.length_lt (by decide)
  obtain ⟨gas, hgas⟩ := Option.isSome_iff_exists.mp (requiredGas_isSome hlen)
  refine ⟨gas, hgas, ?_⟩
  intro hle
  obtain ⟨hbase, hmod⟩ | ⟨hbase, hexp, hmod⟩ := lengths_of_affordable hlen hgas hle
  · exact run_eq_nil hlen hbase hmod
  · exact run_eq_power hlen hbase hexp hmod

end BigModExp

/-- 3^5 with a modulus of two bytes, of which the input has only the first. -/
def truncatedModulus : GoBytes where
  bytes := toBytes 32 1 ++ toBytes 32 1 ++ toBytes 32 2 ++ [3, 5, 7]
  length_le := by decide

theorem run_affordable_truncatedModulus : BigModExp.run truncatedModulus.bytes = some [0, 243] := by
  have hgas : BigModExp.requiredGas truncatedModulus.bytes = some 0 := by decide +kernel
  have hpower : BigModExp.power truncatedModulus.bytes = [0, 243] := by decide +kernel
  obtain ⟨gas, hsome, hrun⟩ := BigModExp.run_affordable truncatedModulus
  rw [hgas] at hsome
  cases hsome
  rw [hrun (by decide), hpower]

end MiniEvm
