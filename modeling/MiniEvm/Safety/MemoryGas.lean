import MiniEvm.Detectors.ContractUtils
import MiniEvm.Safety.MemoryRefinement

namespace MiniEvm

open Math Framework

/-- The price of a memory of `w` words, in unbounded integers. -/
def memoryFee (w : Nat) : Nat := 3 * w + w * w / 512

theorem memoryFee_mono {v w : Nat} (h : v ≤ w) : memoryFee v ≤ memoryFee w := by
  have hsq : v * v ≤ w * w := Nat.mul_le_mul h h
  have hdiv : v * v / 512 ≤ w * w / 512 := Nat.div_le_div_right hsq
  unfold memoryFee
  omega

/-- The price that the source computes, with its square modulo 2^64. -/
def wrappedFee (w : Nat) : Nat := 3 * w + w * w % 2^64 / 512

/-- The square fits exactly for sizes below 2^32 words. -/
theorem wrappedFee_eq_iff (w : Nat) : wrappedFee w = memoryFee w ↔ w < 2^32 := by
  unfold wrappedFee memoryFee
  constructor
  · intro h
    by_contra hw
    have hsq : 2^32 * 2^32 ≤ w * w := Nat.mul_le_mul (by omega) (by omega)
    omega
  · intro hw
    have hsq : w * w < 2^32 * 2^32 := Nat.mul_lt_mul'' hw hw
    rw [Nat.mod_eq_of_lt (by omega)]

/-- The number of words that an instruction asks for. -/
def wordsFor (n : UInt64) : Nat := (n.toNat + 31) / 32

/-- The total that `memoryGasCost` remembers. -/
def newTotalFee (n : UInt64) : UInt64 :=
  toWordSize n * memoryGas + toWordSize n * toWordSize n / quadCoeffDiv

theorem newTotalFee_toNat {n : UInt64} (hn : n.toNat ≤ 0xffffffffe0) :
    (newTotalFee n).toNat = wrappedFee (wordsFor n) := by
  have hw : (toWordSize n).toNat = wordsFor n := toWordSize_toNat n
  have hsmall : wordsFor n < 2^35 := by
    unfold wordsFor
    omega
  have hlin : (toWordSize n * memoryGas).toNat = 3 * wordsFor n := by
    rw [UInt64.toNat_mul, hw]
    change wordsFor n * 3 % 2^64 = _
    omega
  have hquad : (toWordSize n * toWordSize n / quadCoeffDiv).toNat =
      wordsFor n * wordsFor n % 2^64 / 512 := by
    rw [UInt64.toNat_div, UInt64.toNat_mul, hw]
    rfl
  have hmod : wordsFor n * wordsFor n % 2^64 < 2^64 := Nat.mod_lt _ (by decide)
  rw [newTotalFee, UInt64.toNat_add, hlin, hquad, wrappedFee]
  omega

/-- A memory whose length is whole words and whose remembered fee is the price of them. -/
structure Memory.Metered (m : Memory) : Prop where
  aligned : m.len % 32 = 0
  paid : m.lastGasCost.toNat = memoryFee (m.len / 32)

/-- The price is refused, or it is the exact difference of the totals. -/
def PricedExactly (m : Memory) (n : UInt64) : Prop :=
  match (memoryGasCost m n).1 with
  | .error e => e = .gasUintOverflow
  | .ok fee => memoryFee (m.len / 32) + fee.toNat = memoryFee (max (m.len / 32) (wordsFor n))

theorem memoryFee_lt {n : UInt64} (hn : n.toNat ≤ 0xffffffffe0) :
    memoryFee (wordsFor n) < 2^64 := by
  have hsmall : wordsFor n < 2^35 := by
    unfold wordsFor
    omega
  have hsq : wordsFor n * wordsFor n < 2^35 * 2^35 := Nat.mul_lt_mul'' hsmall hsmall
  unfold memoryFee
  omega

section Price

variable {m : Memory} {n : UInt64}

theorem memoryGasCost_refused (h : n.toNat > 0xffffffffe0) :
    memoryGasCost m n = (.error .gasUintOverflow, m) := by
  have hz : n ≠ 0 := by
    rintro rfl
    exact absurd h (by decide)
  have hlim : n > 0xffffffffe0 := UInt64.lt_iff_toNat_lt.mpr h
  rw [memoryGasCost, if_neg hz, if_pos hlim]

/-- Nothing is due for memory that is already there. -/
theorem memoryGasCost_within (halign : m.len % 32 = 0) (hlim : n.toNat ≤ 0xffffffffe0)
    (h : n.toNat ≤ m.len) : memoryGasCost m n = (.ok 0, m) := by
  unfold memoryGasCost
  split_ifs with hz hgt
  · rfl
  · exact absurd (UInt64.lt_iff_toNat_lt.mp hgt) (by change ¬ 0xffffffffe0 < n.toNat; omega)
  · have hsize : (toWordSize n * 32).toNat = wordsFor n * 32 := by
      rw [UInt64.toNat_mul, toWordSize_toNat]
      change (n.toNat + 31) / 32 * 32 % 2^64 = _
      unfold wordsFor
      omega
    simp only [hsize]
    rw [if_neg]
    unfold wordsFor
    omega

theorem memoryGasCost_growing (hlim : n.toNat ≤ 0xffffffffe0) (h : n.toNat > m.len) :
    memoryGasCost m n = (.ok (newTotalFee n - m.lastGasCost),
      { m with lastGasCost := newTotalFee n }) := by
  unfold memoryGasCost
  split_ifs with hz hgt
  · subst hz
    exact absurd h (Nat.not_lt_zero _)
  · exact absurd (UInt64.lt_iff_toNat_lt.mp hgt) (by change ¬ 0xffffffffe0 < n.toNat; omega)
  · have hsize : (toWordSize n * 32).toNat = wordsFor n * 32 := by
      rw [UInt64.toNat_mul, toWordSize_toNat]
      change (n.toNat + 31) / 32 * 32 % 2^64 = _
      unfold wordsFor
      omega
    simp only [hsize]
    rw [if_pos]
    · rfl
    · unfold wordsFor
      omega

/-- For a metered memory the price is exact but for the sizes whose square does not fit. -/
theorem pricedExactly_iff (hm : m.Metered) : PricedExactly m n ↔
    n.toNat ≤ 0x1fffffffe0 ∨ n.toNat > 0xffffffffe0 ∨ n.toNat ≤ m.len := by
  have halign := hm.aligned
  by_cases hlim : n.toNat ≤ 0xffffffffe0
  · by_cases hgrow : n.toNat ≤ m.len
    · have hle : wordsFor n ≤ m.len / 32 := by
        unfold wordsFor
        omega
      simp only [PricedExactly, memoryGasCost_within halign hlim hgrow, Nat.max_eq_left hle]
      simp [hgrow]
    · have hle : m.len / 32 ≤ wordsFor n := by
        unfold wordsFor
        omega
      have hwords : wordsFor n < 2^32 ↔ n.toNat ≤ 0x1fffffffe0 := by
        unfold wordsFor
        omega
      simp only [PricedExactly, memoryGasCost_growing hlim (Nat.lt_of_not_le hgrow),
        Nat.max_eq_right hle]
      have htotal := newTotalFee_toNat hlim
      have hpaid := hm.paid
      have hmono := memoryFee_mono hle
      have hlt := memoryFee_lt hlim
      have hbound := (newTotalFee n).toNat_lt
      have heq := wrappedFee_eq_iff (wordsFor n)
      rw [UInt64.toNat_sub]
      omega
  · simp only [PricedExactly, memoryGasCost_refused (Nat.lt_of_not_le hlim)]
    simp
    omega

end Price

/-- The fee that the next instruction of a frame pays for memory. -/
def stepFee (env : Env) (evm : Evm) (fr : Frame) : Nat :=
  match fetch env env.jumpTable evm fr with
  | some (.ok f) =>
    match (memoryGasCost fr.mem f.memorySize).1 with
    | .ok fee => fee.toNat
    | .error _ => 0
  | _ => 0

/-- The next instruction asks for less than 2^32 words, or for so much that it is refused. -/
def StepFits (env : Env) (evm : Evm) (fr : Frame) : Prop :=
  match fetch env env.jumpTable evm fr with
  | some (.ok f) => f.memorySize.toNat ≤ 0x1fffffffe0 ∨ f.memorySize.toNat > 0xffffffffe0
  | _ => True

instance (env : Env) (evm : Evm) (fr : Frame) : Decidable (StepFits env evm fr) := by
  unfold StepFits
  split <;> infer_instance

theorem StepFits.size {env : Env} {evm : Evm} {fr : Frame} {op : OpCode} {n : UInt64}
    (h : StepFits env evm fr) (ready : Ready env evm fr op n) :
    n.toNat ≤ 0x1fffffffe0 ∨ n.toNat > 0xffffffffe0 := by
  simpa only [StepFits, ready.fetched] using h

/-- An instruction that fits pays exactly for the memory it expands to. -/
theorem charged_metered {env : Env} {evm evm' : Evm} {fr fr' : Frame} {op : OpCode} {n : UInt64}
    (hm : env.disableGasMetering = false) (hmem : fr.mem.Metered) (fits : StepFits env evm fr)
    (ready : Ready env evm fr op n)
    (charged : charge env (operation op) (evm.attempting fr op) fr n = some (true, evm', fr')) :
    (fr'.expand n).mem.Metered ∧
      memoryFee (fr.mem.len / 32) + stepFee env evm fr =
        memoryFee ((fr'.expand n).mem.len / 32) := by
  obtain ⟨fee, cost, hfee, -, -⟩ := charge_paid hm ready.size charged
  have hlim := charged_bound hm ready.size charged
  have hlen := charged_len charged
  have hmod := memorySizeFor_mod ready.size
  have halign := hmem.aligned
  have hwords : max (fr.mem.len / 32) (wordsFor n) = (fr'.expand n).mem.len / 32 := by
    unfold wordsFor
    omega
  have hexact : PricedExactly fr.mem n := (pricedExactly_iff hmem).mpr <| by
    have := fits.size ready
    omega
  have hstep : stepFee env evm fr = fee.toNat := by
    simp only [stepFee, ready.fetched, hfee]
  simp only [PricedExactly, hfee, hwords] at hexact
  refine ⟨⟨by omega, ?_⟩, by omega⟩
  have hlast : (fr'.expand n).mem.lastGasCost = fr'.mem.lastGasCost := by
    unfold Frame.expand Memory.resize
    split_ifs <;> rfl
  rw [hlast, ← hwords]
  by_cases hgrow : n.toNat ≤ fr.mem.len
  · rw [memoryGasCost_within halign hlim hgrow] at hfee
    rw [← (Prod.mk.inj hfee).2, hmem.paid, Nat.max_eq_left]
    unfold wordsFor
    omega
  · rw [memoryGasCost_growing hlim (Nat.lt_of_not_le hgrow)] at hfee
    rw [← (Prod.mk.inj hfee).2, newTotalFee_toNat hlim, Nat.max_eq_right]
    · rw [wrappedFee_eq_iff, wordsFor]
      have := fits.size ready
      omega
    · unfold wordsFor
      omega

theorem step_metered {env : Env} {run : RunFn} {evm evm' : Evm} {fr fr' : Frame}
    (hm : env.disableGasMetering = false) (hmem : fr.mem.Metered) (fits : StepFits env evm fr)
    (h : step env env.jumpTable run evm fr = .ok (.next evm' fr')) :
    fr'.mem.Metered ∧
      memoryFee (fr.mem.len / 32) + stepFee env evm fr = memoryFee (fr'.mem.len / 32) := by
  generalize hs : StepResult.next evm' fr' = s at h
  have hkept : ∀ m m' : Memory, m'.len = m.len → m'.lastGasCost = m.lastGasCost → m.Metered →
      m'.Metered := by
    intro m m' hlen hlast hmet
    exact ⟨hlen ▸ hmet.aligned, by rw [hlast, hlen]; exact hmet.paid⟩
  cases step_cases h with
  | rejected => cases hs
  | unpaid => cases hs
  | @simple op n evm1 fr1 res ready hc charged executed =>
    obtain ⟨-, rfl⟩ := finish_eq_next hs.symm
    obtain ⟨hmet, hfee⟩ := charged_metered hm hmem fits ready charged
    have hspec := execute_simple hc executed
    have hsame : res.frame.mem.len = (fr1.expand n).mem.len ∧
        res.frame.mem.lastGasCost = (fr1.expand n).mem.lastGasCost := by
      cases hj : op.isJump with
      | true => rw [hspec.mem hj]; exact ⟨rfl, rfl⟩
      | false => exact ⟨(hspec.kept hj).len, (hspec.kept hj).lastGasCost⟩
    exact ⟨hkept _ _ hsame.1 hsame.2 hmet, by rw [hfee]; exact congrArg _ (hsame.1 ▸ rfl)⟩
  | @call op n evm1 fr1 i r res ready hc charged invocation invoked resumed =>
    obtain ⟨-, rfl⟩ := finish_eq_next hs.symm
    obtain ⟨hmet, hfee⟩ := charged_metered hm hmem fits ready charged
    have hspec := OpCode.resume_spec resumed
    exact ⟨hkept _ _ hspec.len hspec.lastGasCost hmet, by rw [hfee]; exact congrArg _ (hspec.len ▸ rfl)⟩

theorem iterates_metered {env : Env} {run : RunFn} {evm₀ evm : Evm} {fr₀ fr : Frame}
    {fees : List Nat} (hm : env.disableGasMetering = false) (h₀ : fr₀.mem = Memory.new)
    (h : Iterates env run (StepFits env) (stepFee env) evm₀ fr₀ fees evm fr) :
    fr.mem.Metered ∧ fees.sum = memoryFee (fr.mem.len / 32) := by
  induction h with
  | start =>
    rw [h₀]
    exact ⟨⟨rfl, rfl⟩, rfl⟩
  | step _ fits next ih =>
    obtain ⟨hmet, hfee⟩ := step_metered hm ih.1 fits next
    refine ⟨hmet, ?_⟩
    rw [List.sum_append, ih.2, List.sum_singleton, hfee]

/-- The price of memory is exact for every size below 2^32 words and for no larger one that is not
refused, and as long as all instructions of a frame fit, it has paid exactly for the memory that
it has, by whatever steps it got there. -/
theorem memoryGasCost_exact_iff (m : Memory) (n : UInt64) (hmem : m.Metered) :
    (PricedExactly m n ↔ n.toNat ≤ 0x1fffffffe0 ∨ n.toNat > 0xffffffffe0 ∨ n.toNat ≤ m.len) ∧
    ∀ (env : Env) (run : RunFn) (evm₀ evm : Evm) (c : Contract) (input : Bytes) (fr : Frame)
      (fees : List Nat), env.disableGasMetering = false →
      Iterates env run (StepFits env) (stepFee env) evm₀ (Frame.start c input) fees evm fr →
      fr.mem.Metered ∧ fees.sum = memoryFee (fr.mem.len / 32) ∧
      ∀ op n evm' fr', StepFits env evm fr → Ready env evm fr op n →
        charge env (operation op) (evm.attempting fr op) fr n = some (true, evm', fr') →
        fees.sum + stepFee env evm fr = memoryFee ((fr'.expand n).mem.len / 32) := by
  refine ⟨pricedExactly_iff hmem, ?_⟩
  intro env run evm₀ evm c input fr fees hm h
  obtain ⟨hmet, htotal⟩ := iterates_metered hm rfl h
  refine ⟨hmet, htotal, fun op n evm' fr' fits ready charged => ?_⟩
  rw [htotal]
  exact (charged_metered hm hmet fits ready charged).2

/-- Two words in one step, and the frame that has expanded its memory to them. -/
theorem memoryGasCost_exact_iff_twoWords : PricedExactly Memory.new 64 ∧ ∃ fees evm fr,
    Iterates sampleEnv (interpreterRun sampleEnv sampleEnv.jumpTable 0) (StepFits sampleEnv)
      (stepFee sampleEnv) (Evm.new StateDB.new) (Frame.start storeAndLoad [1, 2, 3]) fees evm fr ∧
    fr.mem.len = 64 ∧ fees.sum = memoryFee (fr.mem.len / 32) := by
  have hnew := memoryGasCost_exact_iff Memory.new 64 ⟨rfl, rfl⟩
  refine ⟨hnew.1.mpr (Or.inl (by decide)), ?_⟩
  have hrun : ((iterate sampleEnv (interpreterRun sampleEnv sampleEnv.jumpTable 0)
      (StepFits sampleEnv) (stepFee sampleEnv) (Evm.new StateDB.new)
      (Frame.start storeAndLoad [1, 2, 3]) 4).any fun x => x.2.2.mem.len = 64) = true := by
    decide +kernel
  obtain ⟨⟨fees, evm, fr⟩, hx, hp⟩ := Option.any_eq_true .. |>.mp hrun
  have h := iterate_iterates hx
  exact ⟨fees, evm, fr, h, of_decide_eq_true hp,
    (hnew.2 _ _ _ _ _ _ _ _ rfl h).2.1⟩

/-- The first expansion whose square wraps, to 2^32 words: the quadratic part is lost. -/
theorem memoryGasCost_wraps :
    (memoryGasCost Memory.new 0x2000000000).1 = .ok 12884901888 ∧
      memoryFee (2^32) = 12884901888 + 2^55 ∧ ¬ PricedExactly Memory.new 0x2000000000 := by
  refine ⟨by decide, by decide, ?_⟩
  rw [pricedExactly_iff ⟨rfl, rfl⟩]
  decide

end MiniEvm
