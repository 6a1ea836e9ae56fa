import MiniEvm.Vm.Analysis

namespace MiniEvm

open Math

/-- The bytes of data that follow an opcode. -/
def pushSize (op : UInt8) : Nat := if isPush op then (op - 0x60 + 1).toNat else 0

theorem pushSize_le (op : UInt8) : pushSize op ≤ 32 := by
  unfold pushSize
  split_ifs with h
  · simp only [isPush, Bool.decide_and, Bool.and_eq_true, decide_eq_true_eq,
      UInt8.le_iff_toNat_le] at h
    obtain ⟨hlo, hhi⟩ := h
    change 0x60 ≤ op.toNat at hlo
    change op.toNat ≤ 0x7f at hhi
    have hsub : (op - 0x60).toNat = op.toNat - 0x60 :=
      UInt8.toNat_sub_of_le _ _ (UInt8.le_iff_toNat_le.mpr hlo)
    rw [UInt8.toNat_add, hsub]
    change (op.toNat - 0x60 + 1) % 256 ≤ 32
    omega
  · omega

/-- Where the instruction after the one at `pc` starts. -/
def nextPc (code : Bytes) (pc : Nat) : Nat := pc + 1 + pushSize (code.getD pc 0)

/-- An instruction starts at `d`. -/
def Boundary (code : Bytes) (d : Nat) : Prop := ∃ i, (nextPc code)^[i] 0 = d

namespace Boundary

variable {code : Bytes} {p q : Nat}

theorem zero (code : Bytes) : Boundary code 0 := ⟨0, rfl⟩

theorem next (h : Boundary code p) : Boundary code (nextPc code p) := by
  obtain ⟨i, rfl⟩ := h
  exact ⟨i + 1, Function.iterate_succ_apply' ..⟩

theorem lt_nextPc (code : Bytes) (pc : Nat) : pc < nextPc code pc := by
  unfold nextPc
  omega

theorem iterate_mono {i j : Nat} (h : i ≤ j) : (nextPc code)^[i] 0 ≤ (nextPc code)^[j] 0 := by
  induction h with
  | refl => exact le_refl _
  | step _ ih =>
    rw [Function.iterate_succ_apply']
    exact ih.trans (lt_nextPc ..).le

/-- No instruction starts inside another one. -/
theorem nextPc_le (hp : Boundary code p) (hq : Boundary code q) (h : p < q) :
    nextPc code p ≤ q := by
  obtain ⟨i, rfl⟩ := hp
  obtain ⟨j, rfl⟩ := hq
  have hij : i < j := by
    by_contra hle
    exact absurd (iterate_mono (Nat.le_of_not_lt hle)) (Nat.not_le.mpr h)
  rw [← Function.iterate_succ_apply' (nextPc code)]
  exact iterate_mono hij

end Boundary

namespace Bitvec

/-- Whether position `pos` is marked. -/
def bit (bits : Bitvec) (pos : Nat) : Bool := (bits.getD (pos / 8) 0).toNat.testBit (7 - pos % 8)

theorem and_shiftMask_eq_zero (b : UInt8) (k : Nat) (hk : k < 8) :
    (b &&& shiftMask 0x80 k = 0) ↔ b.toNat.testBit (7 - k) = false := by
  have h : ∀ b : Fin 256, ∀ k : Fin 8,
      (UInt8.ofNat b &&& shiftMask 0x80 k = 0) ↔ (UInt8.ofNat b).toNat.testBit (7 - k) = false := by
    decide +kernel
  have hb := h ⟨b.toNat, b.toNat_lt⟩ ⟨k, hk⟩
  simpa using hb

theorem shiftMask_testBit (k j : Nat) (hk : k < 8) (hj : j < 8) :
    (shiftMask 0x80 k).toNat.testBit (7 - j) = decide (j = k) := by
  have h : ∀ k j : Fin 8, (shiftMask 0x80 k).toNat.testBit (7 - j) = decide (j = k) := by decide
  simpa [Fin.ext_iff] using h ⟨k, hk⟩ ⟨j, hj⟩

theorem shiftMask_full_testBit (k j : Nat) (hk : k < 8) (hj : j < 8) :
    (shiftMask 0xff k).toNat.testBit (7 - j) = decide (k ≤ j) ∧
      (~~~(shiftMask 0xff k)).toNat.testBit (7 - j) = decide (j < k) := by
  have h : ∀ k j : Fin 8, (shiftMask 0xff k).toNat.testBit (7 - j) = decide (k ≤ j) ∧
      (~~~(shiftMask 0xff k)).toNat.testBit (7 - j) = decide (j < k) := by decide
  simpa [Fin.le_def, Fin.lt_def] using h ⟨k, hk⟩ ⟨j, hj⟩

/-- The check of a position within the bitmap. -/
theorem codeSegment_eq {bits : Bitvec} {pos : Nat} (h : pos / 8 < bits.length) :
    codeSegment bits pos = some (!bits.bit pos) := by
  unfold codeSegment
  rw [if_neg (by omega), List.getElem?_eq_getElem h, Option.map_some]
  congr 1
  have hbit : bits.bit pos = (bits.get ⟨pos / 8, h⟩).toNat.testBit (7 - pos % 8) := by
    simp [bit, List.getD_eq_getElem?_getD, List.getElem?_eq_getElem h]
  rw [hbit]
  have hz := and_shiftMask_eq_zero (bits.get ⟨pos / 8, h⟩) (pos % 8) (by omega)
  cases htest : (bits.get ⟨pos / 8, h⟩).toNat.testBit (7 - pos % 8) with
  | false => simpa using hz.mpr htest
  | true =>
    have hne : ¬ (bits.get ⟨pos / 8, h⟩ &&& shiftMask 0x80 (pos % 8) = 0) := by
      rw [hz, htest]
      decide
    simpa using hne

/-- `bits'` is `bits` with the positions from `lo` up to `hi` marked as well. -/
structure Marks (bits : Bitvec) (lo hi : Nat) (bits' : Bitvec) : Prop where
  length : bits'.length = bits.length
  bit : ∀ q, bits'.bit q = (bits.bit q || decide (lo ≤ q ∧ q < hi))

theorem Marks.trans {bits bits' bits'' : Bitvec} {lo mid hi : Nat} (h : Marks bits lo mid bits')
    (h' : Marks bits' mid hi bits'') (hlo : lo ≤ mid) (hhi : mid ≤ hi) : Marks bits lo hi bits'' := by
  refine ⟨h'.length.trans h.length, fun q => ?_⟩
  rw [h'.bit, h.bit, Bool.or_assoc]
  congr 1
  rw [← Bool.decide_or]
  congr 1
  apply propext
  omega

theorem orAt_bit {bits : Bitvec} {i : Nat} (mask : UInt8) (h : i < bits.length) :
    ∃ bits', orAt bits i mask = some bits' ∧ bits'.length = bits.length ∧
      ∀ q, bits'.bit q = (bits.bit q || (decide (q / 8 = i) && mask.toNat.testBit (7 - q % 8))) := by
  refine ⟨_, if_pos h, by simp, fun q => ?_⟩
  simp only [bit, List.getD_eq_getElem?_getD, List.getElem?_modify]
  by_cases hq : q / 8 = i
  · subst hq
    simp [List.getElem?_eq_getElem h, UInt8.toNat_or]
  · have hne : ¬ i = q / 8 := fun h => hq h.symm
    simp [hq, hne]

theorem set_marks {bits : Bitvec} {pos : Nat} (h : pos / 8 < bits.length) :
    ∃ bits', set bits pos = some bits' ∧ Marks bits pos (pos + 1) bits' := by
  obtain ⟨bits', hset, hlen, hbit⟩ := orAt_bit (shiftMask 0x80 (pos % 8)) h
  refine ⟨bits', hset, hlen, fun q => ?_⟩
  rw [hbit, shiftMask_testBit _ _ (by omega) (by omega), ← Bool.decide_and]
  congr 2
  apply propext
  omega

theorem set8_marks {bits : Bitvec} {pos : Nat} (h : pos / 8 + 1 < bits.length) :
    ∃ bits', set8 bits pos = some bits' ∧ Marks bits pos (pos + 8) bits' := by
  obtain ⟨b₁, h₁, hlen₁, hbit₁⟩ := orAt_bit (shiftMask 0xff (pos % 8))
    (show pos / 8 < bits.length by omega)
  obtain ⟨b₂, h₂, hlen₂, hbit₂⟩ := orAt_bit (~~~(shiftMask 0xff (pos % 8)))
    (show pos / 8 + 1 < b₁.length by omega)
  refine ⟨b₂, by rw [set8, h₁, Option.bind_some, h₂], hlen₂.trans hlen₁, fun q => ?_⟩
  obtain ⟨hfull, hrest⟩ := shiftMask_full_testBit (pos % 8) (q % 8) (by omega) (by omega)
  rw [hbit₂, hbit₁, hfull, hrest, Bool.or_assoc]
  congr 1
  rw [← Bool.decide_and, ← Bool.decide_and, ← Bool.decide_or]
  congr 1
  apply propext
  omega

end Bitvec

/-- The inner loops mark `numbits` positions. -/
theorem setBits_marks (numbits pc : Nat) (bits : Bitvec) (h : (pc + numbits) / 8 < bits.length) :
    ∃ bits', setBits numbits pc bits = some (pc + numbits, bits') ∧
      Bitvec.Marks bits pc (pc + numbits) bits' := by
  induction numbits using Nat.strong_induction_on generalizing pc bits with
  | h numbits ih =>
    by_cases hbig : 8 ≤ numbits
    · obtain ⟨n, rfl⟩ : ∃ n, numbits = n + 8 := ⟨numbits - 8, by omega⟩
      obtain ⟨b₁, h₁, m₁⟩ := Bitvec.set8_marks (show pc / 8 + 1 < bits.length by omega)
      obtain ⟨b₂, h₂, m₂⟩ := ih n (by omega) (pc + 8) b₁ (by rw [m₁.length]; omega)
      have heq : pc + 8 + n = pc + (n + 8) := by omega
      rw [heq] at h₂ m₂
      refine ⟨b₂, ?_, m₁.trans m₂ (by omega) (by omega)⟩
      rw [setBits, h₁, Option.bind_some, h₂]
    · cases numbits with
      | zero =>
        refine ⟨bits, by rw [setBits]; rfl, rfl, fun q => ?_⟩
        have hno : ¬ (pc ≤ q ∧ q < pc + 0) := by omega
        rw [decide_eq_false hno, Bool.or_false]
      | succ n =>
        obtain ⟨b₁, h₁, m₁⟩ := Bitvec.set_marks (show pc / 8 < bits.length by omega)
        obtain ⟨b₂, h₂, m₂⟩ := ih n (by omega) (pc + 1) b₁ (by rw [m₁.length]; omega)
        have heq : pc + 1 + n = pc + (n + 1) := by omega
        rw [heq] at h₂ m₂
        refine ⟨b₂, ?_, m₁.trans m₂ (by omega) (by omega)⟩
        rw [setBits, h₁, Option.bind_some, h₂]
        intro m hm
        omega

/-- What the outer loop has done when it is at `pc`: exactly the data before `pc` is marked. -/
structure Scanned (code : Bytes) (pc : Nat) (bits : Bitvec) : Prop where
  length : bits.length = code.length / 8 + 1 + 4
  boundary : Boundary code pc
  bit : ∀ q, bits.bit q = true ↔ q < pc ∧ ¬ Boundary code q

theorem Scanned.start (code : Bytes) :
    Scanned code 0 (List.replicate (code.length / 8 + 1 + 4) 0) where
  length := List.length_replicate
  boundary := .zero code
  bit q := by
    simp only [Bitvec.bit, List.getD_eq_getElem?_getD, List.getElem?_replicate]
    split_ifs <;> simp

/-- The data of one instruction is marked. -/
theorem Scanned.next {code : Bytes} {pc : Nat} {bits bits' : Bitvec} (h : Scanned code pc bits)
    (m : Bitvec.Marks bits (pc + 1) (nextPc code pc) bits') :
    Scanned code (nextPc code pc) bits' where
  length := m.length.trans h.length
  boundary := h.boundary.next
  bit q := by
    rw [m.bit, Bool.or_eq_true, h.bit, decide_eq_true_eq]
    have hlt := Boundary.lt_nextPc code pc
    constructor
    · rintro (⟨hq, hb⟩ | ⟨hlo, hhi⟩)
      · exact ⟨by omega, hb⟩
      · exact ⟨hhi, fun hb => absurd (h.boundary.nextPc_le hb (by omega)) (by omega)⟩
    · rintro ⟨hq, hb⟩
      by_cases hpc : q < pc
      · exact Or.inl ⟨hpc, hb⟩
      · refine Or.inr ⟨?_, hq⟩
        by_contra hle
        obtain rfl : q = pc := by omega
        exact hb h.boundary

/-- The outer loop ends behind the code, for every code. -/
theorem codeBitmapLoop_scanned {code : Bytes} {rounds pc : Nat} {bits : Bitvec}
    (h : Scanned code pc bits) (hr : code.length ≤ pc + rounds) :
    ∃ pc' bits', codeBitmapLoop code rounds pc bits = some bits' ∧ Scanned code pc' bits' ∧
      code.length ≤ pc' := by
  induction rounds generalizing pc bits with
  | zero => exact ⟨pc, bits, rfl, h, hr⟩
  | succ rounds ih =>
    unfold codeBitmapLoop
    by_cases hpc : pc < code.length
    · have hget : code.getD pc 0 = code.get ⟨pc, hpc⟩ := by
        simp [List.getD_eq_getElem?_getD, List.getElem?_eq_getElem hpc]
      have hsize := pushSize_le (code.get ⟨pc, hpc⟩)
      have hlt := Boundary.lt_nextPc code pc
      have hbits := h.length
      rw [List.getElem?_eq_getElem hpc]
      change ∃ pc' bits', (if isPush (code.get ⟨pc, hpc⟩) = true then _ else _) = some bits' ∧ _
      split_ifs with hpush
      · have hnext : nextPc code pc = pc + 1 + (code.get ⟨pc, hpc⟩ - 0x60 + 1).toNat := by
          rw [nextPc, hget, pushSize, if_pos hpush]
        rw [pushSize, if_pos hpush] at hsize
        obtain ⟨b, hset, m⟩ := setBits_marks (code.get ⟨pc, hpc⟩ - 0x60 + 1).toNat (pc + 1) bits
          (by omega)
        rw [← hnext] at hset m
        obtain ⟨pc', bits', hloop, hs, hend⟩ := ih (h.next m) (by omega)
        refine ⟨pc', bits', ?_, hs, hend⟩
        change (setBits (code.get ⟨pc, hpc⟩ - 0x60 + 1).toNat (pc + 1) bits).bind _ = _
        rw [hset]
        exact hloop
      · have hnext : nextPc code pc = pc + 1 := by
          rw [nextPc, hget, pushSize, if_neg hpush]
        have m : Bitvec.Marks bits (pc + 1) (nextPc code pc) bits := by
          refine ⟨rfl, fun q => ?_⟩
          have hno : ¬ (pc + 1 ≤ q ∧ q < nextPc code pc) := by omega
          rw [decide_eq_false hno, Bool.or_false]
        have hs := h.next m
        rw [hnext] at hs
        exact ih hs (by omega)
    · rw [List.getElem?_eq_none (by omega)]
      exact ⟨pc, bits, rfl, h, by omega⟩

/-- The bitmap of a code: long enough, and exactly the data is marked. -/
structure BitmapOf (code : Bytes) (bits : Bitvec) : Prop where
  length : bits.length = code.length / 8 + 1 + 4
  bit : ∀ q < code.length, bits.bit q = true ↔ ¬ Boundary code q

theorem codeBitmap_spec (code : Bytes) : ∃ bits, codeBitmap code = some bits ∧ BitmapOf code bits := by
  obtain ⟨pc, bits, hloop, hs, hend⟩ :=
    codeBitmapLoop_scanned (Scanned.start code) (by omega : code.length ≤ 0 + code.length)
  refine ⟨bits, hloop, hs.length, fun q hq => ?_⟩
  rw [hs.bit]
  have hlt : q < pc := by omega
  simp [hlt]

theorem Destinations.analyse_spec {d : Destinations} {codehash : Hash} {code : Bytes}
    (hcache : ∀ m, d codehash = some m → BitmapOf code m) :
    ∃ m d', d.analyse codehash code = some (m, d') ∧ BitmapOf code m := by
  unfold analyse
  cases hd : d codehash with
  | some m => exact ⟨m, d, rfl, hcache m hd⟩
  | none =>
    obtain ⟨bits, hbits, hof⟩ := codeBitmap_spec code
    rw [hbits]
    exact ⟨bits, _, rfl, hof⟩

/-- A destination that a jump may go to. -/
def ValidDest (code : Bytes) (pos : Int) : Prop :=
  pos < code.length ∧ code[pos.toNat]? = some 0x5b ∧ Boundary code pos.toNat

/-- With the bitmap of the code itself the check is exact and stays inside the bitmap. -/
theorem Destinations.has_eq {d : Destinations} {codehash : Hash} {code : Bytes} {pos : Int}
    (hcache : ∀ m, d codehash = some m → BitmapOf code m) (h0 : 0 ≤ pos)
    (hlen : code.length ≤ 2^62) : ∃ ok d', d.has codehash code pos = some (ok, d') ∧
      (ok = true ↔ ValidDest code pos) := by
  have hbits := bitLen_le_iff pos 62
  have hu : pos < 2^62 → (uint64 pos).toNat = pos.toNat := by
    intro hlt
    rw [toNat_uint64]
    omega
  unfold has
  simp only
  by_cases hout : bitLen pos ≥ 63 ∨ (uint64 pos).toNat ≥ code.length
  · rw [if_pos hout]
    refine ⟨false, d, rfl, ?_⟩
    simp only [Bool.false_eq_true, false_iff]
    rintro ⟨hlt, -, -⟩
    have := hu (by omega)
    omega
  · rw [if_neg hout]
    have hpos : pos < 2^62 := by omega
    rw [hu hpos] at hout ⊢
    have hin : pos.toNat < code.length := by omega
    obtain ⟨m, d', hm, hof⟩ := analyse_spec hcache
    have hseg : m.codeSegment pos.toNat = some (!m.bit pos.toNat) := by
      apply Bitvec.codeSegment_eq
      rw [hof.length]
      omega
    have hbit := hof.bit pos.toNat hin
    rw [hm, Option.bind_some]
    simp only [hseg]
    by_cases hop : code[pos.toNat]? = some 0x5b
    · rw [if_pos hop]
      refine ⟨!m.bit pos.toNat, d', rfl, ?_⟩
      rw [Bool.not_eq_true', ← Bool.not_eq_true, hbit, not_not, ValidDest]
      exact ⟨fun hb => ⟨by omega, hop, hb⟩, fun hv => hv.2.2⟩
    · rw [if_neg hop]
      refine ⟨false, d', rfl, ?_⟩
      simp only [Bool.false_eq_true, false_iff]
      exact fun hv => hop hv.2.1

end MiniEvm
