import MiniEvm.Common.Word
import MiniEvm.Framework.Slice
import MiniEvm.Vm.Bitmap

namespace MiniEvm

open Math Framework

/-- Position `p` is one of the immediate bytes of a `PUSH` at an instruction boundary. -/
def PushData (code : Bytes) (p : Nat) : Prop :=
  ∃ b, Boundary code b ∧ isPush (code.getD b 0) = true ∧ b < p ∧ p ≤ b + pushSize (code.getD b 0)

/-- The last boundary that is not behind a position. -/
theorem Boundary.last (code : Bytes) (p : Nat) :
    ∃ b, Boundary code b ∧ b ≤ p ∧ p < nextPc code b := by
  induction p with
  | zero => exact ⟨0, .zero code, le_rfl, lt_nextPc code 0⟩
  | succ p ih =>
    obtain ⟨b, hb, hle, hlt⟩ := ih
    by_cases hnext : p + 1 < nextPc code b
    · exact ⟨b, hb, Nat.le_succ_of_le hle, hnext⟩
    · have heq : nextPc code b = p + 1 := by omega
      refine ⟨p + 1, heq ▸ hb.next, le_rfl, lt_nextPc code (p + 1)⟩

/-- Every position is either a boundary or push data. -/
theorem not_boundary_iff (code : Bytes) (p : Nat) : ¬ Boundary code p ↔ PushData code p := by
  constructor
  · intro hp
    obtain ⟨b, hb, hle, hlt⟩ := Boundary.last code p
    have hne : b ≠ p := by
      rintro rfl
      exact hp hb
    have hpush : isPush (code.getD b 0) = true := by
      by_contra hno
      have hsize : pushSize (code.getD b 0) = 0 := if_neg hno
      unfold nextPc at hlt
      omega
    unfold nextPc at hlt
    exact ⟨b, hb, hpush, by omega, by omega⟩
  · rintro ⟨b, hb, -, hlt, hle⟩ hp
    have hnext := hb.nextPc_le hp hlt
    unfold nextPc at hnext
    omega

/-- The cache that an analysis leaves holds the bitmap of its code. -/
theorem Destinations.analyse_cache {d d' : Destinations} {codehash : Hash} {code : Bytes} {m : Bitvec}
    (hcache : ∀ m, d codehash = some m → BitmapOf code m)
    (h : d.analyse codehash code = some (m, d')) :
    ∀ m, d' codehash = some m → BitmapOf code m := by
  unfold analyse at h
  cases hd : d codehash with
  | some m₀ =>
    rw [hd] at h
    cases h
    exact hcache
  | none =>
    obtain ⟨bits, hbits, hof⟩ := codeBitmap_spec code
    rw [hd, hbits] at h
    cases h
    intro m hm
    simp only at hm
    cases hm
    exact hof

theorem Destinations.has_cache {d d' : Destinations} {codehash : Hash} {code : Bytes} {pos : Int}
    {ok : Bool} (hcache : ∀ m, d codehash = some m → BitmapOf code m)
    (h : d.has codehash code pos = some (ok, d')) :
    ∀ m, d' codehash = some m → BitmapOf code m := by
  unfold has at h
  simp only at h
  by_cases hout : bitLen pos ≥ 63 ∨ (uint64 pos).toNat ≥ code.length
  · rw [if_pos hout] at h
    cases h
    exact hcache
  · rw [if_neg hout] at h
    obtain ⟨⟨m, d₁⟩, hm, hrest⟩ := Option.bind_eq_some_iff.mp h
    have hd₁ := analyse_cache hcache hm
    simp only at hrest
    split_ifs at hrest
    · obtain ⟨b, -, heq⟩ := Option.map_eq_some_iff.mp hrest
      cases heq
      exact hd₁
    · cases hrest
      exact hd₁

/-- A query with a cache that is right for the code, at a word of the stack. -/
theorem Destinations.has_word {d : Destinations} {codehash : Hash} {code : GoBytes}
    (hcache : ∀ m, d codehash = some m → BitmapOf code.bytes m) (dest : Word) :
    ∃ ok d', d.has codehash code.bytes dest.toNat = some (ok, d') ∧
      (ok = true ↔ ValidDest code.bytes dest.toNat) ∧
      ∀ m, d' codehash = some m → BitmapOf code.bytes m := by
  have hlen : code.bytes.length ≤ 2 ^ 62 := (code.length_lt (by decide)).le
  obtain ⟨ok, d', hhas, hok⟩ := has_eq hcache (Int.natCast_nonneg dest.toNat) hlen
  exact ⟨ok, d', hhas, hok, has_cache hcache hhas⟩

/-- The bitmap of a code is built inside its slice and marks the push data and nothing else. A query
with an empty cache, and any later one with the cache that it leaves, is exact. -/
theorem jumpdest_bitmap_exact (code : GoBytes) :
    (∃ bits, codeBitmap code.bytes = some bits ∧ bits.length = code.bytes.length / 8 + 5 ∧
      ∀ p < code.bytes.length, bits.bit p = true ↔ PushData code.bytes p) ∧
    ∀ (h : Hash) (dest : Word),
      ∃ ok d, Destinations.empty.has h code.bytes dest.toNat = some (ok, d) ∧
        (ok = true ↔ ValidDest code.bytes dest.toNat) ∧
        ∀ dest' : Word, ∃ ok' d', d.has h code.bytes dest'.toNat = some (ok', d') ∧
          (ok' = true ↔ ValidDest code.bytes dest'.toNat) := by
  constructor
  · obtain ⟨bits, hbits, hof⟩ := codeBitmap_spec code.bytes
    refine ⟨bits, hbits, hof.length, ?_⟩
    intro p hp
    rw [hof.bit p hp, not_boundary_iff]
  · intro h dest
    have hempty : ∀ m, Destinations.empty h = some m → BitmapOf code.bytes m := by
      intro m hm
      cases hm
    obtain ⟨ok, d, hhas, hok, hcache⟩ := Destinations.has_word hempty dest
    refine ⟨ok, d, hhas, hok, ?_⟩
    intro dest'
    obtain ⟨ok', d', hhas', hok', -⟩ := Destinations.has_word hcache dest'
    exact ⟨ok', d', hhas', hok'⟩

end MiniEvm
