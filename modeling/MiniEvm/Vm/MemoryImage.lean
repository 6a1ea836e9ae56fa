import MiniEvm.Vm.Price

namespace MiniEvm

open Math Framework

namespace Memory

/-- The infinite array that a memory stands for. -/
def image (m : Memory) : Image UInt8 := Image.ofList 0 m.store

theorem image_resize (m : Memory) (size : UInt64) : (m.resize size).image = m.image := by
  unfold resize
  split_ifs
  · exact Image.ofList_append_replicate 0 m.store _
  · rfl

theorem resize_len (m : Memory) (size : UInt64) : (m.resize size).len = max m.len size.toNat := by
  unfold resize
  split_ifs
  · simp only [len, List.length_append, List.length_replicate]
    omega
  · omega

/-- A covered region is read from the image, and no conversion changes its bounds. -/
theorem get_eq {m : Memory} {off l : Int} {n : Nat} (h : Below n (off, l)) (hn : n ≤ m.len)
    (hlim : n < 2^63) :
    m.get (int64 off) (int64 l) = some (m.image.read off.toNat l.toNat) := by
  rcases h with hl | ⟨h0, h1, h2⟩
  · have hl : l = 0 := hl
    subst hl
    simp [get, int64, Image.read]
  · simp only at h0 h1 h2
    have hoff : int64 off = off := int64_small h0 (by omega)
    have hlen : int64 l = l := int64_small (by omega) (by omega)
    have hsum : int64 (off + l) = off + l := int64_small (by omega) (by omega)
    have hhi : (off + l).toNat = off.toNat + l.toNat := by omega
    unfold get
    rw [hoff, hlen, if_neg (by omega), if_pos (by omega)]
    simp only [hsum]
    rw [if_pos ⟨h0, by omega⟩, hhi]
    exact Image.slice_eq_read 0 m.store _ _ (by change _ ≤ m.len; omega)

/-- A covered region is written in the image; of a longer value only the first bytes are used. -/
theorem set_eq {m : Memory} {off l : Int} {n : Nat} (value : Bytes) (h : Below n (off, l))
    (hn : n ≤ m.len) (hlim : n < 2^64) :
    ∃ m', m.set (uint64 off) (uint64 l) value = some m' ∧
      m'.image = m.image.write off.toNat (value.take l.toNat) := by
  rcases h with hl | ⟨h0, h1, h2⟩
  · have hl : l = 0 := hl
    subst hl
    exact ⟨m, by simp [set, uint64], by simp⟩
  · simp only at h0 h1 h2
    have hoff : (uint64 off).toNat = off.toNat := by rw [toNat_uint64]; omega
    have hlen : (uint64 l).toNat = l.toNat := by rw [toNat_uint64]; omega
    have hsum : (uint64 off + uint64 l).toNat = off.toNat + l.toNat := by
      rw [UInt64.toNat_add, hoff, hlen]
      omega
    have hpos : uint64 l > 0 := by
      rw [gt_iff_lt, UInt64.lt_iff_toNat_lt, hlen]
      change 0 < _
      omega
    have hreg : off.toNat + l.toNat ≤ m.store.length := by
      change _ ≤ m.len
      omega
    unfold set
    rw [hlen, if_neg (by omega), if_pos hpos, hoff, hsum, Image.slice_eq_read 0 m.store _ _ hreg]
    refine ⟨_, rfl, ?_⟩
    simp only [Image.read_length, image]
    apply Image.ofList_overwrite
    rw [List.length_take]
    omega

/-- A region inside the store whose bounds fit the machine's integers. -/
def Covers (m : Memory) (r : Int × Int) : Prop := Below (min m.len (2^63 - 1)) r

theorem Covers.get {m : Memory} {off l : Int} (h : m.Covers (off, l)) :
    m.get (int64 off) (int64 l) = some (m.image.read off.toNat l.toNat) :=
  get_eq h (by omega) (by omega)

theorem Covers.set {m : Memory} {off l : Int} (value : Bytes) (h : m.Covers (off, l)) :
    ∃ m', m.set (uint64 off) (uint64 l) value = some m' ∧
      m'.image = m.image.write off.toNat (value.take l.toNat) :=
  set_eq value h (by omega) (by omega)

end Memory

/-- The limit of the memory price is a limit of the memory. -/
theorem charged_bound {op : OpCode} {env : Env} {evm evm' : Evm} {fr fr' : Frame} {n : UInt64}
    (hm : env.disableGasMetering = false)
    (hn : memorySizeFor (operation op) fr.stack = some (.ok n))
    (h : charge env (operation op) evm fr n = some (true, evm', fr')) :
    n.toNat ≤ 0xffffffffe0 := by
  obtain ⟨fee, cost, hfee, -, -⟩ := charge_paid hm hn h
  have hok : (memoryGasCost fr.mem n).1 = .ok fee := by rw [hfee]
  unfold memoryGasCost at hok
  split_ifs at hok with hz hlim
  · rw [hz]
    decide
  · rw [gt_iff_lt, UInt64.not_lt] at hlim
    exact UInt64.le_iff_toNat_le.mp hlim

theorem Frame.expand_len (fr : Frame) (n : UInt64) :
    (fr.expand n).mem.len = max fr.mem.len n.toNat := by
  unfold expand
  split_ifs with hn
  · exact fr.mem.resize_len n
  · have hz : n = 0 := by
      rw [gt_iff_lt, UInt64.not_lt, UInt64.le_iff_toNat_le] at hn
      exact UInt64.toNat_inj.mp (Nat.le_zero.mp hn)
    subst hz
    simp

theorem Frame.expand_image (fr : Frame) (n : UInt64) :
    (fr.expand n).mem.image = fr.mem.image := by
  unfold expand
  split_ifs
  · exact fr.mem.image_resize n
  · rfl

/-- After paying and expanding, every region of the instruction is covered. -/
theorem charged_covers {op : OpCode} {env : Env} {evm evm' : Evm} {fr fr' : Frame} {n : UInt64}
    (hm : env.disableGasMetering = false)
    (hn : memorySizeFor (operation op) fr.stack = some (.ok n)) (hst : fr.stack.Nonneg)
    (h : charge env (operation op) evm fr n = some (true, evm', fr')) :
    ∀ r ∈ op.regions (fr'.expand n).stack, (fr'.expand n).mem.Covers r := by
  intro r hr
  have hstack : (fr'.expand n).stack = fr.stack := by
    rw [Frame.expand_stack, (charge_spec h).stack]
  have hbound := charged_bound hm hn h
  rw [hstack] at hr
  apply (OpCode.regions_below hn hst r hr).mono
  rw [Frame.expand_len]
  omega

end MiniEvm
