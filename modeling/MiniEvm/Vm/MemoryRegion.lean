import MiniEvm.Math.Image
import MiniEvm.Vm.Step

namespace MiniEvm

open Math Framework

theorem checked_eq_ok {r : UInt64 × Bool} {a : UInt64} :
    checked r = .ok a ↔ r.2 = false ∧ r.1 = a := by
  unfold checked
  cases r.2 <;> simp

/-- The number of words, rounded up; the guard makes the sum safe. -/
theorem toWordSize_toNat (size : UInt64) : (toWordSize size).toNat = (size.toNat + 31) / 32 := by
  have hlt := size.toNat_lt
  have hmax : (maxUint64 - 31).toNat = 2^64 - 32 := by decide
  have hbig : (maxUint64 / 32 + 1).toNat = 2^59 := by decide
  unfold toWordSize
  split_ifs with h
  · rw [gt_iff_lt, UInt64.lt_iff_toNat_lt, hmax] at h
    rw [hbig]
    omega
  · rw [gt_iff_lt, UInt64.lt_iff_toNat_lt, hmax] at h
    have hsum : (size + 31).toNat = size.toNat + 31 := by
      rw [UInt64.toNat_add]
      change (size.toNat + 31) % 2^64 = _
      omega
    rw [UInt64.toNat_div, hsum]
    rfl

theorem safeMul_ok (x y : UInt64) (h : (safeMul x y).2 = false) :
    (safeMul x y).1.toNat = x.toNat * y.toNat := by
  unfold safeMul at h ⊢
  split_ifs at h ⊢ with hz
  · rcases hz with rfl | rfl <;> simp
  · have hx : 0 < x.toNat := by
      have hne : x.toNat ≠ 0 := fun h0 => hz (Or.inl (UInt64.toNat_inj.mp h0))
      omega
    simp only [gt_iff_lt, decide_eq_false_iff_not, UInt64.not_lt, UInt64.le_iff_toNat_le,
      UInt64.toNat_div] at h
    have hle : y.toNat * x.toNat ≤ 2^64 - 1 := (Nat.le_div_iff_mul_le hx).mp h
    have hcomm := Nat.mul_comm x.toNat y.toNat
    rw [UInt64.toNat_mul, Nat.mod_eq_of_lt (by omega)]

/-- The size of the memory in whole words, for an instruction that has one. -/
theorem memorySizeFor_ok {o : Operation} {f : MemorySizeFn} {st : Stack} {n : UInt64}
    (hf : o.memorySize = some f) (h : memorySizeFor o st = some (.ok n)) :
    ∃ v, f st = some v ∧ v.natAbs < 2^64 ∧ n.toNat = (v.natAbs + 31) / 32 * 32 := by
  simp only [memorySizeFor, hf] at h
  obtain ⟨v, hv, h⟩ := Option.map_eq_some_iff.mp h
  cases hm : checked (bigUint64 v) with
  | error e => simp [hm, bind, Except.bind] at h
  | ok m =>
    simp only [hm, bind, Except.bind] at h
    obtain ⟨hlen, rfl⟩ := checked_eq_ok.mp hm
    obtain ⟨hmul, rfl⟩ := checked_eq_ok.mp h
    have hbits : v.natAbs < 2^64 := by
      rw [← bitLen_le_iff]
      simpa [bigUint64] using hlen
    refine ⟨v, hv, hbits, ?_⟩
    rw [safeMul_ok _ _ hmul, toWordSize_toNat]
    simp only [bigUint64, toNat_uint64, Nat.mod_eq_of_lt hbits]
    rfl

theorem memorySizeFor_none {o : Operation} {st : Stack} {n : UInt64} (hf : o.memorySize = none)
    (h : memorySizeFor o st = some (.ok n)) : n = 0 := by
  simp only [memorySizeFor, hf] at h
  cases h
  rfl

/-- Every size is a whole number of words. -/
theorem memorySizeFor_mod {o : Operation} {st : Stack} {n : UInt64}
    (h : memorySizeFor o st = some (.ok n)) : n.toNat % 32 = 0 := by
  cases hf : o.memorySize with
  | none =>
    rw [memorySizeFor_none hf h]
    rfl
  | some f =>
    obtain ⟨v, -, -, hn⟩ := memorySizeFor_ok hf h
    omega

/-- Offset and length of the memory regions that an instruction reads or writes. -/
def OpCode.regions : OpCode → Stack → List (Int × Int)
  | SHA3, off :: l :: _ | RETURN, off :: l :: _ | REVERT, off :: l :: _ | LOG _, off :: l :: _ =>
    [(off, l)]
  | CALLDATACOPY, off :: _ :: l :: _ | CODECOPY, off :: _ :: l :: _
  | RETURNDATACOPY, off :: _ :: l :: _ => [(off, l)]
  | EXTCODECOPY, _ :: off :: _ :: l :: _ => [(off, l)]
  | MLOAD, off :: _ | MSTORE, off :: _ => [(off, 32)]
  | MSTORE8, off :: _ => [(off, 1)]
  | CREATE, _ :: off :: l :: _ => [(off, l)]
  | CALL, _ :: _ :: _ :: args :: argsLen :: out :: outLen :: _
  | CALLCODE, _ :: _ :: _ :: args :: argsLen :: out :: outLen :: _
  | DELEGATECALL, _ :: _ :: args :: argsLen :: out :: outLen :: _
  | STATICCALL, _ :: _ :: args :: argsLen :: out :: outLen :: _ =>
    [(args, argsLen), (out, outLen)]
  | _, _ => []

/-- No word is negative. -/
def Stack.Nonneg (st : Stack) : Prop := ∀ w ∈ st, 0 ≤ w

/-- A region that lies below `n`, unless it is empty. -/
def Below (n : Nat) (r : Int × Int) : Prop := r.2 = 0 ∨ 0 ≤ r.1 ∧ 0 < r.2 ∧ r.1 + r.2 ≤ n

theorem Below.mono {n m : Nat} {r : Int × Int} (h : Below n r) (hnm : n ≤ m) : Below m r := by
  rcases h with h | ⟨h0, h1, h2⟩
  · exact Or.inl h
  · exact Or.inr ⟨h0, h1, by omega⟩

theorem below_of_calcMemSize {off l : Int} {n : Nat} (h0 : 0 ≤ off) (h1 : 0 ≤ l)
    (h : calcMemSize off l ≤ n) : Below n (off, l) := by
  unfold calcMemSize at h
  split_ifs at h with hl
  · exact Or.inl hl
  · exact Or.inr ⟨h0, by omega, h⟩

section Covering

variable {o : Operation} {st : Stack} {n : UInt64}

theorem region_below {i j : Nat} {off l : Int} (hf : o.memorySize = some (memoryRegion i j))
    (h : memorySizeFor o st = some (.ok n)) (hst : st.Nonneg) (hi : st[i]? = some off)
    (hj : st[j]? = some l) : Below n.toNat (off, l) := by
  obtain ⟨v, hv, -, hn⟩ := memorySizeFor_ok hf h
  have heq : calcMemSize off l = v := by
    simpa [memoryRegion, Stack.back, hi, hj] using hv
  apply below_of_calcMemSize (hst _ (List.mem_of_getElem? hi)) (hst _ (List.mem_of_getElem? hj))
  omega

theorem fixed_below {off l : Int} (hf : o.memorySize = some (memoryFixed l)) (hl : 0 ≤ l)
    (h : memorySizeFor o st = some (.ok n)) (hst : st.Nonneg) (h0 : st[0]? = some off) :
    Below n.toNat (off, l) := by
  obtain ⟨v, hv, -, hn⟩ := memorySizeFor_ok hf h
  have heq : calcMemSize off l = v := by
    simpa [memoryFixed, Stack.back, h0] using hv
  apply below_of_calcMemSize (hst _ (List.mem_of_getElem? h0)) hl
  omega

theorem twoRegions_below {i j i' j' : Nat} {out outLen args argsLen : Int}
    (hf : o.memorySize = some (memoryTwoRegions i j i' j'))
    (h : memorySizeFor o st = some (.ok n)) (hst : st.Nonneg) (hi : st[i]? = some out)
    (hj : st[j]? = some outLen) (hi' : st[i']? = some args) (hj' : st[j']? = some argsLen) :
    Below n.toNat (args, argsLen) ∧ Below n.toNat (out, outLen) := by
  obtain ⟨v, hv, -, hn⟩ := memorySizeFor_ok hf h
  have heq : max (calcMemSize out outLen) (calcMemSize args argsLen) = v := by
    simpa [memoryTwoRegions, memoryRegion, Stack.back, hi, hj, hi', hj'] using hv
  constructor
  · apply below_of_calcMemSize (hst _ (List.mem_of_getElem? hi')) (hst _ (List.mem_of_getElem? hj'))
    omega
  · apply below_of_calcMemSize (hst _ (List.mem_of_getElem? hi)) (hst _ (List.mem_of_getElem? hj))
    omega

end Covering

/-- The computed size covers every region the instruction touches. -/
theorem OpCode.regions_below {op : OpCode} {st : Stack} {n : UInt64}
    (h : memorySizeFor (operation op) st = some (.ok n)) (hst : st.Nonneg) :
    ∀ r ∈ op.regions st, Below n.toNat r := by
  intro r hr
  unfold regions at hr
  split at hr
  case h_17 => cases hr
  case h_13 | h_14 | h_15 | h_16 =>
    have hb := twoRegions_below rfl h hst rfl rfl rfl rfl
    rcases List.mem_pair.mp hr with rfl | rfl
    · exact hb.1
    · exact hb.2
  all_goals rw [List.mem_singleton.mp hr]
  case h_9 | h_10 | h_11 => exact fixed_below rfl (by decide) h hst rfl
  all_goals exact region_below rfl h hst rfl rfl

/-- The stack check leaves enough words. -/
theorem Stack.length_of_validate {st : Stack} {pop push : Nat} (h : st.validate pop push = none) :
    pop ≤ st.length := by
  unfold validate at h
  split_ifs at h with hlen
  omega

/-- The stack check leaves the operands that the size of the memory is computed from. -/
theorem memorySize_total {op : OpCode} {f : MemorySizeFn} {st : Stack}
    (hf : (operation op).memorySize = some f) (hlen : (operation op).pop ≤ st.length) :
    ∃ v, f st = some v := by
  cases op
  all_goals cases hf
  case MLOAD =>
    match st, hlen with
    | _ :: _, _ => exact ⟨_, rfl⟩
  case MSTORE | MSTORE8 | SHA3 | RETURN | REVERT =>
    match st, hlen with
    | _ :: _ :: _, _ => exact ⟨_, rfl⟩
  case LOG n =>
    match st, (le_trans (Nat.le_add_left 2 n) hlen) with
    | _ :: _ :: _, _ => exact ⟨_, rfl⟩
  case CALLDATACOPY | CODECOPY | RETURNDATACOPY | CREATE =>
    match st, hlen with
    | _ :: _ :: _ :: _, _ => exact ⟨_, rfl⟩
  case EXTCODECOPY =>
    match st, hlen with
    | _ :: _ :: _ :: _ :: _, _ => exact ⟨_, rfl⟩
  case DELEGATECALL | STATICCALL =>
    match st, hlen with
    | _ :: _ :: _ :: _ :: _ :: _ :: _, _ => exact ⟨_, rfl⟩
  case CALL | CALLCODE =>
    match st, hlen with
    | _ :: _ :: _ :: _ :: _ :: _ :: _ :: _, _ => exact ⟨_, rfl⟩

/-- The checks before the gas is computed never panic. -/
theorem fetch_total (env : Env) (evm : Evm) (fr : Frame) :
    ∃ x, fetch env env.jumpTable evm fr = some x := by
  unfold fetch
  simp only
  split
  · exact ⟨_, rfl⟩
  · rename_i op o hop
    obtain ⟨op', -, hmap⟩ := Option.bind_eq_some_iff.mp hop
    obtain ⟨o', hjt, heq⟩ := Option.map_eq_some_iff.mp hmap
    cases heq
    obtain rfl := Env.jumpTable_eq hjt
    split
    · exact ⟨_, rfl⟩
    · rename_i hvalid
      split
      · exact ⟨_, rfl⟩
      · unfold memorySizeFor
        split
        · exact ⟨_, rfl⟩
        · rename_i f hf
          obtain ⟨v, hv⟩ := memorySize_total hf (Stack.length_of_validate hvalid)
          rw [hv]
          exact ⟨_, rfl⟩

end MiniEvm
