import MiniEvm.Vm.MemoryImage

namespace MiniEvm

open Math Framework

/-- All words are in `[0, 2^256)`. -/
def Stack.InRange (st : Stack) : Prop := ∀ w ∈ st, 0 ≤ w ∧ w < tt256

theorem Stack.InRange.nonneg {st : Stack} (h : st.InRange) : st.Nonneg := fun w hw => (h w hw).1

/-- The bytes `[off, off+l)` of `data`, with zeros past its end. -/
def padded (data : Bytes) (off l : Nat) : Bytes := (Image.ofList 0 data).read off l

/-- A slice cut at the end of the data and padded to its length. -/
theorem slice_rightPad (data : Bytes) (start size : Nat) :
    (slice data (min start data.length) (min (start + size) data.length)).map (rightPad · size) =
      some (padded data start size) := by
  rw [slice, if_pos (by omega), Option.map_some]
  congr 1
  apply List.ext_getElem?
  intro i
  simp only [rightPad, padded, Image.read, Image.ofList, List.getElem?_append, List.length_take,
    List.length_drop, List.getElem?_take, List.getElem?_drop, List.getElem?_replicate,
    List.getElem?_map, List.getD_eq_getElem?_getD]
  by_cases hi : i < size
  · rw [List.getElem?_range hi]
    by_cases hd : start + i < data.length
    · rw [if_pos (by omega), if_pos (by omega), Nat.min_eq_left (by omega)]
      simp [List.getElem?_eq_getElem hd]
    · have hnone : data[start + i]? = none := List.getElem?_eq_none (by omega)
      rw [if_neg (by omega), if_pos (by omega)]
      simp [hnone]
  · rw [List.getElem?_eq_none (l := List.range _) (by simp; omega), if_neg (by omega),
      if_neg (by omega)]
    rfl

theorem getDataBig_eq {data : Bytes} {start size : Int} (h0 : 0 ≤ start) (h1 : 0 ≤ size)
    (hlim : size < 2^63) :
    getDataBig data start size = some (padded data start.toNat size.toNat) := by
  have hsize : (uint64 size).toNat = size.toNat := by rw [toNat_uint64]; omega
  have hlo : sliceBound (min start data.length) = min start.toNat data.length := by
    unfold sliceBound
    rw [if_neg (by omega)]
    omega
  have hhi : sliceBound (min (min start data.length + size) data.length) =
      min (start.toNat + size.toNat) data.length := by
    unfold sliceBound
    rw [if_neg (by omega)]
    omega
  unfold getDataBig
  simp only [hlo, hhi, hsize]
  rw [if_pos (by omega)]
  exact slice_rightPad data start.toNat size.toNat

theorem lowByte_int64 {v : Int} (h : 0 ≤ v) :
    UInt8.ofNat (int64 v % 256).toNat = UInt8.ofNat v.toNat := by
  apply UInt8.toNat_inj.mp
  have hmod : int64 v % 256 = v % 256 := by
    unfold int64
    have hd : (256 : Int) ∣ (2^64 : Nat) := by decide
    rw [Int.emod_eq_emod_iff_emod_sub_eq_zero]
    exact Int.emod_eq_zero_of_dvd (hd.trans (Int.dvd_bmod_sub_self))
  rw [hmod]
  simp only [UInt8.toNat_ofNat']
  omega

/-- An instruction that does not panic on a stack of enough non-negative words, and leaves the
memory alone. -/
def SimpleFn.Total (f : SimpleFn) (pop : Nat) : Prop :=
  ∀ env evm fr, pop ≤ fr.stack.length → fr.stack.Nonneg →
    ∃ r, f env evm fr = some r ∧ r.frame.mem = fr.mem

theorem pushOp_total (f : Env → Evm → Frame → Int) : (pushOp f).Total 0 :=
  fun _ _ _ _ _ => ⟨_, rfl, rfl⟩

theorem unaryOp_total (f : Env → Evm → Frame → Int → Int) : (unaryOp f).Total 1 := by
  intro env evm fr hlen _
  unfold unaryOp
  match fr.stack, hlen with
  | x :: st, _ => exact ⟨_, rfl, rfl⟩

theorem binaryOp_total (f : Int → Int → Int) : (binaryOp f).Total 2 := by
  intro env evm fr hlen _
  unfold binaryOp
  match fr.stack, hlen with
  | x :: y :: st, _ => exact ⟨_, rfl, rfl⟩

theorem ternaryOp_total (f : Int → Int → Int → Int) : (ternaryOp f).Total 3 := by
  intro env evm fr hlen _
  unfold ternaryOp
  match fr.stack, hlen with
  | x :: y :: z :: st, _ => exact ⟨_, rfl, rfl⟩

theorem arithOp_total (key : String) (f : Int → Int → Int) : (arithOp key f).Total 2 := by
  intro env evm fr hlen _
  unfold arithOp
  match fr.stack, hlen with
  | x :: y :: st, _ => exact ⟨_, rfl, rfl⟩

theorem opDiv_total : opDiv.Total 2 := by
  intro env evm fr hlen _
  unfold opDiv
  match fr.stack, hlen with
  | x :: y :: st, _ =>
    by_cases hy : y = 0
    · exact ⟨_, if_neg (not_not.mpr hy), rfl⟩
    · exact ⟨_, if_pos hy, rfl⟩

/-- A small byte index gives a small bit index. -/
theorem opSignExtend_total : opSignExtend.Total 2 := by
  intro env evm fr hlen hst
  unfold opSignExtend
  match hs : fr.stack, hlen with
  | back :: num :: st, _ =>
    have h0 : 0 ≤ back := hst _ (by simp [hs])
    by_cases hb : back < 31
    · have hsmall : (uint64 back).toNat < 31 := by
        rw [toNat_uint64]
        omega
      have hbit : (uint64 back * 8 + 7).toNat < 2^63 := by
        rw [UInt64.toNat_add, UInt64.toNat_mul]
        change ((uint64 back).toNat * 8 % 2^64 + 7) % 2^64 < 2^63
        omega
      simp only [hb, if_true, hbit]
      exact ⟨_, rfl, rfl⟩
    · exact ⟨_, if_neg hb, rfl⟩

theorem opCallDataLoad_total : opCallDataLoad.Total 1 := by
  intro env evm fr hlen hst
  unfold opCallDataLoad readOp
  match hs : fr.stack, hlen with
  | x :: st, _ =>
    have h0 : 0 ≤ x := hst _ (by simp [hs])
    simp only
    rw [getDataBig_eq h0 (by decide) (by decide)]
    exact ⟨_, rfl, rfl⟩

theorem opBalance_total : opBalance.Total 1 := by
  intro env evm fr hlen _
  unfold opBalance
  match fr.stack, hlen with
  | x :: st, _ => exact ⟨_, rfl, rfl⟩

theorem opPop_total : opPop.Total 1 := by
  intro env evm fr hlen _
  unfold opPop
  match fr.stack, hlen with
  | x :: st, _ => exact ⟨_, rfl, rfl⟩

theorem opSload_total : opSload.Total 1 := by
  intro env evm fr hlen _
  unfold opSload
  match fr.stack, hlen with
  | x :: st, _ => exact ⟨_, rfl, rfl⟩

theorem opSstore_total : opSstore.Total 2 := by
  intro env evm fr hlen _
  unfold opSstore
  match fr.stack, hlen with
  | x :: y :: st, _ => exact ⟨_, rfl, rfl⟩

theorem opSuicide_total : opSuicide.Total 1 := by
  intro env evm fr hlen _
  unfold opSuicide
  match fr.stack, hlen with
  | x :: st, _ => exact ⟨_, rfl, rfl⟩

theorem opStop_total : opStop.Total 0 := fun _ _ _ _ _ => ⟨_, rfl, rfl⟩

theorem makePush_total (size : Nat) : (makePush size).Total 0 := by
  intro env evm fr _ _
  unfold makePush
  simp only
  rw [slice, if_pos (by omega)]
  exact ⟨_, rfl, rfl⟩

theorem makeDup_total (size : Nat) (hpos : 0 < size) : (makeDup size).Total size := by
  intro env evm fr hlen _
  unfold makeDup Stack.back
  rw [List.getElem?_eq_getElem (show size - 1 < fr.stack.length by omega)]
  exact ⟨_, rfl, rfl⟩

theorem makeSwap_total (size : Nat) (hpos : 0 < size) : (makeSwap size).Total (size + 1) := by
  intro env evm fr hlen _
  unfold makeSwap
  match fr.stack, hlen with
  | top :: st, hlen =>
    have hst : size - 1 < st.length := by
      have : size + 1 ≤ st.length + 1 := hlen
      omega
    simp only [List.getElem?_eq_getElem hst]
    exact ⟨_, rfl, rfl⟩

namespace OpCode

/-- The bytes that an instruction reads from memory, if it reads any. -/
def operand (op : OpCode) (st : Stack) (m : Image UInt8) : Bytes :=
  match op.regions st with
  | r :: _ => m.read r.1.toNat r.2.toNat
  | [] => []

/-- The bytes `[src, src+l)` are there; every slice is shorter than 2^64 bytes. -/
def Available (data : Bytes) (src l : Int) : Prop := src + l < 2^64 ∧ src + l ≤ data.length

instance (data : Bytes) (src l : Int) : Decidable (Available data src l) :=
  inferInstanceAs (Decidable (_ ∧ _))

/-- What an instruction that enters no frame writes to memory. -/
def writes (op : OpCode) (evm : Evm) (fr : Frame) : List (Nat × Bytes) :=
  match op, fr.stack with
  | MSTORE, off :: val :: _ => [(off.toNat, toBytes 32 val.toNat)]
  | MSTORE8, off :: val :: _ => [(off.toNat, [UInt8.ofNat val.toNat])]
  | CALLDATACOPY, off :: src :: l :: _ =>
    [(off.toNat, padded fr.contract.input src.toNat l.toNat)]
  | CODECOPY, off :: src :: l :: _ => [(off.toNat, padded fr.contract.code src.toNat l.toNat)]
  | EXTCODECOPY, addr :: off :: src :: l :: _ =>
    [(off.toNat, padded (evm.stateDB.getCode (bigToAddress addr)) src.toNat l.toNat)]
  | RETURNDATACOPY, off :: src :: l :: _ =>
    if Available evm.returnData src l then
      [(off.toNat, padded evm.returnData src.toNat l.toNat)]
    else []
  | _, _ => []

/-- What an instruction makes of the bytes it reads; `RETURNDATACOPY` fails when there are too few. -/
def Produces (op : OpCode) (env : Env) (evm : Evm) (fr : Frame) (res : ExecResult) (data : Bytes) :
    Prop :=
  match op, fr.stack with
  | MLOAD, _ => res.frame.stack = (ofBytes data : Int) :: fr.stack.drop 1
  | SHA3, _ => res.frame.stack = Hash.big (env.crypto.keccak256 data) :: fr.stack.drop 2
  | RETURN, _ | REVERT, _ => res.ret = data
  | RETURNDATACOPY, _ :: src :: l :: _ =>
    res.err = if Available evm.returnData src l then none else some .returnDataOutOfBounds
  | LOG n, _ => res.evm.stateDB = evm.stateDB.addLog ⟨fr.contract.self,
      ((fr.stack.drop 2).take n).map bigToHash, data, uint64 env.blockNumber⟩
  | _, _ => True

end OpCode

/-- What an instruction that enters no frame does to the memory, and does with it. -/
structure MemorySpec (op : OpCode) (env : Env) (evm : Evm) (fr : Frame) (res : ExecResult) :
    Prop where
  image : res.frame.mem.image = fr.mem.image.writeAll (op.writes evm fr)
  data : op.Produces env evm fr res (op.operand fr.stack fr.mem.image)

namespace MemorySpec

variable {op : OpCode} {env : Env} {evm : Evm} {fr : Frame}

/-- An instruction that runs through and treats memory as it should. -/
def Runs (op : OpCode) (env : Env) (evm : Evm) (fr : Frame) (f : SimpleFn) : Prop :=
  ∃ res, f env evm fr = some res ∧ (fr.stack.InRange → MemorySpec op env evm fr res)

theorem of_total {f : SimpleFn} {pop : Nat} (hf : f.Total pop) (hlen : pop ≤ fr.stack.length)
    (hst : fr.stack.Nonneg) (hw : op.writes evm fr = [])
    (hp : ∀ res, op.Produces env evm fr res (op.operand fr.stack fr.mem.image)) :
    Runs op env evm fr f := by
  obtain ⟨res, hres, hmem⟩ := hf env evm fr hlen hst
  refine ⟨res, hres, fun _ => ⟨?_, hp res⟩⟩
  rw [hmem, hw]
  rfl

theorem opSha3_runs (hlen : 2 ≤ fr.stack.length)
    (hcov : ∀ r ∈ OpCode.SHA3.regions fr.stack, fr.mem.Covers r) : Runs .SHA3 env evm fr opSha3 := by
  unfold Runs opSha3
  match hs : fr.stack, hlen with
  | off :: l :: st, _ =>
    have hget := (hcov (off, l) (by simp [hs, OpCode.regions])).get
    simp only [hget]
    refine ⟨_, rfl, fun _ => ⟨?_, ?_⟩⟩
    · rfl
    · show _ = _
      rw [hs]
      rfl

theorem opMload_runs (hlen : 1 ≤ fr.stack.length)
    (hcov : ∀ r ∈ OpCode.MLOAD.regions fr.stack, fr.mem.Covers r) :
    Runs .MLOAD env evm fr opMload := by
  unfold Runs opMload readOp
  match hs : fr.stack, hlen with
  | off :: st, _ =>
    have hget := (hcov (off, 32) (by simp [hs, OpCode.regions])).get
    have h32 : int64 32 = 32 := by decide
    rw [h32] at hget
    simp only [hget]
    refine ⟨_, rfl, fun _ => ⟨?_, ?_⟩⟩
    · rfl
    · show _ = _
      rw [hs]
      rfl

/-- `RETURN` and `REVERT`. -/
theorem opReturn_runs (hop : op = .RETURN ∨ op = .REVERT) (hlen : 2 ≤ fr.stack.length)
    (hcov : ∀ r ∈ op.regions fr.stack, fr.mem.Covers r) : Runs op env evm fr opReturn := by
  unfold Runs opReturn
  match hs : fr.stack, hlen with
  | off :: l :: st, _ =>
    rcases hop with rfl | rfl
    all_goals
      have hget := (hcov (off, l) (by simp [hs, OpCode.regions])).get
      simp only [hget]
      refine ⟨_, rfl, fun _ => ⟨?_, ?_⟩⟩
      · rfl
      · show _ = _
        rw [hs]
        rfl

theorem makeLog_runs {n : Fin 5} (hlen : n + 2 ≤ fr.stack.length)
    (hcov : ∀ r ∈ (OpCode.LOG n).regions fr.stack, fr.mem.Covers r) :
    Runs (.LOG n) env evm fr (makeLog n) := by
  unfold Runs makeLog
  match hs : fr.stack, hlen with
  | off :: l :: st, hlen =>
    have htopics : (n : Nat) ≤ st.length := by simpa using hlen
    have hget := (hcov (off, l) (by simp [hs, OpCode.regions])).get
    simp only [htopics, if_true, hget]
    refine ⟨_, rfl, fun _ => ⟨?_, ?_⟩⟩
    · rfl
    · show _ = _
      rw [hs]
      rfl

theorem opMstore_runs (hlen : 2 ≤ fr.stack.length)
    (hcov : ∀ r ∈ OpCode.MSTORE.regions fr.stack, fr.mem.Covers r) :
    Runs .MSTORE env evm fr opMstore := by
  unfold Runs opMstore
  match hs : fr.stack, hlen with
  | off :: val :: st, _ =>
    obtain ⟨m, hset, himage⟩ :=
      (hcov (off, 32) (by simp [hs, OpCode.regions])).set (paddedBigBytes val 32)
    have h32 : uint64 32 = 32 := by decide
    rw [h32] at hset
    simp only [hset]
    refine ⟨_, rfl, fun hr => ⟨?_, trivial⟩⟩
    have hval : 0 ≤ val ∧ val < tt256 := hr val (by simp)
    rw [paddedBigBytes_eq hval] at himage
    simp [himage, OpCode.writes, hs, Image.writeAll, List.take_of_length_le]

theorem opMstore8_runs (hlen : 2 ≤ fr.stack.length)
    (hcov : ∀ r ∈ OpCode.MSTORE8.regions fr.stack, fr.mem.Covers r) :
    Runs .MSTORE8 env evm fr opMstore8 := by
  unfold Runs opMstore8
  match hs : fr.stack, hlen with
  | off :: val :: st, _ =>
    rcases hcov (off, 1) (by simp [hs, OpCode.regions]) with h1 | ⟨h0, -, h2⟩
    · cases h1
    · simp only at h0 h2
      have hoff : int64 off = off := int64_small h0 (by omega)
      have hlt : off < fr.mem.len := by omega
      simp only [hoff, h0, hlt, and_self, if_true]
      refine ⟨_, rfl, fun hr => ⟨?_, trivial⟩⟩
      have hval : 0 ≤ val := (hr val (by simp)).1
      have hstore : off.toNat < fr.mem.store.length := by
        change _ < fr.mem.len
        omega
      simp only [Memory.image, OpCode.writes, hs, Image.writeAll, List.foldl_cons, List.foldl_nil,
        lowByte_int64 hval]
      exact Image.ofList_set 0 _ _ _ hstore

/-- A covered copy writes exactly the padded bytes. -/
theorem copyToMemory_eq (data : Bytes) (evm : Evm) {off src l : Int} (st : Stack) (h0 : 0 ≤ src)
    (hcov : fr.mem.Covers (off, l)) : ∃ m,
      copyToMemory data evm fr off src l st =
        some ⟨[], none, evm, { fr with stack := st, mem := m }⟩ ∧
      m.image = fr.mem.image.write off.toNat (padded data src.toNat l.toNat) := by
  have hl : 0 ≤ l ∧ l < 2^63 := by
    rcases hcov with hz | ⟨ho, hp, hle⟩
    · have hz : l = 0 := hz
      omega
    · simp only at ho hp hle
      omega
  obtain ⟨m, hset, himage⟩ := hcov.set (padded data src.toNat l.toNat)
  refine ⟨m, ?_, ?_⟩
  · rw [copyToMemory, getDataBig_eq h0 hl.1 hl.2, Option.bind_some, hset, Option.map_some]
  · rw [himage, List.take_of_length_le (by simp [padded])]

/-- `CALLDATACOPY` and `CODECOPY`. -/
theorem copyOp_runs {data : Frame → Bytes} (hlen : 3 ≤ fr.stack.length) (hst : fr.stack.Nonneg)
    (hcov : ∀ off src l st, fr.stack = off :: src :: l :: st → fr.mem.Covers (off, l))
    (hw : ∀ off src l st, fr.stack = off :: src :: l :: st →
      op.writes evm fr = [(off.toNat, padded (data fr) src.toNat l.toNat)])
    (hp : ∀ res, op.Produces env evm fr res (op.operand fr.stack fr.mem.image)) :
    Runs op env evm fr (copyOp data) := by
  unfold Runs copyOp
  match hs : fr.stack, hlen with
  | off :: src :: l :: st, _ =>
    have h0 : 0 ≤ src := hst src (by simp [hs])
    obtain ⟨m, hcopy, himage⟩ := copyToMemory_eq (data fr) evm st h0 (hcov off src l st hs)
    refine ⟨_, hcopy, fun _ => ⟨?_, hp _⟩⟩
    rw [hw off src l st hs]
    exact himage

theorem opExtCodeCopy_runs (hlen : 4 ≤ fr.stack.length) (hst : fr.stack.Nonneg)
    (hcov : ∀ r ∈ OpCode.EXTCODECOPY.regions fr.stack, fr.mem.Covers r) :
    Runs .EXTCODECOPY env evm fr opExtCodeCopy := by
  unfold Runs opExtCodeCopy
  match hs : fr.stack, hlen with
  | addr :: off :: src :: l :: st, _ =>
    have h0 : 0 ≤ src := hst src (by simp [hs])
    obtain ⟨m, hcopy, himage⟩ := copyToMemory_eq (evm.stateDB.getCode (bigToAddress addr)) evm st h0
      (hcov (off, l) (by simp [hs, OpCode.regions]))
    refine ⟨_, hcopy, fun _ => ⟨?_, trivial⟩⟩
    simp only [OpCode.writes, hs]
    exact himage

/-- The bound check of the source is that the bytes are there. -/
theorem returnData_bound {data : Bytes} {src l : Int} (h0 : 0 ≤ src) (h1 : 0 ≤ l) :
    (bitLen (src + l) > 64 ∨ data.length < (uint64 (src + l)).toNat) ↔
      ¬ OpCode.Available data src l := by
  have hbits := bitLen_le_iff (src + l) 64
  rw [toNat_uint64, OpCode.Available]
  omega

theorem opReturnDataCopy_runs (hlen : 3 ≤ fr.stack.length) (hst : fr.stack.Nonneg)
    (hcov : ∀ r ∈ OpCode.RETURNDATACOPY.regions fr.stack, fr.mem.Covers r) :
    Runs .RETURNDATACOPY env evm fr opReturnDataCopy := by
  unfold Runs opReturnDataCopy
  match hs : fr.stack, hlen with
  | off :: src :: l :: st, _ =>
    have h0 : 0 ≤ src := hst src (by simp [hs])
    have h1 : 0 ≤ l := hst l (by simp [hs])
    simp only [returnData_bound h0 h1]
    by_cases hav : OpCode.Available evm.returnData src l
    · obtain ⟨hlt, hle⟩ := hav
      have hsrc : (uint64 src).toNat = src.toNat := by rw [toNat_uint64]; omega
      have hend : (uint64 (src + l)).toNat = src.toNat + l.toNat := by rw [toNat_uint64]; omega
      have hslice := Image.slice_eq_read 0 evm.returnData src.toNat l.toNat (by omega)
      obtain ⟨m, hset, himage⟩ := (hcov (off, l) (by simp [hs, OpCode.regions])).set
        (padded evm.returnData src.toNat l.toNat)
      rw [if_neg (not_not.mpr ⟨hlt, hle⟩), hsrc, hend, hslice, Option.bind_some]
      change ∃ res, Option.map _ (fr.mem.set _ _ (padded _ _ _)) = _ ∧ _
      rw [hset]
      refine ⟨_, rfl, fun _ => ⟨?_, ?_⟩⟩
      · rw [List.take_of_length_le (by simp [padded])] at himage
        simp only [OpCode.writes, hs, if_pos (show OpCode.Available _ _ _ from ⟨hlt, hle⟩)]
        exact himage
      · simp only [OpCode.Produces, hs, if_pos (show OpCode.Available _ _ _ from ⟨hlt, hle⟩)]
    · rw [if_pos hav]
      refine ⟨_, rfl, fun _ => ⟨?_, ?_⟩⟩
      · simp [OpCode.writes, hs, hav, Frame.withStack, Image.writeAll]
      · simp [OpCode.Produces, hs, hav]

end MemorySpec

/-- No instruction but a jump or a call can panic once its memory is covered, and each treats the
memory as an infinite array. -/
theorem execute_memory {op : OpCode} {env : Env} (run : RunFn) {evm : Evm} {fr : Frame}
    (hc : op.isCall = false) (hj : op.isJump = false) (hlen : (operation op).pop ≤ fr.stack.length)
    (hst : fr.stack.Nonneg) (hcov : ∀ r ∈ op.regions fr.stack, fr.mem.Covers r) :
    ∃ res, (operation op).execute env run evm fr = .ok res ∧
      (fr.stack.InRange → MemorySpec op env evm fr res) := by
  suffices h : ∃ f, (operation op).execute = simple f ∧ MemorySpec.Runs op env evm fr f by
    obtain ⟨f, hf, res, hres, hspec⟩ := h
    refine ⟨res, ?_, hspec⟩
    rw [hf]
    exact simple_eq_ok.mpr hres
  cases op
  case CREATE | CALL | CALLCODE | DELEGATECALL | STATICCALL => cases hc
  case JUMP | JUMPI => cases hj
  all_goals
    simp only [operation, entry]
    refine ⟨_, rfl, ?_⟩
  case SHA3 => exact MemorySpec.opSha3_runs hlen hcov
  case MLOAD => exact MemorySpec.opMload_runs hlen hcov
  case RETURN => exact MemorySpec.opReturn_runs (Or.inl rfl) hlen hcov
  case REVERT => exact MemorySpec.opReturn_runs (Or.inr rfl) hlen hcov
  case LOG n => exact MemorySpec.makeLog_runs hlen hcov
  case MSTORE => exact MemorySpec.opMstore_runs hlen hcov
  case MSTORE8 => exact MemorySpec.opMstore8_runs hlen hcov
  case EXTCODECOPY => exact MemorySpec.opExtCodeCopy_runs hlen hst hcov
  case RETURNDATACOPY => exact MemorySpec.opReturnDataCopy_runs hlen hst hcov
  case CALLDATACOPY | CODECOPY =>
    refine MemorySpec.copyOp_runs hlen hst ?_ ?_ fun _ => trivial
    · intro off src l st hs
      exact hcov _ (by simp [hs, OpCode.regions])
    · intro off src l st hs
      simp only [OpCode.writes, hs]
  all_goals refine MemorySpec.of_total ?_ hlen hst rfl fun _ => trivial
  case ADD | SUB | MUL => exact arithOp_total _ _
  case DIV => exact opDiv_total
  case SIGNEXTEND => exact opSignExtend_total
  case CALLDATALOAD => exact opCallDataLoad_total
  case BALANCE => exact opBalance_total
  case POP => exact opPop_total
  case SLOAD => exact opSload_total
  case SSTORE => exact opSstore_total
  case SELFDESTRUCT => exact opSuicide_total
  case STOP | JUMPDEST => exact opStop_total
  case PUSH n => exact makePush_total _
  case DUP n => exact makeDup_total _ (Nat.succ_pos _)
  case SWAP n => exact makeSwap_total _ (Nat.succ_pos _)
  case ADDMOD | MULMOD => exact ternaryOp_total _
  case ISZERO | NOT | EXTCODESIZE | BLOCKHASH => exact unaryOp_total _
  case SDIV | MOD | SMOD | EXP | LT | GT | SLT | SGT | EQ | AND | OR | XOR | BYTE =>
    exact binaryOp_total _
  all_goals exact pushOp_total _

/-- The bytes that an entry point is called with: the arguments or the code of a new contract. -/
def Entry.data : Entry → Bytes
  | call _ input _ | callCode _ input _ | delegateCall _ input | staticCall _ input => input
  | create code _ => code

/-- What a call instruction writes to memory: the returned bytes, but no more than asked for. -/
def OpCode.output (op : OpCode) (st : Stack) (r : CallResult) : List (Nat × Bytes) :=
  match op.regions st with
  | [_, (off, l)] =>
    if r.err = none ∨ r.err = some .executionReverted then [(off.toNat, r.ret.take l.toNat)] else []
  | _ => []

section Calls

variable {op : OpCode} {fr : Frame}

/-- A call instruction hands over the bytes of its first region. -/
theorem invocation_memory (env : Env) (evm : Evm) (hc : op.isCall = true)
    (hlen : (operation op).pop ≤ fr.stack.length)
    (hcov : ∀ r ∈ op.regions fr.stack, fr.mem.Covers r) :
    ∃ i, op.invocation env evm fr = some i ∧
      i.entry.data = op.operand fr.stack fr.mem.image := by
  cases op
  case CREATE =>
    obtain ⟨value, off, l, st, hs⟩ := Stack.exists_three hlen
    have hget := (hcov (off, l) (by simp [hs, OpCode.regions])).get
    simp only [OpCode.invocation, hs, hget]
    exact ⟨_, rfl, by simp [Entry.data, OpCode.operand, OpCode.regions]⟩
  case CALL | CALLCODE =>
    obtain ⟨gas, addr, value, args, argsLen, out, outLen, st, hs⟩ := Stack.exists_seven hlen
    have hget := (hcov (args, argsLen) (by simp [hs, OpCode.regions])).get
    simp only [OpCode.invocation, hs, hget]
    exact ⟨_, rfl, by simp [Entry.data, OpCode.operand, OpCode.regions]⟩
  case DELEGATECALL | STATICCALL =>
    obtain ⟨gas, addr, args, argsLen, out, outLen, st, hs⟩ := Stack.exists_six hlen
    have hget := (hcov (args, argsLen) (by simp [hs, OpCode.regions])).get
    simp only [OpCode.invocation, hs, hget]
    exact ⟨_, rfl, by simp [Entry.data, OpCode.operand, OpCode.regions]⟩
  all_goals cases hc

theorem finishCall_memory {out outLen : Int} (st : Stack) (r : CallResult)
    (hcov : fr.mem.Covers (out, outLen)) :
    ∃ x, finishCall fr st out outLen r = .ok x ∧ x.frame.mem.image = fr.mem.image.writeAll
      (if r.err = none ∨ r.err = some .executionReverted then
        [(out.toNat, r.ret.take outLen.toNat)] else []) := by
  unfold finishCall
  by_cases herr : r.err = none ∨ r.err = some .executionReverted
  · obtain ⟨m, hset, himage⟩ := hcov.set r.ret
    simp only [if_pos herr, hset]
    exact ⟨_, rfl, himage⟩
  · simp only [if_neg herr]
    exact ⟨_, rfl, rfl⟩

/-- The calling frame goes on with the output in its second region. -/
theorem resume_memory (env : Env) (hc : op.isCall = true) (hlen : (operation op).pop ≤ fr.stack.length)
    (hcov : ∀ r ∈ op.regions fr.stack, fr.mem.Covers r) (r : CreateResult) :
    ∃ x, op.resume env fr r = .ok x ∧
      x.frame.mem.image = fr.mem.image.writeAll (op.output fr.stack r.toCallResult) := by
  cases op
  case CREATE =>
    obtain ⟨value, off, l, st, hs⟩ := Stack.exists_three hlen
    simp only [OpCode.resume, hs]
    exact ⟨_, rfl, by simp [OpCode.output, OpCode.regions, finishCreate, Image.writeAll]⟩
  case CALL | CALLCODE =>
    obtain ⟨gas, addr, value, args, argsLen, out, outLen, st, hs⟩ := Stack.exists_seven hlen
    simp only [OpCode.resume, hs, OpCode.output, OpCode.regions]
    exact finishCall_memory st _ (hcov (out, outLen) (by simp [hs, OpCode.regions]))
  case DELEGATECALL | STATICCALL =>
    obtain ⟨gas, addr, args, argsLen, out, outLen, st, hs⟩ := Stack.exists_six hlen
    simp only [OpCode.resume, hs, OpCode.output, OpCode.regions]
    exact finishCall_memory st _ (hcov (out, outLen) (by simp [hs, OpCode.regions]))
  all_goals cases hc

end Calls

end MiniEvm
