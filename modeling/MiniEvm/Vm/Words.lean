import MiniEvm.Vm.Evolution

namespace MiniEvm

open Math Framework

/-- A set of words that the instructions do not leave: it has all 256-bit words, none below zero, and
is closed under the bitwise operations, which do not truncate. -/
structure WordSet (W : Int → Prop) : Prop where
  small : ∀ n : Nat, n < 2 ^ 256 → W n
  nonneg : ∀ x, W x → 0 ≤ x
  land : ∀ x y, W x → W y → W (x.land y)
  lor : ∀ x y, W x → W y → W (x.lor y)
  xor : ∀ x y, W x → W y → W (x.xor y)

namespace WordSet

variable {W : Int → Prop}

theorem u256 (h : WordSet W) (x : Int) : W (u256 x) := by
  have hlt := u256_lt x
  have hnat := Int.toNat_of_nonneg (u256_nonneg x)
  rw [← hnat]
  refine h.small _ ?_
  have : tt256 = 2 ^ 256 := rfl
  omega

theorem zero (h : WordSet W) : W 0 := h.small 0 (by decide)

theorem one (h : WordSet W) : W 1 := h.small 1 (by decide)

theorem hash (h : WordSet W) (x : Hash) : W (Hash.big x) := h.small _ x.isLt

theorem address (h : WordSet W) (a : Address) : W (Address.big a) :=
  h.small _ (Nat.lt_trans a.isLt (by decide))

theorem uint64 (h : WordSet W) (x : UInt64) : W (x.toNat : Int) :=
  h.small _ (Nat.lt_trans x.toNat_lt (by decide))

/-- A condition decides between two words. -/
theorem cond (h : WordSet W) (p : Prop) [Decidable p] : W (if p then 1 else 0) := by
  split_ifs
  · exact h.one
  · exact h.zero

theorem bytes (h : WordSet W) {b : Bytes} (hb : b.length ≤ 32) : W (ofBytes b : Int) := by
  refine h.small _ (Nat.lt_of_lt_of_le (ofBytes_lt b) ?_)
  calc 256 ^ b.length ≤ 256 ^ 32 := Nat.pow_le_pow_right (by decide) hb
    _ = 2 ^ 256 := by decide

theorem expWord (h : WordSet W) (i word : Nat) (rb : Int × Int) (hr : W rb.1) :
    W (expWord i word rb).1 := by
  induction i generalizing word rb with
  | zero => exact hr
  | succ i ih =>
    obtain ⟨result, base⟩ := rb
    refine ih _ _ ?_
    simp only
    split_ifs
    · exact h.u256 _
    · exact hr

theorem bigExp (h : WordSet W) (base exponent : Int) : W (bigExp base exponent).1 := by
  have hfold : ∀ (ws : List Nat) (rb : Int × Int), W rb.1 →
      W (ws.foldl (fun rb word => MiniEvm.expWord 64 word rb) rb).1 := by
    intro ws
    induction ws with
    | nil => exact fun rb hr => hr
    | cons w ws ih => exact fun rb hr => ih _ (h.expWord 64 w rb hr)
  exact hfold _ _ h.one

end WordSet

/-- Every word on the stack is in the set. -/
def Stack.All (W : Int → Prop) (st : Stack) : Prop := ∀ x ∈ st, W x

/-- The words that an instruction pushes as it finds them. -/
def OpCode.Reads (W : Int → Prop) (env : Env) (evm : Evm) (fr : Frame) : OpCode → Prop
  | BALANCE => ∀ x st, fr.stack = x :: st → W ((evm.stateDB.account (bigToAddress x)).balance + 100)
  | CALLVALUE => W fr.contract.value
  | GASPRICE => W env.gasPrice
  | CALLDATASIZE => W fr.contract.input.length
  | CODESIZE => W fr.contract.code.length
  | EXTCODESIZE => ∀ x st, fr.stack = x :: st → W (evm.stateDB.getCodeSize (bigToAddress x))
  | RETURNDATASIZE => W evm.returnData.length
  | PC => W fr.pc
  | MSIZE => W fr.mem.len
  | _ => True

/-- The instruction leaves only words of the set, when it reads only such words. -/
def SimpleFn.Keeps (W : Int → Prop) (reads : Env → Evm → Frame → Prop) (f : SimpleFn) : Prop :=
  ∀ env evm fr r, f env evm fr = some r → fr.stack.All W → reads env evm fr → r.frame.stack.All W

section Keeps

variable {W : Int → Prop} {reads : Env → Evm → Frame → Prop}

theorem Stack.All.cons {x : Int} {st : Stack} (hx : W x) (hst : st.All W) : Stack.All W (x :: st) :=
  fun y hy => by
    obtain rfl | hy := List.mem_cons.mp hy
    · exact hx
    · exact hst y hy

theorem Stack.All.head {x : Int} {st : Stack} (h : Stack.All W (x :: st)) : W x := h x (by simp)

theorem Stack.All.tail {x : Int} {st : Stack} (h : Stack.All W (x :: st)) : st.All W :=
  fun y hy => h y (by simp [hy])

theorem pushOp_keeps {f : Env → Evm → Frame → Int}
    (hf : ∀ env evm fr, reads env evm fr → W (f env evm fr)) : (pushOp f).Keeps W reads := by
  intro env evm fr r h hst hreads
  cases h
  exact .cons (hf env evm fr hreads) hst

theorem unaryOp_keeps {f : Env → Evm → Frame → Int → Int}
    (hf : ∀ env evm fr x st, fr.stack = x :: st → W x → reads env evm fr → W (f env evm fr x)) :
    (unaryOp f).Keeps W reads := by
  intro env evm fr r h hst hreads
  unfold unaryOp at h
  split at h
  · rename_i x st heq
    cases h
    rw [heq] at hst
    exact .cons (hf env evm fr x st heq hst.head hreads) hst.tail
  · cases h

theorem readOp_keeps {f : Frame → Int → Option Bytes} (hW : WordSet W)
    (hf : ∀ fr x b, W x → f fr x = some b → b.length ≤ 32) : (readOp f).Keeps W reads := by
  intro env evm fr r h hst _
  unfold readOp at h
  split at h
  · rename_i x st heq
    obtain ⟨b, hb, rfl⟩ := Option.map_eq_some_iff.mp h
    rw [heq] at hst
    exact .cons (hW.bytes (hf fr x b hst.head hb)) hst.tail
  · cases h

theorem binaryOp_keeps {f : Int → Int → Int} (hf : ∀ x y, W x → W y → W (f x y)) :
    (binaryOp f).Keeps W reads := by
  intro env evm fr r h hst _
  unfold binaryOp at h
  split at h
  · rename_i x y st heq
    cases h
    rw [heq] at hst
    exact .cons (hf x y hst.head hst.tail.head) hst.tail.tail
  · cases h

theorem ternaryOp_keeps {f : Int → Int → Int → Int} (hf : ∀ x y z, W (f x y z)) :
    (ternaryOp f).Keeps W reads := by
  intro env evm fr r h hst _
  unfold ternaryOp at h
  split at h
  · rename_i x y z st heq
    cases h
    rw [heq] at hst
    exact .cons (hf x y z) hst.tail.tail.tail
  · cases h

theorem arithOp_keeps (hW : WordSet W) (key : String) (f : Int → Int → Int) :
    (arithOp key f).Keeps W reads := by
  intro env evm fr r h hst _
  unfold arithOp at h
  split at h
  · rename_i x y st heq
    cases h
    rw [heq] at hst
    exact .cons (hW.u256 _) hst.tail.tail
  · cases h

theorem opDiv_keeps (hW : WordSet W) : opDiv.Keeps W reads := by
  intro env evm fr r h hst _
  unfold opDiv at h
  split at h
  · rename_i x y st heq
    rw [heq] at hst
    split_ifs at h
    · cases h
      exact .cons (hW.u256 _) hst.tail.tail
    · cases h
      exact .cons hW.zero hst.tail.tail
  · cases h

theorem opSignExtend_keeps (hW : WordSet W) : opSignExtend.Keeps W reads := by
  intro env evm fr r h hst _
  unfold opSignExtend at h
  split at h
  · rename_i back st heq
    rw [heq] at hst
    split_ifs at h
    · split at h
      · simp only at h
        split_ifs at h
        all_goals
          cases h
          exact .cons (hW.u256 _) hst.tail.tail
      · cases h
    · cases h
      exact hst.tail
  · cases h

theorem opSha3_keeps (hW : WordSet W) : opSha3.Keeps W reads := by
  intro env evm fr r h hst _
  unfold opSha3 at h
  split at h
  · rename_i offset size st heq
    obtain ⟨data, -, rfl⟩ := Option.map_eq_some_iff.mp h
    rw [heq] at hst
    exact .cons (hW.hash _) hst.tail.tail
  · cases h

theorem opBalance_keeps :
    opBalance.Keeps W (fun env evm fr => OpCode.BALANCE.Reads W env evm fr) := by
  intro env evm fr r h hst hreads
  unfold opBalance at h
  split at h
  · rename_i x st heq
    cases h
    have hx := hreads x st heq
    rw [heq] at hst
    exact .cons hx hst.tail
  · cases h

theorem opSload_keeps (hW : WordSet W) : opSload.Keeps W reads := by
  intro env evm fr r h hst _
  unfold opSload at h
  split at h
  · rename_i x st heq
    cases h
    rw [heq] at hst
    exact .cons (hW.hash _) hst.tail
  · cases h

/-- The data read by `CALLDATALOAD` is one word. -/
theorem getDataBig_length {data b : Bytes} {start : Int} (hstart : 0 ≤ start)
    (h : getDataBig data start 32 = some b) : b.length ≤ 32 := by
  unfold getDataBig at h
  simp only at h
  obtain ⟨d, hd, rfl⟩ := Option.map_eq_some_iff.mp h
  obtain ⟨hlo, hhi, rfl⟩ := slice_eq_some.mp hd
  have h32 : (uint64 32).toNat = 32 := by decide
  have hs : 0 ≤ min start (data.length : Int) := by omega
  have he : 0 ≤ min (min start (data.length : Int) + 32) (data.length : Int) := by omega
  simp only [sliceBound, if_neg (Int.not_lt.mpr hs), if_neg (Int.not_lt.mpr he)] at hlo hhi ⊢
  simp only [h32, rightPad, List.length_append, List.length_take, List.length_drop,
    List.length_replicate, show (32 : Nat) < 2 ^ 63 by decide, if_true]
  omega

theorem Memory.get_length {m : Memory} {offset : Int} {b : Bytes} (h : m.get offset 32 = some b) :
    b.length ≤ 32 := by
  unfold Memory.get at h
  simp only [show ¬(32 : Int) = 0 by decide, if_false] at h
  split_ifs at h with hlen hbound
  · obtain ⟨hlo, hhi, rfl⟩ := slice_eq_some.mp h
    have hmod : int64 (offset + 32) ≤ offset + 32 := by
      simp only [int64, Int.bmod_def]
      omega
    simp only [List.length_take, List.length_drop]
    omega
  · cases h
    simp

theorem copyOp_keeps (data : Frame → Bytes) : (copyOp data).Keeps W reads := by
  intro env evm fr r h hst _
  unfold copyOp at h
  split at h
  · rename_i memOffset dataOffset length st heq
    obtain ⟨b, -, h⟩ := Option.bind_eq_some_iff.mp h
    obtain ⟨m, -, rfl⟩ := Option.map_eq_some_iff.mp h
    rw [heq] at hst
    exact hst.tail.tail.tail
  · cases h

theorem opExtCodeCopy_keeps : opExtCodeCopy.Keeps W reads := by
  intro env evm fr r h hst _
  unfold opExtCodeCopy at h
  split at h
  · rename_i addr memOffset codeOffset length st heq
    obtain ⟨b, -, h⟩ := Option.bind_eq_some_iff.mp h
    obtain ⟨m, -, rfl⟩ := Option.map_eq_some_iff.mp h
    rw [heq] at hst
    exact hst.tail.tail.tail.tail
  · cases h

theorem opReturnDataCopy_keeps : opReturnDataCopy.Keeps W reads := by
  intro env evm fr r h hst _
  unfold opReturnDataCopy at h
  split at h
  · rename_i memOffset dataOffset length st heq
    rw [heq] at hst
    simp only at h
    split_ifs at h
    · cases h
      exact hst.tail.tail.tail
    · obtain ⟨b, -, h⟩ := Option.bind_eq_some_iff.mp h
      obtain ⟨m, -, rfl⟩ := Option.map_eq_some_iff.mp h
      exact hst.tail.tail.tail
  · cases h

theorem opPop_keeps : opPop.Keeps W reads := by
  intro env evm fr r h hst _
  unfold opPop at h
  split at h
  · rename_i x st heq
    cases h
    rw [heq] at hst
    exact hst.tail
  · cases h

theorem opMstore_keeps : opMstore.Keeps W reads := by
  intro env evm fr r h hst _
  unfold opMstore at h
  split at h
  · rename_i mStart val st heq
    obtain ⟨m, -, rfl⟩ := Option.map_eq_some_iff.mp h
    rw [heq] at hst
    exact hst.tail.tail
  · cases h

theorem opMstore8_keeps : opMstore8.Keeps W reads := by
  intro env evm fr r h hst _
  unfold opMstore8 at h
  split at h
  · rename_i off val st heq
    split_ifs at h
    cases h
    rw [heq] at hst
    exact hst.tail.tail
  · cases h

theorem opSstore_keeps : opSstore.Keeps W reads := by
  intro env evm fr r h hst _
  unfold opSstore at h
  split at h
  · rename_i x val st heq
    cases h
    rw [heq] at hst
    exact hst.tail.tail
  · cases h

theorem jumpTo_keeps {evm : Evm} {fr : Frame} {pos : Int} {st : Stack} {r : ExecResult}
    (h : jumpTo evm fr pos st = some r) (hst : st.All W) : r.frame.stack.All W := by
  obtain ⟨⟨ok, d⟩, -, rfl⟩ := Option.map_eq_some_iff.mp h
  cases ok <;> exact hst

theorem opJump_keeps : opJump.Keeps W reads := by
  intro env evm fr r h hst _
  unfold opJump at h
  split at h
  · rename_i pos st heq
    rw [heq] at hst
    exact jumpTo_keeps h hst.tail
  · cases h

theorem opJumpi_keeps : opJumpi.Keeps W reads := by
  intro env evm fr r h hst _
  unfold opJumpi at h
  split at h
  · rename_i pos cond st heq
    rw [heq] at hst
    split_ifs at h
    · exact jumpTo_keeps h hst.tail.tail
    · cases h
      exact hst.tail.tail
  · cases h

theorem opReturn_keeps : opReturn.Keeps W reads := by
  intro env evm fr r h hst _
  unfold opReturn at h
  split at h
  · rename_i offset size st heq
    obtain ⟨ret, -, rfl⟩ := Option.map_eq_some_iff.mp h
    rw [heq] at hst
    exact hst.tail.tail
  · cases h

theorem opSuicide_keeps : opSuicide.Keeps W reads := by
  intro env evm fr r h hst _
  unfold opSuicide at h
  split at h
  · rename_i x st heq
    cases h
    rw [heq] at hst
    exact hst.tail
  · cases h

theorem makeLog_keeps (size : Nat) : (makeLog size).Keeps W reads := by
  intro env evm fr r h hst _
  unfold makeLog at h
  split at h
  · rename_i mStart mSize st heq
    split_ifs at h
    obtain ⟨d, -, rfl⟩ := Option.map_eq_some_iff.mp h
    rw [heq] at hst
    exact fun x hx => hst.tail.tail x (List.mem_of_mem_drop hx)
  · cases h

theorem makePush_keeps (hW : WordSet W) {size : Nat} (hsize : size ≤ 32) :
    (makePush size).Keeps W reads := by
  intro env evm fr r h hst _
  obtain ⟨b, hb, rfl⟩ := Option.map_eq_some_iff.mp h
  obtain ⟨hlo, hhi, rfl⟩ := slice_eq_some.mp hb
  refine .cons (hW.bytes ?_) hst
  simp only [rightPad, List.length_append, List.length_take, List.length_drop,
    List.length_replicate]
  omega

theorem makeDup_keeps (size : Nat) : (makeDup size).Keeps W reads := by
  intro env evm fr r h hst _
  obtain ⟨x, hx, rfl⟩ := Option.map_eq_some_iff.mp h
  exact .cons (hst x (List.mem_of_getElem? hx)) hst

theorem makeSwap_keeps (size : Nat) : (makeSwap size).Keeps W reads := by
  intro env evm fr r h hst _
  unfold makeSwap at h
  split at h
  · rename_i top st heq
    obtain ⟨x, hx, rfl⟩ := Option.map_eq_some_iff.mp h
    rw [heq] at hst
    refine .cons (hst.tail x (List.mem_of_getElem? hx)) fun y hy => ?_
    obtain hy | rfl := List.mem_or_eq_of_mem_set hy
    · exact hst.tail y hy
    · exact hst.head
  · cases h

end Keeps

theorem bigByte_lt (x padlength n : Int) : (bigByte x padlength n).toNat < 2 ^ 256 :=
  Nat.lt_trans (UInt8.toNat_lt _) (by decide)

/-- Every instruction that enters no frame keeps the words of a set on the stack, provided that it
reads only such words. -/
theorem execute_keeps {W : Int → Prop} (hW : WordSet W) {op : OpCode} {env : Env} {run : RunFn}
    {evm : Evm} {fr : Frame} {res : ExecResult} (hc : op.isCall = false) (hst : fr.stack.All W)
    (hreads : op.Reads W env evm fr) (h : (operation op).execute env run evm fr = .ok res) :
    res.frame.stack.All W := by
  have keeps : ∀ {f : SimpleFn}, f.Keeps W (fun env evm fr => op.Reads W env evm fr) →
      f env evm fr = some res → res.frame.stack.All W :=
    fun hf hres => hf env evm fr res hres hst hreads
  cases op
  case CREATE | CALL | CALLCODE | DELEGATECALL | STATICCALL => cases hc
  all_goals
    simp only [operation, entry] at h
    replace h := simple_eq_ok.mp h
  case ADD | SUB | MUL => exact keeps (arithOp_keeps hW _ _) h
  case DIV => exact keeps (opDiv_keeps hW) h
  case MOD =>
    refine keeps (binaryOp_keeps fun x y _ _ => ?_) h
    split_ifs
    · exact hW.zero
    · exact hW.u256 _
  case SDIV | SMOD =>
    refine keeps (binaryOp_keeps fun x y _ _ => ?_) h
    simp only
    split_ifs
    all_goals first | exact hW.zero | exact hW.u256 _
  case EXP => exact keeps (binaryOp_keeps fun x y _ _ => hW.bigExp x y) h
  case SIGNEXTEND => exact keeps (opSignExtend_keeps hW) h
  case LT | GT | SLT | SGT | EQ => exact keeps (binaryOp_keeps fun x y _ _ => hW.cond _) h
  case AND => exact keeps (binaryOp_keeps hW.land) h
  case OR => exact keeps (binaryOp_keeps hW.lor) h
  case XOR => exact keeps (binaryOp_keeps hW.xor) h
  case BYTE =>
    refine keeps (binaryOp_keeps fun x y _ _ => ?_) h
    split_ifs
    · exact hW.small _ (bigByte_lt ..)
    · exact hW.zero
  case ADDMOD | MULMOD =>
    refine keeps (ternaryOp_keeps fun x y z => ?_) h
    split_ifs
    · exact hW.u256 _
    · exact hW.zero
  case NOT => exact keeps (unaryOp_keeps fun _ _ _ _ _ _ _ _ => hW.u256 _) h
  case ISZERO =>
    refine keeps (unaryOp_keeps fun _ _ _ x _ _ _ _ => ?_) h
    split_ifs
    · exact hW.zero
    · exact hW.one
  case SHA3 => exact keeps (opSha3_keeps hW) h
  case ADDRESS | ORIGIN | CALLER | COINBASE => exact keeps (pushOp_keeps fun _ _ _ _ => hW.address _) h
  case BALANCE => exact keeps opBalance_keeps h
  case CALLVALUE | CALLDATASIZE | CODESIZE | GASPRICE | RETURNDATASIZE | PC | MSIZE =>
    exact keeps (pushOp_keeps fun _ _ _ hreads => hreads) h
  case TIMESTAMP | NUMBER | DIFFICULTY | GASLIMIT => exact keeps (pushOp_keeps fun _ _ _ _ => hW.u256 _) h
  case GAS => exact keeps (pushOp_keeps fun _ _ _ _ => hW.uint64 _) h
  case CALLDATALOAD =>
    exact keeps (readOp_keeps hW fun fr x b hx hb => getDataBig_length (hW.nonneg x hx) hb) h
  case MLOAD => exact keeps (readOp_keeps hW fun fr x b _ hb => Memory.get_length hb) h
  case EXTCODESIZE =>
    exact keeps (unaryOp_keeps fun _ _ _ x st hst _ hreads => hreads x st hst) h
  case BLOCKHASH =>
    refine keeps (unaryOp_keeps fun _ _ _ x _ _ _ _ => ?_) h
    split_ifs
    · exact hW.hash _
    · exact hW.zero
  case CALLDATACOPY | CODECOPY => exact keeps (copyOp_keeps _) h
  case EXTCODECOPY => exact keeps opExtCodeCopy_keeps h
  case RETURNDATACOPY => exact keeps opReturnDataCopy_keeps h
  case POP => exact keeps opPop_keeps h
  case MSTORE => exact keeps opMstore_keeps h
  case MSTORE8 => exact keeps opMstore8_keeps h
  case SLOAD => exact keeps (opSload_keeps hW) h
  case SSTORE => exact keeps opSstore_keeps h
  case JUMP => exact keeps opJump_keeps h
  case JUMPI => exact keeps opJumpi_keeps h
  case JUMPDEST | STOP =>
    cases h
    exact hst
  case PUSH n => exact keeps (makePush_keeps hW n.isLt) h
  case DUP n => exact keeps (makeDup_keeps _) h
  case SWAP n => exact keeps (makeSwap_keeps _) h
  case LOG n => exact keeps (makeLog_keeps _) h
  case RETURN | REVERT => exact keeps opReturn_keeps h
  case SELFDESTRUCT => exact keeps opSuicide_keeps h

/-- The call instructions leave a status word or an address on the words below their arguments. -/
theorem OpCode.resume_keeps {W : Int → Prop} (hW : WordSet W) {op : OpCode} {env : Env} {fr : Frame}
    {r : CreateResult} {x : ExecResult} (h : op.resume env fr r = .ok x) (hst : fr.stack.All W) :
    x.frame.stack.All W := by
  have finish : ∀ {st : Stack} {retOffset retSize : Int}, st.All W →
      finishCall fr st retOffset retSize r.toCallResult = .ok x → x.frame.stack.All W := by
    intro st retOffset retSize hst h
    unfold finishCall at h
    obtain ⟨mem, -, h⟩ := Outcome.bind_eq_ok.mp h
    cases h
    exact .cons (hW.cond _) hst
  unfold resume at h
  split at h
  case h_1 value offset size st heq =>
    cases h
    rw [heq] at hst
    refine .cons ?_ hst.tail.tail.tail
    split_ifs
    all_goals first | exact hW.zero | exact hW.address _
  case h_6 => cases h
  case h_2 | h_3 =>
    rename_i heq
    rw [heq] at hst
    exact finish hst.tail.tail.tail.tail.tail.tail.tail h
  all_goals
    rename_i heq
    rw [heq] at hst
    exact finish hst.tail.tail.tail.tail.tail.tail h

end MiniEvm
