import MiniEvm.Common.Word
import MiniEvm.Detectors.ContractUtils
import MiniEvm.Vm.Effects

namespace MiniEvm

open Math Framework

namespace Word

/-- The truth values of the comparisons. -/
def truth (p : Prop) [Decidable p] : Word := if p then 1 else 0

/-- Signed division truncates towards zero; the one quotient that is no signed word wraps. -/
def signedDiv (x y : Word) : Word := if y = 0 then 0 else BitVec.ofInt 256 (x.toInt.tdiv y.toInt)

/-- The signed remainder has the sign of the dividend. -/
def signedMod (x y : Word) : Word := if y = 0 then 0 else BitVec.ofInt 256 (x.toInt.tmod y.toInt)

def addMod (x y z : Word) : Word :=
  if z = 0 then 0 else BitVec.ofNat 256 ((x.toNat + y.toNat) % z.toNat)

def mulMod (x y z : Word) : Word := if z = 0 then 0 else BitVec.ofNat 256 (x.toNat * y.toNat % z.toNat)

/-- The low `b + 1` bytes read as a signed number; from the last byte on there is nothing to
extend. -/
def signExtension (b x : Word) : Word :=
  if b.toNat < 31 then (x.setWidth (8 * b.toNat + 8)).signExtend 256 else x

/-- Byte `i` counted from the most significant one. -/
def byteAt (i x : Word) : Word :=
  if i.toNat < 32 then BitVec.ofNat 256 (x.toNat / 256 ^ (31 - i.toNat) % 256) else 0

end Word

open Word in
/-- The Yellow Paper's result of an arithmetic instruction, top item first. -/
def OpCode.wordResult : OpCode → List Word → Option Word
  | .ADD, [x, y] => some (x + y)
  | .SUB, [x, y] => some (x - y)
  | .MUL, [x, y] => some (x * y)
  | .DIV, [x, y] => some (if y = 0 then 0 else BitVec.ofNat 256 (x.toNat / y.toNat))
  | .SDIV, [x, y] => some (signedDiv x y)
  | .MOD, [x, y] => some (if y = 0 then 0 else BitVec.ofNat 256 (x.toNat % y.toNat))
  | .SMOD, [x, y] => some (signedMod x y)
  | .ADDMOD, [x, y, z] => some (addMod x y z)
  | .MULMOD, [x, y, z] => some (mulMod x y z)
  | .EXP, [x, y] => some (BitVec.ofNat 256 (x.toNat ^ y.toNat))
  | .SIGNEXTEND, [b, x] => some (signExtension b x)
  | .LT, [x, y] => some (truth (x.toNat < y.toNat))
  | .GT, [x, y] => some (truth (y.toNat < x.toNat))
  | .SLT, [x, y] => some (truth (x.toInt < y.toInt))
  | .SGT, [x, y] => some (truth (y.toInt < x.toInt))
  | .EQ, [x, y] => some (truth (x = y))
  | .ISZERO, [x] => some (truth (x = 0))
  | .AND, [x, y] => some (x &&& y)
  | .OR, [x, y] => some (x ||| y)
  | .XOR, [x, y] => some (x ^^^ y)
  | .NOT, [x] => some (~~~x)
  | .BYTE, [i, x] => some (byteAt i x)
  | _, _ => none

/-- The instructions that compute on words. -/
def OpCode.isArithmetic : OpCode → Bool
  | .ADD | .SUB | .MUL | .DIV | .SDIV | .MOD | .SMOD | .ADDMOD | .MULMOD | .EXP | .SIGNEXTEND
  | .LT | .GT | .SLT | .SGT | .EQ | .ISZERO | .AND | .OR | .XOR | .NOT | .BYTE => true
  | _ => false

namespace Word

theorem toNat_truth (p : Prop) [Decidable p] : ((truth p).toNat : Int) = if p then 1 else 0 := by
  unfold truth
  split_ifs <;> rfl

theorem lt_eq (x y : Word) : (if (x.toNat : Int) < y.toNat then 1 else 0 : Int) =
    (truth (x.toNat < y.toNat)).toNat := by
  simp only [toNat_truth, Int.ofNat_lt]

theorem slt_eq (x y : Word) : (if s256 x.toNat < s256 (s256 y.toNat) then 1 else 0 : Int) =
    (truth (x.toInt < y.toInt)).toNat := by
  rw [toNat_truth, s256_toNat, s256_s256]

theorem sgt_eq (x y : Word) : (if s256 x.toNat > s256 y.toNat then 1 else 0 : Int) =
    (truth (y.toInt < x.toInt)).toNat := by
  rw [toNat_truth, s256_toNat, s256_toNat]

theorem eq_eq (x y : Word) : (if (x.toNat : Int) = y.toNat then 1 else 0 : Int) =
    (truth (x = y)).toNat := by
  simp only [toNat_truth, Int.natCast_inj, BitVec.toNat_inj]

theorem iszero_eq (x : Word) : (if (x.toNat : Int) > 0 then 0 else 1 : Int) =
    (truth (x = 0)).toNat := by
  simp only [toNat_truth, ← toNat_eq_zero]
  split_ifs <;> first | rfl | omega

theorem u256_natCast (n : Nat) : u256 n = (BitVec.ofNat 256 n).toNat := by
  rw [BitVec.toNat_ofNat]
  rfl

theorem u256_add (x y : Word) : u256 (x.toNat + y.toNat) = (x + y).toNat := by
  apply u256_eq_of_ofInt_eq
  rw [BitVec.ofInt_add, ofInt_toNat, ofInt_toNat]

theorem u256_sub (x y : Word) : u256 (x.toNat - y.toNat) = (x - y).toNat := by
  apply u256_eq_of_ofInt_eq
  rw [Int.sub_eq_add_neg, BitVec.ofInt_add, BitVec.ofInt_neg, ofInt_toNat, ofInt_toNat,
    BitVec.sub_eq_add_neg]

theorem u256_mul (x y : Word) : u256 (x.toNat * y.toNat) = (x * y).toNat := by
  apply u256_eq_of_ofInt_eq
  rw [BitVec.ofInt_mul, ofInt_toNat, ofInt_toNat]

theorem u256_not (x : Word) : u256 (-x.toNat - 1) = (~~~x).toNat := by
  apply u256_eq_of_ofInt_eq
  have hneg : (-x.toNat - 1 : Int) = Int.negSucc x.toNat := by omega
  rw [hneg, BitVec.ofInt_negSucc_eq_not_ofNat, BitVec.ofNat_toNat, BitVec.setWidth_eq]

/-- A residue, or zero for a modulus of zero. -/
theorem residue_eq (n : Nat) (z : Word) :
    (if (z.toNat : Int) > 0 then u256 ((n : Int) % z.toNat) else 0) =
      ((if z = 0 then 0 else BitVec.ofNat 256 (n % z.toNat) : Word).toNat : Int) := by
  by_cases hz : z = 0
  · rw [if_pos hz, hz]
    rfl
  · have hpos : (z.toNat : Int) > 0 := by
      have hne : (z.toNat : Int) ≠ 0 := fun h => hz (toNat_eq_zero.mp h)
      omega
    rw [if_neg hz, if_pos hpos, ← u256_natCast]
    rfl

theorem mod_eq (x y : Word) : (if (y.toNat : Int) = 0 then 0 else u256 ((x.toNat : Int) % y.toNat)) =
    ((if y = 0 then 0 else BitVec.ofNat 256 (x.toNat % y.toNat) : Word).toNat : Int) := by
  rw [← residue_eq]
  split_ifs <;> first | rfl | omega

theorem exp_eq (x y : Word) :
    (bigExp x.toNat y.toNat).1 = (BitVec.ofNat 256 (x.toNat ^ y.toNat)).toNat := by
  have hx : u256 x.toNat = x.toNat := (u256_eq_self _).mpr ⟨Int.natCast_nonneg _, toNat_lt_tt256 x⟩
  rw [bigExp_eq hx, ← u256_natCast]
  norm_cast

theorem signedDiv_eq (x y : Word) :
    (if s256 y.toNat = 0 then 0 else u256 (((s256 x.toNat).natAbs / (s256 y.toNat).natAbs : Nat) *
      (if s256 x.toNat * s256 y.toNat < 0 then -1 else 1))) = ((signedDiv x y).toNat : Int) := by
  rw [s256_toNat, s256_toNat, natAbs_div_sign, u256_eq_ofInt]
  unfold signedDiv
  by_cases hy : y = 0
  · simp [hy]
  · have hint : y.toInt ≠ 0 := fun h => hy (BitVec.toInt_inj.mp (by simpa using h))
    rw [if_neg hint, if_neg hy]

theorem signedMod_eq (x y : Word) :
    (if s256 y.toNat = 0 then 0 else u256 (((s256 x.toNat).natAbs % (s256 y.toNat).natAbs : Nat) *
      (if s256 x.toNat < 0 then -1 else 1))) = ((signedMod x y).toNat : Int) := by
  rw [s256_toNat, s256_toNat, natAbs_mod_sign, u256_eq_ofInt]
  unfold signedMod
  by_cases hy : y = 0
  · simp [hy]
  · have hint : y.toInt ≠ 0 := fun h => hy (BitVec.toInt_inj.mp (by simpa using h))
    rw [if_neg hint, if_neg hy]

/-- The bits that the mask of `SIGNEXTEND` sets or clears are those of the extended number. -/
theorem signExtension_eq (x : Word) (k : Nat) :
    u256 (if (x.toNat : Int).testBit k then (x.toNat : Int).lor (-(2 ^ k - 1) - 1)
      else (x.toNat : Int).land (2 ^ k - 1)) = ((x.setWidth (k + 1)).signExtend 256).toNat := by
  apply u256_eq_of_ofInt_eq
  apply BitVec.eq_of_getLsbD_eq
  intro i hi
  have hmask : ((2 : Int) ^ k - 1) = ((2 ^ k - 1 : Nat) : Int) := by
    rw [Nat.cast_sub Nat.one_le_two_pow]
    norm_cast
  have hneg : (-((2 ^ k - 1 : Nat) : Int) - 1) = Int.negSucc (2 ^ k - 1) := by omega
  have hmsb : (x.setWidth (k + 1)).msb = x.getLsbD k := by
    rw [BitVec.msb_setWidth]
    simp
  have hbit : x.getLsbD k = x.toNat.testBit k := rfl
  rw [getLsbD_ofInt, BitVec.getLsbD_signExtend, hmsb, BitVec.getLsbD_setWidth, hmask, hneg]
  -- below bit `k` both are the bits of `x`, above it both repeat bit `k`
  have hpos : (x.toNat : Int).testBit k = x.getLsbD k := rfl
  by_cases hk : x.getLsbD k = true
  · rw [hpos, if_pos hk, Int.testBit_lor, hk]
    have hlow : (Int.negSucc (2 ^ k - 1)).testBit i = !decide (i < k) := by
      rw [Int.testBit, Nat.testBit_two_pow_sub_one]
    rw [hlow]
    rcases Nat.lt_trichotomy i k with h | rfl | h
    · simp [h, Nat.lt_succ_of_lt h, Int.testBit, BitVec.getLsbD]
    · simp [hk]
    · simp [Nat.not_lt_of_lt h, Nat.not_lt.mpr (Nat.succ_le_of_lt h)]
  · rw [hpos, if_neg hk, Int.testBit_land]
    have hlow : ((2 ^ k - 1 : Nat) : Int).testBit i = decide (i < k) := Nat.testBit_two_pow_sub_one k i
    rw [hlow]
    rcases Nat.lt_trichotomy i k with h | rfl | h
    · simp [h, Nat.lt_succ_of_lt h, Int.testBit, BitVec.getLsbD]
    · simpa [hi] using hk
    · simpa [hi, Nat.not_lt_of_lt h, Nat.not_lt.mpr (Nat.succ_le_of_lt h)] using hk

theorem byteAt_eq (i x : Word) :
    (if (i.toNat : Int) < 32 then ((bigByte x.toNat 32 (int64 i.toNat)).toNat : Int) else 0) =
      (byteAt i x).toNat := by
  unfold byteAt
  by_cases hi : i.toNat < 32
  · have hlt : ¬ ((i.toNat : Int) ≥ 32) := by omega
    have hidx : (32 - 1 - (i.toNat : Int)).toNat = 31 - i.toNat := by omega
    have hsmall : x.toNat / 256 ^ (31 - i.toNat) % 256 < 2 ^ 256 :=
      Nat.lt_trans (Nat.mod_lt _ (by decide)) (by decide)
    rw [if_pos hi, if_pos (by omega), int64_small (by omega) (by omega), bigByte, if_neg hlt, hidx,
      bigEndianByteAt,
      Int.natAbs_natCast, BitVec.toNat_ofNat, Nat.mod_eq_of_lt hsmall]
    rfl
  · rw [if_neg hi, if_neg (by omega)]
    rfl

end Word

/-- Executing replaces the operands by the specified word and leaves the rest of the frame alone. -/
def OpCode.MeetsSpec (op : OpCode) : Prop :=
  ∀ (env : Env) (run : RunFn) (evm : Evm) (fr : Frame) (args : List Word) (st : Stack),
    args.length = (operation op).pop → fr.stack = args.map (fun x => (x.toNat : Int)) ++ st →
      ∃ w, op.wordResult args = some w ∧ (operation op).execute env run evm fr =
        .ok (stackResult (op.effect env evm fr) fr ((w.toNat : Int) :: st))

namespace OpCode.MeetsSpec

variable {op : OpCode}

theorem of_unary {f : Int → Int} {g : Word → Word} (hpop : (operation op).pop = 1)
    (hexec : (operation op).execute = simple (unaryOp fun _ _ _ => f))
    (heffect : ∀ env evm fr, op.effect env evm fr = evm)
    (hword : ∀ x, op.wordResult [x] = some (g x))
    (hf : ∀ x : Word, f x.toNat = (g x).toNat) : op.MeetsSpec := by
  intro env run evm fr args st hlen hst
  obtain ⟨x, rfl⟩ := List.length_eq_one_iff.mp (hlen.trans hpop)
  refine ⟨g x, hword x, ?_⟩
  rw [hexec, heffect, ← hf]
  simp [simple, unaryOp, hst]

theorem of_binary {f : Int → Int → Int} {g : Word → Word → Word} (hpop : (operation op).pop = 2)
    (hexec : (operation op).execute = simple (binaryOp f))
    (heffect : ∀ env evm fr, op.effect env evm fr = evm)
    (hword : ∀ x y, op.wordResult [x, y] = some (g x y))
    (hf : ∀ x y : Word, f x.toNat y.toNat = (g x y).toNat) : op.MeetsSpec := by
  intro env run evm fr args st hlen hst
  obtain ⟨x, y, rfl⟩ := List.length_eq_two.mp (hlen.trans hpop)
  refine ⟨g x y, hword x y, ?_⟩
  rw [hexec, heffect, ← hf]
  simp [simple, binaryOp, hst]

theorem of_ternary {f : Int → Int → Int → Int} {g : Word → Word → Word → Word}
    (hpop : (operation op).pop = 3) (hexec : (operation op).execute = simple (ternaryOp f))
    (heffect : ∀ env evm fr, op.effect env evm fr = evm)
    (hword : ∀ x y z, op.wordResult [x, y, z] = some (g x y z))
    (hf : ∀ x y z : Word, f x.toNat y.toNat z.toNat = (g x y z).toNat) : op.MeetsSpec := by
  intro env run evm fr args st hlen hst
  obtain ⟨x, y, z, rfl⟩ := List.length_eq_three.mp (hlen.trans hpop)
  refine ⟨g x y z, hword x y z, ?_⟩
  rw [hexec, heffect, ← hf]
  simp [simple, ternaryOp, hst]

/-- The instructions that note an overflow. -/
theorem of_arith {key : String} {f : Int → Int → Int} {g : Word → Word → Word}
    (hpop : (operation op).pop = 2) (hexec : (operation op).execute = simple (arithOp key f))
    (heffect : ∀ env evm (fr : Frame) x y st, fr.stack = x :: y :: st →
      op.effect env evm fr = markOverflow key (f x y) evm fr)
    (hword : ∀ x y, op.wordResult [x, y] = some (g x y))
    (hf : ∀ x y : Word, u256 (f x.toNat y.toNat) = (g x y).toNat) : op.MeetsSpec := by
  intro env run evm fr args st hlen hst
  obtain ⟨x, y, rfl⟩ := List.length_eq_two.mp (hlen.trans hpop)
  refine ⟨g x y, hword x y, ?_⟩
  rw [hexec, heffect env evm fr _ _ _ hst, ← hf]
  simp [simple, arithOp, hst]

end OpCode.MeetsSpec

open OpCode.MeetsSpec Word

theorem div_meetsSpec : OpCode.DIV.MeetsSpec := by
  intro env run evm fr args st hlen hst
  obtain ⟨x, y, rfl⟩ := List.length_eq_two.mp hlen
  refine ⟨_, rfl, ?_⟩
  have hexec : (operation .DIV).execute = simple opDiv := rfl
  simp only [List.map_cons, List.map_nil, List.cons_append, List.nil_append] at hst
  rw [hexec]
  by_cases hy : y = 0
  · have hy' : (y.toNat : Int) = 0 := toNat_eq_zero.mpr hy
    rw [if_pos hy]
    simp only [simple, opDiv, hst, hy', OpCode.effect, OpCode.exactResult, ne_eq, not_true_eq_false,
      if_false]
    rfl
  · have hy' : (y.toNat : Int) ≠ 0 := fun h => hy (toNat_eq_zero.mp h)
    rw [if_neg hy, ← u256_natCast]
    simp only [simple, opDiv, hst, OpCode.effect, OpCode.exactResult, if_pos hy']
    rfl

/-- Below index 31 both operands are popped, otherwise only the index is, which has the same
result. -/
theorem signextend_meetsSpec : OpCode.SIGNEXTEND.MeetsSpec := by
  intro env run evm fr args st hlen hst
  obtain ⟨b, x, rfl⟩ := List.length_eq_two.mp hlen
  refine ⟨signExtension b x, rfl, ?_⟩
  have hexec : (operation .SIGNEXTEND).execute = simple opSignExtend := rfl
  have heffect : OpCode.SIGNEXTEND.effect env evm fr = evm := by
    simp [OpCode.effect, OpCode.exactResult]
  simp only [List.map_cons, List.map_nil, List.cons_append, List.nil_append] at hst
  rw [hexec, heffect]
  unfold signExtension
  by_cases hb : b.toNat < 31
  · have hbit : (uint64 b.toNat * 8 + 7).toNat = 8 * b.toNat + 7 := by
      have hlow : (uint64 b.toNat).toNat = b.toNat := by
        rw [toNat_uint64, Int.natAbs_natCast]
        omega
      rw [UInt64.toNat_add, UInt64.toNat_mul, hlow]
      change (b.toNat * 8 % 2 ^ 64 + 7) % 2 ^ 64 = _
      omega
    have hsmall : 8 * b.toNat + 7 < 2 ^ 63 := by omega
    have hval := signExtension_eq x (8 * b.toNat + 7)
    have hb' : (b.toNat : Int) < 31 := by omega
    rw [if_pos hb, ← hval]
    simp only [simple, opSignExtend, hst, if_pos hb', hbit, if_pos hsmall]
    rfl
  · have hb' : ¬ (b.toNat : Int) < 31 := by omega
    rw [if_neg hb]
    simp only [simple, opSignExtend, hst, if_neg hb']
    rfl

/-- Only the instructions that note overflows touch the machine. -/
theorem OpCode.effect_of_isArithmetic {op : OpCode} (hop : op.isArithmetic = true)
    (hexact : ∀ st, op.exactResult st = none) (env : Env) (evm : Evm) (fr : Frame) :
    op.effect env evm fr = evm := by
  cases op
  all_goals first | contradiction | simp [OpCode.effect, hexact]

theorem meetsSpec {op : OpCode} (hop : op.isArithmetic = true) : op.MeetsSpec := by
  have hpure := OpCode.effect_of_isArithmetic hop
  cases op
  case ADD => exact of_arith rfl rfl (fun _ _ _ _ _ _ h => by
      simp [OpCode.effect, OpCode.exactResult, h]) (fun _ _ => rfl) u256_add
  case SUB => exact of_arith rfl rfl (fun _ _ _ _ _ _ h => by
      simp [OpCode.effect, OpCode.exactResult, h]) (fun _ _ => rfl) u256_sub
  case MUL => exact of_arith rfl rfl (fun _ _ _ _ _ _ h => by
      simp [OpCode.effect, OpCode.exactResult, h]) (fun _ _ => rfl) u256_mul
  case DIV => exact div_meetsSpec
  case SIGNEXTEND => exact signextend_meetsSpec
  all_goals
    first
      | contradiction
      | replace hpure := hpure (fun _ => rfl)
  case SDIV => exact of_binary rfl rfl hpure (fun _ _ => rfl) signedDiv_eq
  case SMOD => exact of_binary rfl rfl hpure (fun _ _ => rfl) signedMod_eq
  case MOD => exact of_binary rfl rfl hpure (fun _ _ => rfl) mod_eq
  case ADDMOD =>
    exact of_ternary rfl rfl hpure (fun _ _ _ => rfl) fun x y z => residue_eq (x.toNat + y.toNat) z
  case MULMOD =>
    exact of_ternary rfl rfl hpure (fun _ _ _ => rfl) fun x y z => residue_eq (x.toNat * y.toNat) z
  case EXP => exact of_binary rfl rfl hpure (fun _ _ => rfl) exp_eq
  case LT => exact of_binary rfl rfl hpure (fun _ _ => rfl) lt_eq
  case GT => exact of_binary rfl rfl hpure (fun _ _ => rfl) fun x y => lt_eq y x
  case SLT => exact of_binary rfl rfl hpure (fun _ _ => rfl) slt_eq
  case SGT => exact of_binary rfl rfl hpure (fun _ _ => rfl) sgt_eq
  case EQ => exact of_binary rfl rfl hpure (fun _ _ => rfl) eq_eq
  case ISZERO => exact of_unary rfl rfl hpure (fun _ => rfl) iszero_eq
  case AND => exact of_binary rfl rfl hpure (fun _ _ => rfl) fun x y => rfl
  case OR => exact of_binary rfl rfl hpure (fun _ _ => rfl) fun x y => rfl
  case XOR => exact of_binary rfl rfl hpure (fun _ _ => rfl) fun x y => rfl
  case NOT => exact of_unary rfl rfl hpure (fun _ => rfl) u256_not
  case BYTE => exact of_binary rfl rfl hpure (fun _ _ => rfl) byteAt_eq

theorem Word.exists_map {args : List Int} (h : ∀ x ∈ args, 0 ≤ x ∧ x < tt256) :
    ∃ ws : List Word, args = ws.map fun w => (w.toNat : Int) := by
  induction args with
  | nil => exact ⟨[], rfl⟩
  | cons x args ih =>
    obtain ⟨hx, hargs⟩ := List.forall_mem_cons.mp h
    obtain ⟨w, rfl⟩ := Word.exists_eq hx.1 hx.2
    obtain ⟨ws, rfl⟩ := ih hargs
    exact ⟨w :: ws, rfl⟩

/-- Every arithmetic instruction, applied to words, replaces them by the word the Yellow Paper
gives, and changes nothing else but the overflow markers. -/
theorem arithmetic_meetsSpec {op : OpCode} (hop : op.isArithmetic = true) (env : Env) (run : RunFn)
    (evm : Evm) {fr : Frame} {args st : Stack} (hst : fr.stack = args ++ st)
    (hlen : args.length = (operation op).pop) (hargs : ∀ x ∈ args, 0 ≤ x ∧ x < tt256) :
    ∃ v, (0 ≤ v ∧ v < tt256) ∧
      op.wordResult (args.map (BitVec.ofInt 256)) = some (BitVec.ofInt 256 v) ∧
      (operation op).execute env run evm fr =
        .ok (stackResult (op.effect env evm fr) fr (v :: st)) := by
  obtain ⟨ws, rfl⟩ := Word.exists_map hargs
  obtain ⟨w, hw, hexec⟩ := meetsSpec hop env run evm fr ws st (by simpa using hlen) hst
  refine ⟨w.toNat, ⟨Int.natCast_nonneg _, toNat_lt_tt256 w⟩, ?_, hexec⟩
  have hwords : (ws.map fun w => (w.toNat : Int)).map (BitVec.ofInt 256) = ws := by
    rw [List.map_map]
    refine (List.map_congr_left fun w _ => ?_).trans (List.map_id ws)
    exact ofInt_toNat w
  rw [hwords, hw, ofInt_toNat]

/-- A frame about to divide the least signed word by minus one. -/
def dividing : Frame :=
  (Frame.start (Contract.new (.account 0) 0 0 0) []).withStack [2 ^ 255, 2 ^ 256 - 1]

theorem arithmetic_meetsSpec_dividing : ∃ v, (0 ≤ v ∧ v < tt256) ∧
    OpCode.SDIV.wordResult ([2 ^ 255, 2 ^ 256 - 1].map (BitVec.ofInt 256)) =
      some (BitVec.ofInt 256 v) ∧
    (operation .SDIV).execute sampleEnv (fun _ _ _ => .timeout) (Evm.new StateDB.new) dividing =
      .ok (stackResult (OpCode.SDIV.effect sampleEnv (Evm.new StateDB.new) dividing) dividing [v]) :=
  arithmetic_meetsSpec rfl sampleEnv _ (Evm.new StateDB.new) rfl rfl (by decide)

-- the one quotient that overflows, a remainder of a negative dividend, and indices past the word
example : OpCode.SDIV.wordResult [BitVec.intMin 256, -1] = some (BitVec.intMin 256) := by decide
example : OpCode.SMOD.wordResult [-7, 3] = some (-1) := by decide
example : OpCode.SIGNEXTEND.wordResult [BitVec.intMin 256, 0x80] = some 0x80 ∧
    OpCode.SIGNEXTEND.wordResult [0, 0x80] = some (-0x80) := by decide

end MiniEvm
