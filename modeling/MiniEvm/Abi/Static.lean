import MiniEvm.Abi.Unpack
import MiniEvm.Framework.Layout

namespace MiniEvm.Abi

open Math Framework

/-! ## Words -/

theorem packNum_eq (n : Int) : packNum n = toBytes 32 (u256 n).toNat :=
  paddedBigBytes_eq ⟨u256_nonneg n, u256_lt n⟩

@[simp] theorem packNum_length (n : Int) : (packNum n).length = 32 := by
  rw [packNum_eq, toBytes_length]

theorem u256_toNat_lt (n : Int) : (u256 n).toNat < 256 ^ 32 := by
  have hlt : u256 n < 2 ^ 256 := u256_lt n
  have h0 := u256_nonneg n
  omega

theorem ofBytes_packNum (n : Int) : (ofBytes (packNum n) : Int) = u256 n := by
  have hlt := u256_toNat_lt n
  rw [packNum_eq, ofBytes_toBytes, Nat.mod_eq_of_lt hlt]
  exact Int.toNat_of_nonneg (u256_nonneg n)

theorem ofBytes_packNum_nat {n : Nat} (h : n < 2 ^ 63) : ofBytes (packNum n) = n := by
  have hword : u256 (n : Int) = n :=
    (u256_eq_self _).mpr ⟨by omega, by have : (tt256 : Int) = 2 ^ 256 := rfl; omega⟩
  have hbytes := ofBytes_packNum n
  rw [hword] at hbytes
  omega

theorem lowBytes_packNum (n : Int) {len : Nat} (h : len ≤ 32) :
    lowBytes len (packNum n) = n % 2 ^ (8 * len) := by
  have hdrop : (packNum n).drop (32 - len) = toBytes len (u256 n).toNat := by
    rw [packNum_eq, ← toBytes_drop (32 - len) len, Nat.sub_add_cancel h]
  have hpow : (256 : Nat) ^ len = 2 ^ (8 * len) := by
    rw [show (256 : Nat) = 2 ^ 8 from rfl, ← Nat.pow_mul]
  rw [lowBytes, packNum_length, hdrop, ofBytes_toBytes, hpow]
  push_cast
  rw [Int.toNat_of_nonneg (u256_nonneg n), u256]
  apply Int.emod_emod_of_dvd
  exact pow_dvd_pow 2 (by omega : 8 * len ≤ 256)

/-! ## Typed values -/

namespace AbiType

/-- The size of an integer type. -/
def IntSize (size : Nat) : Prop := 8 ∣ size ∧ 8 ≤ size ∧ size ≤ 256

/-- The valid types whose encoding has a fixed size. -/
def Static : AbiType → Prop
  | int size | uint size => IntSize size
  | bool | address | function => True
  | fixedBytes size => 1 ≤ size ∧ size ≤ 32
  | array elem size => 1 ≤ size ∧ elem.Static
  | string | bytes | slice _ => False

/-- The valid types with at most one dynamic level. -/
def Supported : AbiType → Prop
  | string | bytes => True
  | slice elem => elem.Static
  | t => t.Static

/-- The Go values of a type, with integers in its range. -/
def Typed : AbiType → Value → Prop
  | int size, v => ∃ n, v = .num (reflectIntKind false size) n ∧ -2 ^ (size - 1) ≤ n ∧
    n < 2 ^ (size - 1)
  | uint size, v => ∃ n, v = .num (reflectIntKind true size) n ∧ 0 ≤ n ∧ n < 2 ^ size
  | bool, v => ∃ b, v = .bool b
  | string, v => ∃ b, v = .string b
  | slice elem, v => ∃ vs, v = .slice elem.kind vs ∧ ∀ x ∈ vs, elem.Typed x
  | array elem size, v => ∃ vs, v = .array elem.kind vs ∧ vs.length = size ∧ ∀ x ∈ vs, elem.Typed x
  | address, v => ∃ b, v = .array .uint8 (Value.ofBytes b) ∧ b.length = 20
  | fixedBytes size, v => ∃ b, v = .array .uint8 (Value.ofBytes b) ∧ b.length = size
  | bytes, v => ∃ b, v = .slice .uint8 (Value.ofBytes b)
  | function, v => ∃ b, v = .array .uint8 (Value.ofBytes b) ∧ b.length = 24

/-- No big integer in a value is negative. -/
def NonNeg : AbiType → Value → Prop
  | int size, v => ∀ n, v = .num .ptr n → reflectIntKind false size = .ptr → 0 ≤ n
  | slice elem, .slice _ vs | array elem _, .array _ vs => ∀ x ∈ vs, elem.NonNeg x
  | _, _ => True

/-- The words of a static type's encoding, and the head words of any other type. -/
def words : AbiType → Nat
  | array elem size => size * elem.words
  | _ => 1

theorem Static.words_pos {t : AbiType} (h : t.Static) : 1 ≤ t.words := by
  induction t with
  | array elem size ih => exact Nat.mul_pos h.1 (ih h.2)
  | _ => exact Nat.le_refl 1

end AbiType

@[simp] theorem Value.ofBytes_length (b : Bytes) : (Value.ofBytes b).length = b.length :=
  List.length_map _

theorem Value.mapM_byte (b : Bytes) : (Value.ofBytes b).mapM Value.byte = some b := by
  induction b with
  | nil => rfl
  | cons x b ih =>
    have hx : Value.byte (.num .uint8 x.toNat) = some x := by simp [Value.byte]
    simp only [Value.ofBytes, List.map_cons, List.mapM_cons, hx] at ih ⊢
    rw [ih]
    rfl

@[simp] theorem Value.bytes_array (b : Bytes) : (Value.array .uint8 (Value.ofBytes b)).bytes = some b :=
  Value.mapM_byte b

@[simp] theorem Value.bytes_slice (b : Bytes) : (Value.slice .uint8 (Value.ofBytes b)).bytes = some b :=
  Value.mapM_byte b

/-! ## Integers -/

theorem readInteger_packNum_uint {size : Nat} {n : Int} (h0 : 0 ≤ n) (h : n < 2 ^ size)
    (hsize : size ≤ 256) :
    readInteger (reflectIntKind true size) (packNum n) = .num (reflectIntKind true size) n := by
  have hlow : ∀ len, len ≤ 32 → size = 8 * len → lowBytes len (packNum n) = n := by
    intro len hlen heq
    rw [lowBytes_packNum n hlen, ← heq]
    exact Int.emod_eq_of_lt h0 h
  unfold reflectIntKind
  split
  · simp only [if_true, readInteger, hlow 1 (by omega) rfl]
  · simp only [if_true, readInteger, hlow 2 (by omega) rfl]
  · simp only [if_true, readInteger, hlow 4 (by omega) rfl]
  · simp only [if_true, readInteger, hlow 8 (by omega) rfl]
  · have hword : u256 n = n := by
      refine (u256_eq_self n).mpr ⟨h0, lt_of_lt_of_le h ?_⟩
      exact pow_le_pow_right₀ (by norm_num) hsize
    simp only [readInteger, ofBytes_packNum, hword]

theorem readInteger_packNum_int {size : Nat} {n : Int} (h0 : -2 ^ (size - 1) ≤ n)
    (h : n < 2 ^ (size - 1)) (hsize : size ≤ 256)
    (hneg : reflectIntKind false size = .ptr → 0 ≤ n) :
    readInteger (reflectIntKind false size) (packNum n) = .num (reflectIntKind false size) n := by
  have hlow : ∀ len, len ≤ 32 → 1 ≤ len → size = 8 * len →
      (lowBytes len (packNum n)).bmod (2 ^ (8 * len)) = n := by
    intro len hlen hpos heq
    rw [lowBytes_packNum n hlen]
    have hbmod := Int.emod_bmod (x := n) (n := 2 ^ (8 * len))
    push_cast at hbmod
    rw [hbmod]
    have hhalf : (2 : Int) ^ (8 * len) = 2 * 2 ^ (size - 1) := by
      rw [heq, ← pow_succ']
      congr 1
      omega
    apply Int.bmod_eq_of_le
    · push_cast
      omega
    · push_cast
      omega
  unfold reflectIntKind at hneg ⊢
  split at hneg
  · simpa [readInteger] using hlow 1 (by omega) (by omega) rfl
  · simpa [readInteger] using hlow 2 (by omega) (by omega) rfl
  · simpa [readInteger] using hlow 4 (by omega) (by omega) rfl
  · simpa [readInteger] using hlow 8 (by omega) (by omega) rfl
  · have hword : u256 n = n := by
      refine (u256_eq_self n).mpr ⟨hneg rfl, lt_of_lt_of_le h ?_⟩
      exact pow_le_pow_right₀ (by norm_num) (by omega : size - 1 ≤ 256)
    simp [readInteger, ofBytes_packNum, hword]

/-! ## Words at a place -/

section Reading

variable {data : Bytes} {pos : Nat}

theorem wordCheck_at {b : Bytes} (h : At data pos b) (hb : 32 ≤ b.length)
    (hlim : data.length < 2 ^ 63) :
    wordCheck data pos = .ok () := by
  have hle := h.le
  have hsum : int64 ((pos : Int) + 32) = pos + 32 := int64_small (by omega) (by omega)
  rw [wordCheck, hsum, if_neg (by omega)]

theorem sliceInt_at {b : Bytes} (h : At data pos b) {hi : Int} (hhi : hi = pos + b.length) :
    sliceInt data pos hi = some b := by
  have hslice := h.slice
  have hto : hi.toNat = pos + b.length := by omega
  rw [sliceInt, if_pos (by omega), Int.toNat_natCast, hto, hslice]

theorem wordAt_at {b : Bytes} (h : At data pos b) (hb : b.length = 32) (hlim : data.length < 2 ^ 63) :
    wordAt data pos = .ok b := by
  have hle := h.le
  have hsum : int64 ((pos : Int) + 32) = pos + 32 := int64_small (by omega) (by omega)
  rw [wordAt, hsum, sliceInt_at h (by omega)]
  rfl

end Reading

/-! ## Elementary types -/

theorem rightPad_length {b : Bytes} {l : Nat} (h : b.length ≤ l) : (rightPad b l).length = l := by
  simp only [rightPad, List.length_append, List.length_replicate]
  omega

theorem leftPad_length {b : Bytes} {l : Nat} (h : b.length ≤ l) : (leftPad b l).length = l := by
  simp only [leftPad, List.length_append, List.length_replicate]
  omega

theorem packBool_eq (b : Bool) : paddedBigBytes (if b then 1 else 0) 32 =
    List.replicate 31 0 ++ [if b then 1 else 0] := by
  cases b <;> decide

theorem readBool_packBool (b : Bool) :
    readBool (paddedBigBytes (if b then 1 else 0) 32) = .ok (.bool b) := by
  rw [packBool_eq]
  cases b <;> rfl

theorem readFixedBytes_rightPad (b : Bytes) :
    readFixedBytes b.length (rightPad b 32) = .ok (.array .uint8 (Value.ofBytes b)) := by
  have hat : At (rightPad b 32) 0 b := at_append [] b _
  have hslice := hat.slice
  rw [Nat.zero_add] at hslice
  rw [readFixedBytes, hslice]
  rfl

theorem ofBytes_replicate_zero (n : Nat) : ofBytes (List.replicate n 0) = 0 := by
  induction n with
  | zero => rfl
  | succ n ih =>
    rw [List.replicate_succ', ofBytes_append_singleton, ih]
    rfl

theorem readFunctionType_rightPad {b : Bytes} (h : b.length = 24) :
    readFunctionType (rightPad b 32) = .ok (.array .uint8 (Value.ofBytes b)) := by
  have hdrop : (rightPad b 32).drop 24 = List.replicate 8 0 := by
    rw [rightPad, h]
    exact List.drop_left' h
  have htake : (rightPad b 32).take 24 = b := by
    rw [rightPad, ← h, List.take_left]
  rw [readFunctionType, hdrop, htake, ofBytes_replicate_zero]
  rfl

theorem readAddress_leftPad {b : Bytes} (h : b.length = 20) :
    readAddress (leftPad b 32) = .array .uint8 (Value.ofBytes b) := by
  have hdrop : (leftPad b 32).drop 12 = b := by
    rw [leftPad, h]
    exact List.drop_left' (by simp)
  rw [readAddress, leftPad_length (by omega), hdrop]

/-- Types of one word, the leaves of arrays. -/
def AbiType.Elementary (t : AbiType) : Prop := t.Static ∧ ∀ elem size, t ≠ .array elem size

theorem AbiType.Elementary.pack {t : AbiType} {v : Value} (h : t.Elementary) (hv : t.Typed v) :
    ∃ b, t.pack v = .ok b ∧ b.length = 32 := by
  obtain ⟨hs, harr⟩ := h
  cases t with
  | string | bytes | slice => cases hs
  | array elem size => exact absurd rfl (harr elem size)
  | int size | uint size =>
    obtain ⟨n, rfl, -⟩ := hv
    exact ⟨packNum n, by simp [AbiType.pack, typeCheck, packElement, Value.kind, kind],
      packNum_length n⟩
  | bool =>
    obtain ⟨b, rfl⟩ := hv
    refine ⟨_, by simp [AbiType.pack, typeCheck, packElement, Value.kind, kind]; rfl, ?_⟩
    rw [packBool_eq]
    simp
  | address =>
    obtain ⟨b, rfl, hb⟩ := hv
    refine ⟨leftPad b 32, by simp [AbiType.pack, typeCheck, packElement, Value.kind, kind], ?_⟩
    exact leftPad_length (by omega)
  | function =>
    obtain ⟨b, rfl, hb⟩ := hv
    refine ⟨rightPad b 32, by simp [AbiType.pack, typeCheck, packElement, Value.kind, kind], ?_⟩
    exact rightPad_length (by omega)
  | fixedBytes size =>
    obtain ⟨b, rfl, hb⟩ := hv
    refine ⟨rightPad b 32, ?_, rightPad_length (by have := hs.2; omega)⟩
    simp [AbiType.pack, typeCheck, packElement, Value.kind, Value.elems, hb]

theorem AbiType.Elementary.unpack {t : AbiType} {v : Value} {b data : Bytes} {pos : Nat}
    (h : t.Elementary) (hv : t.Typed v) (hneg : t.NonNeg v) (hb : t.pack v = .ok b)
    (hat : At data pos b) (hlim : data.length < 2 ^ 63) : toGoType t pos data = .ok v := by
  obtain ⟨b', hb', hlen⟩ := h.pack hv
  rw [hb] at hb'
  cases hb'
  have hcheck := wordCheck_at hat (by omega) hlim
  have hword := wordAt_at hat hlen hlim
  obtain ⟨hs, harr⟩ := h
  cases t with
  | string | bytes | slice => cases hs
  | array elem size => exact absurd rfl (harr elem size)
  | int size =>
    obtain ⟨n, rfl, hmin, hmax⟩ := hv
    have hpack : b = packNum n := by
      simpa [AbiType.pack, typeCheck, packElement, Value.kind, kind, eq_comm] using hb
    have hread := readInteger_packNum_int hmin hmax hs.2.2 fun hk => hneg n (by rw [hk]) hk
    simp [toGoType, hcheck, hword, hpack, hread]
  | uint size =>
    obtain ⟨n, rfl, hmin, hmax⟩ := hv
    have hpack : b = packNum n := by
      simpa [AbiType.pack, typeCheck, packElement, Value.kind, kind, eq_comm] using hb
    simp [toGoType, hcheck, hword, hpack, readInteger_packNum_uint hmin hmax hs.2.2]
  | bool =>
    obtain ⟨x, rfl⟩ := hv
    have hpack : b = paddedBigBytes (if x then 1 else 0) 32 := by
      simpa [AbiType.pack, typeCheck, packElement, Value.kind, kind, eq_comm] using hb
    simp [toGoType, hcheck, hword, hpack, readBool_packBool]
  | address =>
    obtain ⟨x, rfl, hx⟩ := hv
    have hpack : b = leftPad x 32 := by
      simpa [AbiType.pack, typeCheck, packElement, Value.kind, kind, eq_comm] using hb
    simp [toGoType, hcheck, hword, hpack, readAddress_leftPad hx]
  | function =>
    obtain ⟨x, rfl, hx⟩ := hv
    have hpack : b = rightPad x 32 := by
      simpa [AbiType.pack, typeCheck, packElement, Value.kind, kind, eq_comm] using hb
    simp [toGoType, hcheck, hword, hpack, readFunctionType_rightPad hx]
  | fixedBytes size =>
    obtain ⟨x, rfl, hx⟩ := hv
    have hpack : b = rightPad x 32 := by
      simpa [AbiType.pack, typeCheck, packElement, Value.kind, Value.elems, hx, eq_comm] using hb
    have hread := readFixedBytes_rightPad x
    rw [hx] at hread
    simp [toGoType, hcheck, hword, hpack, hread]

/-! ## Arrays -/

/-- Well-typed values of static types pass the check. -/
theorem AbiType.Static.sliceTypeCheck {elem : AbiType} {size : Nat} {v : Value}
    (h : (array elem size).Static) (hv : (array elem size).Typed v) :
    (array elem size).sliceTypeCheck v = .ok () := by
  induction elem generalizing size v with
  | array elem' size' ih =>
    obtain ⟨hsize, hs⟩ := h
    obtain ⟨vs, rfl, hlen, hvs⟩ := hv
    cases vs with
    | nil =>
      simp only [List.length_nil] at hlen
      omega
    | cons v₀ vs =>
      simp only [AbiType.sliceTypeCheck, Value.elems, hlen, ne_eq, not_true_eq_false, if_false]
      exact ih hs (hvs v₀ List.mem_cons_self)
  | string | bytes | slice => cases h.2
  | _ =>
    obtain ⟨vs, rfl, hlen, -⟩ := hv
    simp [AbiType.sliceTypeCheck, Value.elems, hlen, elemKindCheck]

/-- Elements of one size, packed one after the other. -/
theorem mapAll_flatten {α : Type} {f : α → Result AbiError Bytes} {size : Nat} {vs : List α}
    (h : ∀ x ∈ vs, ∃ b, f x = .ok b ∧ b.length = size) :
    ∃ bs, Result.mapAll f vs = .ok bs ∧ bs.flatten.length = vs.length * size := by
  induction vs with
  | nil => exact ⟨[], rfl, by simp⟩
  | cons x vs ih =>
    obtain ⟨bs, hbs, hflat⟩ := ih fun y hy => h y (List.mem_cons_of_mem x hy)
    obtain ⟨b, hb, hlen⟩ := h x List.mem_cons_self
    refine ⟨b :: bs, by simp [Result.mapAll, hb, hbs], ?_⟩
    rw [List.flatten_cons, List.length_append, hlen, hflat, List.length_cons]
    ring

/-- A static value takes the words of its type. -/
theorem AbiType.Static.pack {t : AbiType} {v : Value} (h : t.Static) (hv : t.Typed v) :
    ∃ b, t.pack v = .ok b ∧ b.length = 32 * t.words := by
  induction t generalizing v with
  | array elem size ih =>
    have hcheck := h.sliceTypeCheck hv
    obtain ⟨hsize, hs⟩ := h
    obtain ⟨vs, rfl, hlen, hvs⟩ := hv
    obtain ⟨bs, hbs, hflat⟩ := mapAll_flatten fun x hx => ih hs (hvs x hx)
    refine ⟨bs.flatten, ?_, ?_⟩
    · simp [AbiType.pack, typeCheck, hcheck, Value.elems, hbs]
    · rw [hflat, hlen, words]
      ring
  | string | bytes | slice => cases h
  | _ =>
    obtain ⟨b, hb, hlen⟩ := Elementary.pack ⟨h, by simp⟩ hv
    exact ⟨b, hb, by simpa [words] using hlen⟩

/-- Elements that stand one after the other are read one after the other. -/
theorem unpackElems_at {toGo : Int → Result AbiError Value} {size : Nat} {data : Bytes}
    (hlim : data.length < 2 ^ 63) {bs : List Bytes} {vs : List Value} {pos : Nat}
    (h : List.Forall₂ (fun b v => b.length = size ∧
      ∀ p : Nat, At data p b → toGo p = .ok v) bs vs) (hat : At data pos bs.flatten) :
    unpackElems toGo size vs.length pos = .ok vs := by
  induction h generalizing pos with
  | nil => rfl
  | @cons b v bs vs hb _ ih =>
    rw [List.flatten_cons] at hat
    have hle := hat.left.le
    have hnext : int64 ((pos : Int) + size) = ((pos + b.length : Nat) : Int) := by
      rw [int64_small (by omega) (by omega), hb.1]
      rfl
    rw [List.length_cons, unpackElems, hb.2 pos hat.left, Result.ok_bind, hnext, ih hat.right]
    rfl

/-- The elements of a packed list can be read where they stand if each of them can. -/
theorem readable_elems {elem : AbiType} {size : Nat} {data : Bytes} {bs : List Bytes}
    {vs : List Value} (hall : List.Forall₂ (fun x b => elem.pack x = .ok b) vs bs)
    (hvs : ∀ x ∈ vs, elem.Typed x) (hneg : ∀ x ∈ vs, elem.NonNeg x)
    (hread : ∀ x c, elem.Typed x → elem.NonNeg x → elem.pack x = .ok c →
      c.length = size ∧ ∀ p : Nat, At data p c → toGoType elem p data = .ok x) :
    List.Forall₂ (fun c x => c.length = size ∧
      ∀ p : Nat, At data p c → toGoType elem p data = .ok x) bs vs := by
  induction hall with
  | nil => exact .nil
  | @cons x c vs bs hxc _ ih =>
    refine .cons (hread x c (hvs x List.mem_cons_self) (hneg x List.mem_cons_self) hxc) (ih ?_ ?_)
    · exact fun y hy => hvs y (List.mem_cons_of_mem x hy)
    · exact fun y hy => hneg y (List.mem_cons_of_mem x hy)

theorem AbiType.Static.getFullElemSize {t : AbiType} (h : t.Static) (hlim : 32 * t.words < 2 ^ 63) :
    getFullElemSize t = (32 * t.words : Nat) := by
  induction t with
  | array elem size ih =>
    have hpos := h.2.words_pos
    have hle : 32 * elem.words ≤ 32 * (size * elem.words) :=
      Nat.mul_le_mul_left 32 (Nat.le_mul_of_pos_left _ h.1)
    simp only [words] at hlim
    rw [Abi.getFullElemSize, ih h.2 (by omega), words, ← Nat.cast_mul,
      int64_small (by omega) (by rw [Nat.mul_assoc, Nat.mul_comm elem.words size]; omega)]
    congr 1
    ring
  | _ => rfl

theorem AbiType.Static.unpack {t : AbiType} {v : Value} {b data : Bytes} {pos : Nat}
    (h : t.Static) (hv : t.Typed v) (hneg : t.NonNeg v) (hb : t.pack v = .ok b)
    (hat : At data pos b) (hlim : data.length < 2 ^ 63) : toGoType t pos data = .ok v := by
  induction t generalizing v b pos with
  | array elem size ih =>
    obtain ⟨b', hb', hblen⟩ := h.pack hv
    rw [hb] at hb'
    cases hb'
    have hle := hat.le
    have hpos := h.words_pos
    have hword : ∃ w, At data pos w ∧ w.length = 32 := by
      refine ⟨b.take 32, ?_, by simp; omega⟩
      rw [← List.take_append_drop 32 b] at hat
      exact hat.left
    obtain ⟨w, hw, hwlen⟩ := hword
    have hcheck := wordCheck_at hat (by omega) hlim
    have hwordAt := wordAt_at hw hwlen hlim
    have hsize : size ≤ size * elem.words := Nat.le_mul_of_pos_right size h.2.words_pos
    have hwords : (array elem size).words = size * elem.words := rfl
    have hfor : forEachCheck data pos size = .ok () := by
      have h32 : int64 (32 * (size : Int)) = 32 * size := int64_small (by omega) (by omega)
      have hsum : int64 ((pos : Int) + 32 * size) = pos + 32 * size :=
        int64_small (by omega) (by omega)
      rw [forEachCheck, if_neg (by omega), h32, hsum, if_neg (by omega)]
    obtain ⟨vs, rfl, hlen, hvs⟩ := hv
    obtain ⟨bs, hbs, hflat⟩ : ∃ bs, List.Forall₂ (fun x b => elem.pack x = .ok b) vs bs ∧
        b = bs.flatten := by
      simp only [AbiType.pack, Value.elems, Result.ofOption_some, Result.ok_bind] at hb
      obtain ⟨-, -, hb⟩ := Result.bind_eq_ok.mp hb
      obtain ⟨bs, hbs, hb⟩ := Result.bind_eq_ok.mp hb
      cases hb
      exact ⟨bs, Result.mapAll_eq_ok.mp hbs, rfl⟩
    have hmul : elem.words ≤ size * elem.words := Nat.le_mul_of_pos_left _ h.1
    have hfull := h.2.getFullElemSize (by omega)
    have helems : List.Forall₂ (fun c x => c.length = 32 * elem.words ∧
        ∀ p : Nat, At data p c → toGoType elem p data = .ok x) bs vs := by
      refine readable_elems hbs hvs hneg fun x c hx hnx hc => ?_
      obtain ⟨c', hc', hclen⟩ := h.2.pack hx
      rw [hc] at hc'
      cases hc'
      exact ⟨hclen, fun p hp => ih h.2 hx hnx hc hp⟩
    rw [hflat] at hat
    have hloop := @unpackElems_at (fun i => toGoType elem i data) _ _ hlim _ _ _ helems hat
    rw [hlen] at hloop
    simp only [toGoType, hcheck, hwordAt, hfor, Result.ok_bind, hfull, hloop]
    rfl
  | string | bytes | slice => cases h
  | _ => exact Elementary.unpack ⟨h, by simp⟩ hv hneg hb hat hlim

end MiniEvm.Abi
