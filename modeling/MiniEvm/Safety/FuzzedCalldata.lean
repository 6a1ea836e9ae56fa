import MiniEvm.Abi.Canonical

namespace MiniEvm.Abi

open Math Framework

/-! ## Types whose draws leave the layout -/

theorem encoding_length (offset : Int) (ps : List (Bool × Bytes)) (q : Nat) :
    (heads offset ps q ++ tails ps).length =
      (ps.map fun p => (if p.1 then 32 else 0) + p.2.length).sum := by
  induction ps generalizing q with
  | nil => rfl
  | cons p ps ih =>
    obtain ⟨flag, b⟩ := p
    simp only [List.length_append] at ih
    cases flag with
    | true =>
      have ih := ih (q + b.length)
      simp only [heads, tails, List.length_append, packNum_length, List.map_cons, List.sum_cons,
        if_true]
      omega
    | false =>
      have ih := ih q
      simp only [heads, tails, List.length_append, List.map_cons, List.sum_cons,
        Bool.false_eq_true, if_false]
      omega

theorem packElement_length {t : AbiType} {v : Value} {b : Bytes} (h : packElement t v = some b) :
    32 ≤ b.length := by
  have hleft : ∀ x : Bytes, 32 ≤ (leftPad x 32).length := by
    intro x
    simp only [leftPad, List.length_append, List.length_replicate]
    omega
  have hright : ∀ x : Bytes, 32 ≤ (rightPad x 32).length := by
    intro x
    simp only [rightPad, List.length_append, List.length_replicate]
    omega
  have hslice : ∀ (x : Bytes) l, 32 ≤ (packBytesSlice x l).length := by
    intro x l
    rw [packBytesSlice, List.length_append, packNum_length]
    omega
  unfold packElement at h
  split at h
  case h_1 | h_2 =>
    rw [← Option.some.inj h, packNum_length]
  case h_3 =>
    rw [← Option.some.inj h]
    exact hslice _ _
  case h_4 =>
    obtain ⟨x, -, rfl⟩ := Option.map_eq_some_iff.mp h
    exact hleft x
  case h_5 =>
    rw [← Option.some.inj h, packBool_eq]
    simp
  case h_6 =>
    obtain ⟨x, -, rfl⟩ := Option.map_eq_some_iff.mp h
    exact hslice _ _
  case h_7 | h_8 =>
    obtain ⟨x, -, rfl⟩ := Option.map_eq_some_iff.mp h
    exact hright x
  case h_9 => cases h

namespace AbiType

/-- Every packed value takes a word at least. -/
theorem Fuzzable.pack_length {t : AbiType} {v : Value} {b : Bytes} (h : t.Fuzzable)
    (hb : t.pack v = .ok b) : 32 ≤ b.length := by
  have hbase : ∀ {t : AbiType} {v : Value} {b : Bytes}, t.Base → t.pack v = .ok b → 32 ≤ b.length := by
    intro t v b ht hb
    cases t with
    | slice | array => cases ht
    | _ =>
      obtain ⟨-, -, hb⟩ := Result.bind_eq_ok.mp hb
      exact packElement_length (Result.ofOption_eq_ok.mp hb)
  cases t with
  | slice elem =>
    obtain ⟨-, -, hb⟩ := Result.bind_eq_ok.mp hb
    obtain ⟨⟨k, vs⟩, -, hb⟩ := Result.bind_eq_ok.mp hb
    obtain ⟨packed, -, hb⟩ := Result.bind_eq_ok.mp hb
    rw [← Result.ok.inj hb, packBytesSlice, List.length_append, packNum_length]
    omega
  | array elem size =>
    obtain ⟨u, hcheck, hb⟩ := Result.bind_eq_ok.mp hb
    obtain ⟨⟨k, vs⟩, hvs, hb⟩ := Result.bind_eq_ok.mp hb
    obtain ⟨packed, hpacked, hb⟩ := Result.bind_eq_ok.mp hb
    have hsize : vs.length = size := by
      rw [typeCheck, AbiType.sliceTypeCheck, Result.ofOption_eq_ok.mp hvs] at hcheck
      by_contra hne
      simp [hne] at hcheck
    rw [← Result.ok.inj hb]
    cases Result.mapAll_eq_ok.mp hpacked with
    | nil =>
      rw [List.length_nil] at hsize
      exact absurd h.1 (by omega)
    | @cons v c vs cs hc _ =>
      rw [List.flatten_cons, List.length_append]
      exact Nat.le_add_right_of_le (hbase h.2 hc)
  | _ =>
    refine hbase ?_ hb
    exact h

/-- The draw of a zero. -/
def zeroOf : Kind → Draw
  | .uint8 | .uint16 | .uint32 | .uint64 => .uint64 0
  | .int8 | .int16 | .int32 | .int64 => .int64 0
  | _ => .special ⟨0, Nat.zero_lt_succ 3⟩ ⟨0, Nat.zero_lt_succ 15⟩

/-- The draw that gives zeros and no elements. -/
def zeroDraw : AbiType → Draw
  | int size => zeroOf (reflectIntKind false size)
  | uint size => zeroOf (reflectIntKind true size)
  | bool => .bool false
  | address => .address 0
  | string | bytes => .bytes []
  | slice _ | array _ _ | fixedBytes _ | function => .elems []

theorem fuzzNum_zeroOf (unsigned : Bool) (size : Nat) :
    ∃ n, fuzzNum (reflectIntKind unsigned size) (zeroOf (reflectIntKind unsigned size)) =
      .ok (packNum n) := by
  unfold reflectIntKind
  cases unsigned <;> split <;> exact ⟨_, rfl⟩

theorem fuzz_zeroDraw (t : AbiType) :
    ∃ b, t.fuzz t.zeroDraw = .ok b ∧ b.length = if t.isNarrow then 32 else 0 := by
  cases t with
  | int size =>
    obtain ⟨n, hn⟩ := fuzzNum_zeroOf false size
    exact ⟨_, hn, packNum_length n⟩
  | uint size =>
    obtain ⟨n, hn⟩ := fuzzNum_zeroOf true size
    exact ⟨_, hn, packNum_length n⟩
  | address =>
    refine ⟨leftPad (Address.bytes 0) 32, ?_, leftPad_length (by simp [Address.bytes])⟩
    simp [AbiType.fuzz, fuzzElement, zeroDraw, Draw.asAddress, fuzzAddress_eq]
  | bool => exact ⟨paddedBigBytes (if false then 1 else 0) 32, rfl, by rw [packBool_eq]; rfl⟩
  | string | bytes =>
    exact ⟨packBytesSlice [] 0, rfl, by rw [packBytesSlice, List.length_append, packNum_length]; rfl⟩
  | slice elem =>
    refine ⟨packFuzzedBytesSlice [], rfl, ?_⟩
    rw [packFuzzedBytesSlice, List.length_append, packNum_length]
    rfl
  | array | fixedBytes | function => exact ⟨[], rfl, rfl⟩

end AbiType

/-- The pieces of the zero draws. -/
theorem Fuzzed.zero (ts : List AbiType) : ∃ ps, Fuzzed ts (ts.map AbiType.zeroDraw) ps ∧
    ps.map (fun p => (if p.1 then 32 else 0) + p.2.length) =
      ts.map fun t => (if t.requiresLengthPrefix then 32 else 0) + if t.isNarrow then 32 else 0 := by
  induction ts with
  | nil => exact ⟨[], .nil, rfl⟩
  | cons t ts ih =>
    obtain ⟨ps, hps, hsizes⟩ := ih
    obtain ⟨b, hb, hlen⟩ := t.fuzz_zeroDraw
    refine ⟨_, .cons hb hps, ?_⟩
    rw [List.map_cons, List.map_cons, hsizes, hlen]

theorem pieces_le (ts : List AbiType) {ps : List (Bool × Bytes)}
    (h : ps.map (fun p => (if p.1 then 32 else 0) + p.2.length) =
      ts.map fun t => (if t.requiresLengthPrefix then 32 else 0) + if t.isNarrow then 32 else 0) :
    (ps.map fun p => (if p.1 then 32 else 0) + p.2.length).sum ≤ 64 * ts.length := by
  have hle := List.sum_le_card_nsmul (ts.map fun t =>
    (if t.requiresLengthPrefix then 32 else 0) + if t.isNarrow then 32 else 0) 64 (by
      intro n hn
      obtain ⟨t, -, rfl⟩ := List.mem_map.mp hn
      split_ifs <;> omega)
  rw [List.length_map, smul_eq_mul] at hle
  rw [h]
  omega

theorem Packed.size {ts : List AbiType} {vs : List Value} {ps : List (Bool × Bytes)}
    (h : Packed ts vs ps) (hs : ∀ t ∈ ts, t.Fuzzable) :
    (ts.map fun t => (if t.requiresLengthPrefix then 32 else 0) + 32).sum ≤
      (ps.map fun p => (if p.1 then 32 else 0) + p.2.length).sum := by
  induction h with
  | nil => exact Nat.le_refl _
  | @cons t v b ts vs ps hb _ ih =>
    have ih := ih fun u hu => hs u (List.mem_cons_of_mem _ hu)
    have hlen := (hs t List.mem_cons_self).pack_length hb
    simp only [List.map_cons, List.sum_cons]
    omega

/-- An argument whose fuzzed head is not one word: with zero draws the encoding is too short. -/
theorem not_canonical_of_not_narrow {ts : List AbiType} (hs : ∀ t ∈ ts, t.Fuzzable)
    (hsmall : 128 * ts.length < 2 ^ 63) (hbad : ∃ t ∈ ts, t.isNarrow = false) :
    ∃ ds data, fuzzArguments (ofTypes ts) ds = .ok data ∧ data.length < 2 ^ 63 ∧
      ¬ Canonical ts data := by
  obtain ⟨ps, hps, hsizes⟩ := Fuzzed.zero ts
  refine ⟨_, _, fuzzArguments_eq hps, ?_, ?_⟩
  · have hle := pieces_le ts hsizes
    rw [encoding_length]
    omega
  · intro hcanonical
    obtain ⟨vs, qs, -, hpack, hqs, -⟩ := hcanonical.roundTrips
    rw [packArguments_eq hqs] at hpack
    have hsame := congrArg List.length (Result.ok.inj hpack)
    rw [encoding_length, encoding_length, hsizes] at hsame
    have hless : (ts.map fun t => (if t.requiresLengthPrefix then 32 else 0) +
        if t.isNarrow then 32 else 0).sum <
          (ts.map fun t => (if t.requiresLengthPrefix then 32 else 0) + 32).sum := by
      obtain ⟨t, ht, hn⟩ := hbad
      refine List.sum_lt_sum _ _ (fun u _ => ?_) ⟨t, ht, ?_⟩
      · split_ifs <;> omega
      · rw [hn]
        simp
    have hle := hqs.size hs
    omega

/-! ## Types whose draws are not values -/

/-- Wherever such a piece stands, the argument is not decoded or has an integer out of range. -/
def Spoils (t : AbiType) (b : Bytes) : Prop :=
  ∀ data pos, data.length < 2 ^ 63 → (t.requiresLengthPrefix = false → At data pos b) →
    (t.requiresLengthPrefix = true → ∃ o : Nat, At data pos (packNum o) ∧ At data o b) →
      (∀ v, toGoType t pos data ≠ .ok v) ∨ ¬ InRange data t pos

theorem reflectIntKind_or (size : Nat) :
    (size = 8 ∨ size = 16 ∨ size = 32 ∨ size = 64) ∨ ∀ unsigned, reflectIntKind unsigned size = .ptr := by
  by_cases h : size = 8 ∨ size = 16 ∨ size = 32 ∨ size = 64
  · exact .inl h
  · refine .inr fun unsigned => ?_
    unfold reflectIntKind
    split <;> simp at h ⊢

/-- A draw of an integer that is out of range. -/
theorem exists_outside_int {size : Nat} (h : AbiType.IntSize size)
    (hbad : (AbiType.int size).isWordDrawn = false) :
    ∃ d n, (AbiType.int size).fuzz d = .ok (packNum n) ∧
      ∀ data pos, At data pos (packNum n) → ¬ InRange data (.int size) pos := by
  simp only [AbiType.isWordDrawn, Bool.or_eq_false_iff, decide_eq_false_iff_not] at hbad
  have hread : ∀ n, (ofBytes (packNum n) : Int) = u256 n := ofBytes_packNum
  rcases reflectIntKind_or size with hsmall | hptr
  · refine ⟨.int64 Int64.maxValue, Int64.maxValue.toInt, ?_, fun data pos hat hin => ?_⟩
    · rcases hsmall with rfl | rfl | rfl | rfl <;> rfl
    · obtain ⟨-, hlt⟩ := hin _ hat (packNum_length _)
      have hval : s256 (u256 Int64.maxValue.toInt) = 2 ^ 63 - 1 := by decide
      rw [hread, hval] at hlt
      rcases hsmall with rfl | rfl | rfl | rfl <;> omega
  · refine ⟨.special 2 0, 2 ^ 255, ?_, fun data pos hat hin => ?_⟩
    · change fuzzNum (reflectIntKind false size) _ = _
      rw [hptr]
      rfl
    · obtain ⟨hle, -⟩ := hin _ hat (packNum_length _)
      have hval : s256 (u256 (2 ^ 255)) = -2 ^ 255 := by decide
      rw [hread, hval] at hle
      have hpow : (2 : Int) ^ (size - 1) < 2 ^ 255 := by
        have := h.2.1
        have := h.2.2
        exact pow_lt_pow_right₀ (by norm_num) (by omega)
      omega

theorem exists_outside_uint {size : Nat} (h : AbiType.IntSize size)
    (hbad : (AbiType.uint size).isWordDrawn = false) :
    ∃ d n, (AbiType.uint size).fuzz d = .ok (packNum n) ∧
      ∀ data pos, At data pos (packNum n) → ¬ InRange data (.uint size) pos := by
  simp only [AbiType.isWordDrawn, Bool.or_eq_false_iff, decide_eq_false_iff_not] at hbad
  have hread : ∀ n, (ofBytes (packNum n) : Int) = u256 n := ofBytes_packNum
  rcases reflectIntKind_or size with hsmall | hptr
  · refine ⟨.uint64 maxUint64, maxUint64.toNat, ?_, fun data pos hat hin => ?_⟩
    · rcases hsmall with rfl | rfl | rfl | rfl <;> rfl
    · have hlt := hin _ hat (packNum_length _)
      have hval : u256 maxUint64.toNat = 2 ^ 64 - 1 := by decide
      have hword := hread maxUint64.toNat
      rw [hval] at hword
      rcases hsmall with rfl | rfl | rfl | rfl <;> omega
  · refine ⟨.special 2 0, 2 ^ 255, ?_, fun data pos hat hin => ?_⟩
    · change fuzzNum (reflectIntKind true size) _ = _
      rw [hptr]
      rfl
    · have hlt := hin _ hat (packNum_length _)
      have hval : u256 (2 ^ 255) = 2 ^ 255 := by decide
      have hword := hread (2 ^ 255)
      rw [hval] at hword
      have hpow : 2 ^ size ≤ 2 ^ 255 := by
        have := h.2.2
        exact Nat.pow_le_pow_right (by norm_num) (by omega)
      have hbig : (ofBytes (packNum (2 ^ 255))) = 2 ^ 255 := by exact_mod_cast hword
      omega

theorem packFuzzedBytesSlice_words {b : Bytes} {n : Nat} (h : b.length = n * 32) :
    packFuzzedBytesSlice b = packNum n ++ b := by
  rw [packFuzzedBytesSlice_eq h, packBytesSlice, rightPad, h, Nat.sub_eq_zero_of_le (by omega)]
  simp

/-- A slice with one integer that is out of range. -/
theorem spoils_slice {elem : AbiType} {d : Draw} {n : Int}
    (hfuzz : elem.fuzz d = .ok (packNum n))
    (hout : ∀ data pos, At data pos (packNum n) → ¬ InRange data elem pos) :
    ∃ d b, (AbiType.slice elem).fuzz d = .ok b ∧ b.length ≤ 96 ∧ Spoils (.slice elem) b := by
  have hb : packFuzzedBytesSlice [packNum n].flatten = packNum 1 ++ packNum n := by
    rw [List.flatten_cons, List.flatten_nil, List.append_nil]
    exact packFuzzedBytesSlice_words (by rw [packNum_length])
  refine ⟨.elems [d], packNum 1 ++ packNum n, ?_, by simp, ?_⟩
  · simp only [AbiType.fuzz, Draw.asElems, List.length_singleton, Nat.one_lt_ofNat, if_true,
      Result.ofOption_some, Result.ok_bind, Result.mapAll, hfuzz, Result.pure_eq, hb]
  · intro data pos hlim _ hplace
    obtain ⟨o, hoffset, hat⟩ := hplace rfl
    refine .inr fun hin => ?_
    have hle := hat.le
    rw [List.length_append, packNum_length, packNum_length] at hle
    have ho : ofBytes (packNum o) = o := ofBytes_packNum_nat (by omega)
    have hone : ofBytes (packNum 1) = 1 := @ofBytes_packNum_nat 1 (by norm_num)
    have hin := hin (packNum o) (packNum 1) hoffset (packNum_length _) (by rw [ho]; exact hat.left)
      (packNum_length _) 0 (by rw [hone]; omega)
    have hword := hat.right
    rw [packNum_length] at hword
    rw [ho, Nat.zero_mul, Nat.mul_zero, Nat.add_zero] at hin
    exact hout data (o + 32) hword hin

/-- An offset behind the end of the data is not followed. -/
theorem lengthPrefixPointsTo_le {data w : Bytes} {index : Nat} {r : Int × Int}
    (hlim : data.length < 2 ^ 63) (hw : At data index w) (hwlen : w.length = 32)
    (h : lengthPrefixPointsTo index data = .ok r) : ofBytes w + 32 ≤ data.length := by
  have hle := hw.le
  have hsum : int64 ((index : Int) + 32) = index + 32 := int64_small (by omega) (by omega)
  have hword : sliceInt data index (index + 32) = some w := sliceInt_at hw (by omega)
  simp only [lengthPrefixPointsTo, hsum, hword, Result.ofOption_some, Result.ok_bind] at h
  split_ifs at h with h1 h2
  omega

/-- A slice with one string of one byte, which is taken for two elements. -/
theorem spoils_strings {elem : AbiType} (helem : elem = .string ∨ elem = .bytes) :
    ∃ d b, (AbiType.slice elem).fuzz d = .ok b ∧ b.length ≤ 96 ∧ Spoils (.slice elem) b := by
  have hfuzz : elem.fuzz (.bytes [0x61]) = .ok (packNum 1 ++ rightPad [0x61] 32) := by
    rcases helem with rfl | rfl <;> rfl
  have hpad : (rightPad [0x61] 32).length = 32 := rfl
  have hb : packFuzzedBytesSlice [packNum 1 ++ rightPad [0x61] 32].flatten =
      packNum 2 ++ (packNum 1 ++ rightPad [0x61] 32) := by
    rw [List.flatten_cons, List.flatten_nil, List.append_nil]
    exact packFuzzedBytesSlice_words (by rw [List.length_append, packNum_length, hpad])
  refine ⟨.elems [.bytes [0x61]], packNum 2 ++ (packNum 1 ++ rightPad [0x61] 32), ?_, ?_, ?_⟩
  · simp only [AbiType.fuzz, Draw.asElems, List.length_singleton, Nat.one_lt_ofNat, if_true,
      Result.ofOption_some, Result.ok_bind, Result.mapAll, hfuzz, Result.pure_eq, hb]
  · simp [hpad]
  · intro data pos hlim _ hplace
    obtain ⟨o, hoffset, hat⟩ := hplace rfl
    refine .inl fun v hv => ?_
    have hle := hat.le
    simp only [List.length_append, packNum_length, hpad] at hle
    have ho : ofBytes (packNum o) = o := ofBytes_packNum_nat (by omega)
    have htwo : ofBytes (packNum 2) = 2 := @ofBytes_packNum_nat 2 (by norm_num)
    obtain ⟨-, -, hv⟩ := Result.bind_eq_ok.mp hv
    obtain ⟨⟨start, size⟩, hpoints, hv⟩ := Result.bind_eq_ok.mp hv
    obtain ⟨-, -, hv⟩ := Result.bind_eq_ok.mp hv
    obtain ⟨vs, hvs, -⟩ := Result.bind_eq_ok.mp hv
    obtain ⟨rfl, rfl, -⟩ := lengthPrefixPointsTo_spec hlim hoffset (packNum_length _) ho hat.left
      (packNum_length _) hpoints
    rw [htwo] at hvs
    obtain ⟨v₀, -, hvs⟩ := Result.bind_eq_ok.mp hvs
    obtain ⟨vs₁, hvs₁, -⟩ := Result.bind_eq_ok.mp hvs
    obtain ⟨v₁, hv₁, -⟩ := Result.bind_eq_ok.mp hvs₁
    have hpos : int64 ((o : Int) + 32 + 32) = ((o + 32 + 32 : Nat) : Int) := by
      rw [int64_small (by omega) (by omega)]
      rfl
    rw [hpos] at hv₁
    have hword := hat.right.right
    rw [packNum_length, packNum_length] at hword
    have hbig : 2 ^ 63 ≤ ofBytes (rightPad [0x61] 32) := by decide
    have hfollow : ∃ r, lengthPrefixPointsTo ((o + 32 + 32 : Nat) : Int) data = .ok r := by
      rcases helem with rfl | rfl
      all_goals
        obtain ⟨-, -, hv₁⟩ := Result.bind_eq_ok.mp hv₁
        obtain ⟨r, hr, -⟩ := Result.bind_eq_ok.mp hv₁
        exact ⟨r, hr⟩
    obtain ⟨r, hr⟩ := hfollow
    have hend := lengthPrefixPointsTo_le hlim hword hpad hr
    omega

theorem exists_spoils {t : AbiType} (hs : t.Fuzzable) (hn : t.isNarrow = true)
    (hbad : t.isWellFuzzed = false) : ∃ d b, t.fuzz d = .ok b ∧ b.length ≤ 96 ∧ Spoils t b := by
  cases t with
  | int size =>
    obtain ⟨d, n, hd, hout⟩ := exists_outside_int hs hbad
    exact ⟨d, _, hd, by simp, fun data pos _ hat _ => .inr (hout data pos (hat rfl))⟩
  | uint size =>
    obtain ⟨d, n, hd, hout⟩ := exists_outside_uint hs hbad
    exact ⟨d, _, hd, by simp, fun data pos _ hat _ => .inr (hout data pos (hat rfl))⟩
  | slice elem =>
    cases elem with
    | int size =>
      obtain ⟨d, n, hd, hout⟩ := exists_outside_int hs hbad
      exact spoils_slice hd hout
    | uint size =>
      obtain ⟨d, n, hd, hout⟩ := exists_outside_uint hs hbad
      exact spoils_slice hd hout
    | string => exact spoils_strings (.inl rfl)
    | bytes => exact spoils_strings (.inr rfl)
    | slice | array => cases hs
    | _ => cases hbad
  | array | fixedBytes | function => cases hn
  | _ => cases hbad

theorem AbiType.Fuzzable.static {t : AbiType} (h : t.Fuzzable) (hn : t.isNarrow = true)
    (hp : t.requiresLengthPrefix = false) : t.Static := by
  cases t with
  | string | bytes | slice => cases hp
  | array | fixedBytes | function => cases hn
  | _ => exact h

/-- What a canonical encoding says about one argument. -/
theorem Canonical.argument {front rest : List AbiType} {t : AbiType} {data : Bytes}
    (h : Canonical (front ++ t :: rest) data) (hs : ∀ u ∈ front ++ t :: rest, u.Fuzzable)
    (hn : ∀ u ∈ front ++ t :: rest, u.isNarrow = true)
    (hsmall : 32 * (front ++ t :: rest).length < 2 ^ 63) :
    (∃ v, toGoType t ((32 * front.length : Nat) : Int) data = .ok v) ∧
      InRange data t (32 * front.length) := by
  have hfront : (front.map AbiType.words).sum = front.length :=
    words_sum_narrow fun u hu => hn u (List.mem_append_left _ hu)
  have hin := h.inRange front t rest rfl
  rw [hfront] at hin
  refine ⟨?_, hin⟩
  obtain ⟨vs, ps, hunpack, -, hps, -⟩ := h.roundTrips
  have hlen := hps.length
  have hlt : front.length < vs.length := by
    rw [hlen, List.length_append, List.length_cons]
    omega
  have hsplit : vs =
      vs.take front.length ++ vs.get ⟨front.length, hlt⟩ :: vs.drop (front.length + 1) := by
    conv_lhs => rw [← List.take_append_drop front.length vs, List.drop_eq_getElem_cons hlt]
    rfl
  rw [unpackValues_ofTypes, hsplit] at hunpack
  rw [List.length_append] at hsmall
  have hread := unpackLoop_read (i := 0) (j := 0)
    (fun u hu => (hs u (List.mem_append_left _ hu)).static (hn u (List.mem_append_left _ hu)))
    (by rw [hfront]; omega) (by rw [List.length_take]; omega) hunpack
  rw [hfront, Nat.zero_add] at hread
  exact ⟨_, hread⟩

/-- An argument with a draw that is not a value, among zero draws. -/
theorem not_canonical_of_narrow {ts : List AbiType} (hs : ∀ t ∈ ts, t.Fuzzable)
    (hsmall : 128 * ts.length < 2 ^ 63) (hn : ∀ t ∈ ts, t.isNarrow = true)
    (hbad : ∃ t ∈ ts, t.isWellFuzzed = false) :
    ∃ ds data, fuzzArguments (ofTypes ts) ds = .ok data ∧ data.length < 2 ^ 63 ∧
      ¬ Canonical ts data := by
  obtain ⟨t, ht, hbad⟩ := hbad
  obtain ⟨d, b, hd, hb, hspoils⟩ := exists_spoils (hs t ht) (hn t ht) hbad
  obtain ⟨front, rest, rfl⟩ := List.append_of_mem ht
  obtain ⟨psA, hA, hsizesA⟩ := Fuzzed.zero front
  obtain ⟨psB, hB, hsizesB⟩ := Fuzzed.zero rest
  have hfuzzed := hA.append (.cons hd hB)
  have hlim : (heads (inputOffset (ofTypes (front ++ t :: rest)))
      (psA ++ (t.requiresLengthPrefix, b) :: psB) 0 ++
        tails (psA ++ (t.requiresLengthPrefix, b) :: psB)).length < 2 ^ 63 := by
    have hleA := pieces_le front hsizesA
    have hleB := pieces_le rest hsizesB
    rw [List.length_append, List.length_cons] at hsmall
    rw [encoding_length, List.map_append, List.sum_append, List.map_cons, List.sum_cons]
    dsimp only
    split_ifs <;> omega
  refine ⟨_, _, fuzzArguments_eq hfuzzed, hlim, fun hcanonical => ?_⟩
  obtain ⟨hstatic, hdynamic⟩ := (hfuzzed.narrow hn).places hn hfuzzed.length.2 rfl hlim
  obtain ⟨⟨v, hv⟩, hin⟩ := hcanonical.argument hs hn (by omega)
  rw [hA.length.2] at hstatic hdynamic
  rcases hspoils _ _ hlim hstatic hdynamic with hfails | hout
  · exact hfails v hv
  · exact hout hin

/-- Every outcome of the random choices gives calldata, and for which types all of it is canonical. -/
theorem fuzzArguments_canonical_iff (ts : List AbiType) (hs : ∀ t ∈ ts, t.Fuzzable)
    (hsmall : 128 * ts.length < 2 ^ 63) :
    (∀ ds, (∃ data, fuzzArguments (ofTypes ts) ds = .ok data) ↔ List.Forall₂ AbiType.Draws ts ds) ∧
    ((∀ ds data, fuzzArguments (ofTypes ts) ds = .ok data → data.length < 2 ^ 63 →
      Canonical ts data) ↔ ∀ t ∈ ts, t.isWellFuzzed = true) := by
  refine ⟨fun ds => fuzzArguments_isOk_iff, ?_⟩
  constructor
  · intro h t ht
    by_contra hbad
    have hfails : ∃ ds data, fuzzArguments (ofTypes ts) ds = .ok data ∧ data.length < 2 ^ 63 ∧
        ¬ Canonical ts data := by
      by_cases hn : ∀ t ∈ ts, t.isNarrow = true
      · exact not_canonical_of_narrow hs hsmall hn ⟨t, ht, Bool.eq_false_of_not_eq_true hbad⟩
      · simp only [not_forall, Bool.not_eq_true] at hn
        obtain ⟨u, hu, hwide⟩ := hn
        exact not_canonical_of_not_narrow hs hsmall ⟨u, hu, hwide⟩
    obtain ⟨ds, data, hfuzz, hlim, hnot⟩ := hfails
    exact hnot (h ds data hfuzz hlim)
  · intro h ds data hfuzz hlim
    exact wellFuzzed_canonical hs h hfuzz hlim

/-- `(address, uint64, string, int256[])`. -/
def fuzzedSignature : List AbiType := [.address, .uint 64, .string, .slice (.int 256)]

def fuzzedDraws : List Draw :=
  [.address 7, .uint64 5, .bytes [104, 105],
    .elems [.special 3 ⟨0, by decide⟩, .special 2 ⟨1, by decide⟩]]

theorem fuzzedSignature_canonical : ∃ data,
    fuzzArguments (ofTypes fuzzedSignature) fuzzedDraws = .ok data ∧
      Canonical fuzzedSignature data := by
  have hs : ∀ t ∈ fuzzedSignature, t.Fuzzable := by
    simp [fuzzedSignature, AbiType.Fuzzable, AbiType.Base, AbiType.IntSize]
  have hgood : ∀ t ∈ fuzzedSignature, t.isWellFuzzed = true := by decide
  have hsize : (fuzzArguments (ofTypes fuzzedSignature) fuzzedDraws).toOption.any
      (fun data => data.length < 2 ^ 63) = true := by decide +kernel
  cases hfuzz : fuzzArguments (ofTypes fuzzedSignature) fuzzedDraws with
  | ok data =>
    rw [hfuzz] at hsize
    exact ⟨data, rfl, (fuzzArguments_canonical_iff fuzzedSignature hs (by decide)).2.mpr hgood _ _
      hfuzz (of_decide_eq_true hsize)⟩
  | error e =>
    rw [hfuzz] at hsize
    cases hsize
  | panic =>
    rw [hfuzz] at hsize
    cases hsize

/-- Nothing is drawn for a `bytes4`, and a `uint8` may be drawn as 256. -/
theorem fuzzed_not_canonical :
    (fuzzArguments (ofTypes [.fixedBytes 4]) [.elems []] = .ok [] ∧ ¬ Canonical [.fixedBytes 4] []) ∧
    (fuzzArguments (ofTypes [.uint 8]) [.uint64 256] = .ok (packNum 256) ∧
      ¬ Canonical [.uint 8] (packNum 256)) := by
  refine ⟨⟨rfl, fun h => ?_⟩, ?_, fun h => ?_⟩
  · have hfails : (unpackValues (ofTypes [.fixedBytes 4]) []).toOption.isNone = true := by
      decide +kernel
    obtain ⟨vs, ps, hunpack, -⟩ := h.roundTrips
    rw [hunpack] at hfails
    cases hfails
  · rw [fuzzArguments_eq (.cons rfl .nil)]
    exact congrArg Result.ok (List.append_nil _)
  · have hin := h.inRange [] (.uint 8) [] rfl
    have hlt := hin (packNum 256) ⟨[], [], by simp, rfl⟩ (packNum_length _)
    have hval : ofBytes (packNum 256) = 256 := @ofBytes_packNum_nat 256 (by norm_num)
    omega

end MiniEvm.Abi
