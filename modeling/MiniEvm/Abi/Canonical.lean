import MiniEvm.Abi.FuzzLayout
import MiniEvm.Safety.RoundTrip

namespace MiniEvm.Abi

open Math Framework

/-! ## Canonical encodings -/

/-- The bytes of the head. -/
def headLength (ps : List (Bool × Bytes)) : Nat :=
  (ps.map fun p => if p.1 then 32 else p.2.length).sum

/-- Every integer word that a value of the type has is in the range of its type, where the value or
its head word stands at the position. -/
def InRange (data : Bytes) : AbiType → Nat → Prop
  | .int size, pos => ∀ w, At data pos w → w.length = 32 →
      -2 ^ (size - 1) ≤ s256 (ofBytes w) ∧ s256 (ofBytes w) < 2 ^ (size - 1)
  | .uint size, pos => ∀ w, At data pos w → w.length = 32 → ofBytes w < 2 ^ size
  | .array elem size, pos => ∀ i < size, InRange data elem (pos + 32 * (i * elem.words))
  | .slice elem, pos => ∀ o l, At data pos o → o.length = 32 → At data (ofBytes o) l →
      l.length = 32 → ∀ i < ofBytes l, InRange data elem (ofBytes o + 32 + 32 * (i * elem.words))
  | _, _ => True

/-- A canonical encoding for a list of types. -/
structure Canonical (ts : List AbiType) (data : Bytes) : Prop where
  /-- It decodes to values that are encoded to it; the head word of each dynamic argument is the
  position of its tail behind the head. -/
  roundTrips : ∃ vs ps, unpackValues (ofTypes ts) data = .ok vs ∧
    packArguments (ofTypes ts) vs = .ok data ∧ Packed ts vs ps ∧
      data = heads (headLength ps) ps 0 ++ tails ps
  inRange : ∀ front t rest, ts = front ++ t :: rest →
    InRange data t (32 * (front.map AbiType.words).sum)

namespace AbiType

/-- The types of one word whose draws are all in range. -/
def isWordDrawn : AbiType → Bool
  | int size | uint size => size = 64 || size = 256
  | bool | address => true
  | _ => false

/-- The types whose fuzzed values are all canonical. -/
def isWellFuzzed : AbiType → Bool
  | string | bytes | slice (fixedBytes _) | slice function => true
  | slice elem => elem.isWordDrawn
  | t => t.isWordDrawn

/-- Big signed integers are packed and read as unsigned ones. -/
def unsigned : AbiType → AbiType
  | int 256 => uint 256
  | slice (int 256) => slice (uint 256)
  | t => t

theorem unsigned_pack (t : AbiType) (v : Value) : t.unsigned.pack v = t.pack v := by
  have helem : ∀ v, (uint 256).pack v = (int 256).pack v := by
    intro v
    cases v <;> rfl
  have hcheck : (slice (uint 256)).typeCheck v = (slice (int 256)).typeCheck v := by
    cases v with
    | slice k vs | array k vs => cases vs <;> rfl
    | _ => rfl
  unfold unsigned
  split
  · exact helem v
  · have hall : (fun x => (uint 256).pack x) = fun x => (int 256).pack x := funext helem
    rw [AbiType.pack, hcheck, hall]
    rfl
  · rfl

theorem unsigned_toGoType (t : AbiType) (index : Int) (data : Bytes) :
    toGoType t.unsigned index data = toGoType t index data := by
  unfold unsigned
  split <;> rfl

theorem unsigned_requiresLengthPrefix (t : AbiType) :
    t.unsigned.requiresLengthPrefix = t.requiresLengthPrefix := by
  unfold unsigned
  split <;> rfl

theorem unsigned_virtualAfter (t : AbiType) (j : Int) :
    virtualAfter t.unsigned j = virtualAfter t j := by
  unfold unsigned
  split <;> rfl

theorem unsigned_isNarrow (t : AbiType) : t.unsigned.isNarrow = t.isNarrow := by
  unfold unsigned
  split <;> rfl

end AbiType

theorem unpackLoop_unsigned (data : Bytes) (ts : List AbiType) (i j : Int) :
    unpackLoop data (ofTypes (ts.map AbiType.unsigned)) i j = unpackLoop data (ofTypes ts) i j := by
  induction ts generalizing i j with
  | nil => rfl
  | cons t ts ih =>
    rw [List.map_cons, unpackLoop_cons, unpackLoop_cons, AbiType.unsigned_toGoType,
      AbiType.unsigned_virtualAfter]
    simp only [ih]

theorem genRandomInSpecialDist_range (r : Fin 4) (n : Fin 16) :
    0 ≤ genRandomInSpecialDist r n ∧ genRandomInSpecialDist r n < 2 ^ 256 := by
  have hn := n.isLt
  unfold genRandomInSpecialDist
  split <;> omega

/-- A drawn word is the encoding of a value. -/
theorem AbiType.wordDrawn_value {t : AbiType} {d : Draw} {b : Bytes} (ht : t.isWordDrawn = true)
    (h : t.fuzz d = .ok b) :
    t.unsigned.Elementary ∧ ∃ v, t.unsigned.Typed v ∧ t.unsigned.NonNeg v ∧
      t.unsigned.pack v = .ok b := by
  cases t with
  | int size =>
    simp only [isWordDrawn, Bool.or_eq_true, decide_eq_true_eq] at ht
    obtain rfl | rfl := ht
    · obtain ⟨n, -, rfl⟩ := ofOption_map_eq_ok h
      refine ⟨⟨by simp [unsigned, Static, IntSize], by simp [unsigned]⟩, .num .int64 n.toInt,
        ⟨n.toInt, rfl, n.le_toInt, n.toInt_lt⟩, ?_, rfl⟩
      intro m _ hk
      cases hk
    · obtain ⟨⟨r, n⟩, -, rfl⟩ := ofOption_map_eq_ok h
      obtain ⟨h0, hlt⟩ := genRandomInSpecialDist_range r n
      exact ⟨⟨by simp [unsigned, Static, IntSize], by simp [unsigned]⟩,
        .num .ptr (genRandomInSpecialDist r n), ⟨_, rfl, h0, hlt⟩, trivial, rfl⟩
  | uint size =>
    simp only [isWordDrawn, Bool.or_eq_true, decide_eq_true_eq] at ht
    obtain rfl | rfl := ht
    · obtain ⟨n, -, rfl⟩ := ofOption_map_eq_ok h
      have hlt := n.toNat_lt
      exact ⟨⟨by simp [unsigned, Static, IntSize], by simp [unsigned]⟩, .num .uint64 n.toNat,
        ⟨n.toNat, rfl, by omega, by omega⟩, trivial, rfl⟩
    · obtain ⟨⟨r, n⟩, -, rfl⟩ := ofOption_map_eq_ok h
      obtain ⟨h0, hlt⟩ := genRandomInSpecialDist_range r n
      exact ⟨⟨by simp [unsigned, Static, IntSize], by simp [unsigned]⟩,
        .num .ptr (genRandomInSpecialDist r n), ⟨_, rfl, h0, hlt⟩, trivial, rfl⟩
  | bool =>
    obtain ⟨x, -, rfl⟩ := ofOption_map_eq_ok h
    exact ⟨⟨trivial, by simp [unsigned]⟩, .bool x, ⟨x, rfl⟩, trivial, rfl⟩
  | address =>
    obtain ⟨a, -, ha⟩ := Option.bind_eq_some_iff.mp (Result.ofOption_eq_ok.mp h)
    rw [fuzzAddress_eq] at ha
    rw [← Option.some.inj ha]
    refine ⟨⟨trivial, by simp [unsigned]⟩, .array .uint8 (Value.ofBytes (Address.bytes a)),
      ⟨_, rfl, by simp [Address.bytes]⟩, trivial, ?_⟩
    simp [unsigned, AbiType.pack, typeCheck, packElement, Value.kind, kind]
  | _ => cases ht

theorem packFuzzedBytesSlice_eq {b : Bytes} {n : Nat} (h : b.length = n * 32) :
    packFuzzedBytesSlice b = packBytesSlice b n := by
  have hl : b.length / 32 = n := by omega
  simp only [packFuzzedBytesSlice, packBytesSlice, hl]

/-- Drawn elements of one word each are the encodings of values. -/
theorem AbiType.wordsDrawn_values {elem : AbiType} {ds : List Draw} {fs : List Bytes}
    (ht : elem.isWordDrawn = true) (h : List.Forall₂ (fun d f => elem.fuzz d = .ok f) ds fs) :
    ∃ vs, (∀ x ∈ vs, elem.unsigned.Typed x) ∧ (∀ x ∈ vs, elem.unsigned.NonNeg x) ∧
      Result.mapAll elem.unsigned.pack vs = .ok fs ∧ fs.flatten.length = vs.length * 32 := by
  induction h with
  | nil => exact ⟨[], by simp, by simp, rfl, rfl⟩
  | @cons d f ds fs hf _ ih =>
    obtain ⟨vs, htyped, hneg, hpack, hlen⟩ := ih
    obtain ⟨helem, v, hv, hn, hb⟩ := wordDrawn_value ht hf
    obtain ⟨f', hf', hword⟩ := helem.pack hv
    rw [hb] at hf'
    cases hf'
    refine ⟨v :: vs, ?_, ?_, ?_, ?_⟩
    · exact List.forall_mem_cons.mpr ⟨hv, htyped⟩
    · exact List.forall_mem_cons.mpr ⟨hn, hneg⟩
    · simp [Result.mapAll, hb, hpack]
    · rw [List.flatten_cons, List.length_append, hword, hlen, List.length_cons]
      ring

theorem fuzz_slice {elem : AbiType} {d : Draw} {b : Bytes} (h : (AbiType.slice elem).fuzz d = .ok b) :
    ∃ ds fs, List.Forall₂ (fun d f => elem.fuzz d = .ok f) ds fs ∧
      b = packFuzzedBytesSlice fs.flatten := by
  obtain ⟨ds, -, h⟩ := Result.bind_eq_ok.mp h
  obtain ⟨fs, hfs, h⟩ := Result.bind_eq_ok.mp h
  cases h
  exact ⟨ds, fs, Result.mapAll_eq_ok.mp hfs, rfl⟩

/-- Elements for which nothing is drawn. -/
theorem flatten_of_empty {elem : AbiType} {ds : List Draw} {fs : List Bytes}
    (h : List.Forall₂ (fun d f => elem.fuzz d = .ok f) ds fs)
    (hempty : ∀ d, elem.fuzz d = .ok []) : fs.flatten = [] := by
  induction h with
  | nil => rfl
  | cons hf _ ih =>
    rw [hempty] at hf
    cases hf
    exact ih

namespace AbiType

/-- An empty slice of one-word elements. -/
theorem Elementary.empty_slice {elem : AbiType} (h : elem.Elementary) :
    (slice elem).Typed (.slice elem.kind []) ∧ (slice elem).NonNeg (.slice elem.kind []) ∧
      (slice elem).pack (.slice elem.kind []) = .ok (packFuzzedBytesSlice []) := by
  obtain ⟨hs, harr⟩ := h
  have hcheck : (slice elem).sliceTypeCheck (.slice elem.kind []) = .ok () := by
    cases elem with
    | array elem' size => exact absurd rfl (harr elem' size)
    | string | bytes | slice => cases hs
    | _ => simp [AbiType.sliceTypeCheck, Value.elems, elemKindCheck]
  refine ⟨⟨[], rfl, by simp⟩, by simp [NonNeg], ?_⟩
  simp [AbiType.pack, typeCheck, hcheck, Value.elems, Result.mapAll, packFuzzedBytesSlice,
    packBytesSlice]

/-- The good slices: one drawn word for each element, or nothing. -/
theorem isWellFuzzed_slice {elem : AbiType} (h : (slice elem).isWellFuzzed = true) :
    (∀ d, elem.fuzz d = .ok []) ∧ (slice elem).unsigned = slice elem ∨
      elem.isWordDrawn = true ∧ (slice elem).unsigned = slice elem.unsigned := by
  cases elem with
  | fixedBytes | function => exact .inl ⟨fun d => rfl, rfl⟩
  | int size =>
    refine .inr ⟨h, ?_⟩
    simp only [isWellFuzzed, isWordDrawn, Bool.or_eq_true, decide_eq_true_eq] at h
    obtain rfl | rfl := h <;> rfl
  | uint | bool | address => exact .inr ⟨h, rfl⟩
  | _ => cases h

theorem isSliceOfArrays_of_isWellFuzzed {t : AbiType} (h : t.isWellFuzzed = true) :
    t.unsigned.isSliceOfArrays = false := by
  have hsame : t.unsigned.isSliceOfArrays = t.isSliceOfArrays := by
    unfold unsigned
    split <;> rfl
  rw [hsame]
  cases t with
  | slice elem =>
    cases elem with
    | array => cases h
    | _ => rfl
  | _ => rfl

theorem isWellFuzzed_cases {t : AbiType} (h : t.isWellFuzzed = true) :
    t = string ∨ t = bytes ∨ (∃ elem, t = slice elem) ∨ t.isWordDrawn = true := by
  cases t with
  | string => exact .inl rfl
  | bytes => exact .inr (.inl rfl)
  | slice elem => exact .inr (.inr (.inl ⟨elem, rfl⟩))
  | _ => exact .inr (.inr (.inr h))

/-- Whatever is drawn for a good type is the encoding of a value. -/
theorem wellFuzzed_value {t : AbiType} {d : Draw} {b : Bytes} (ht : t.isWellFuzzed = true)
    (hsup : t.unsigned.Supported) (h : t.fuzz d = .ok b) :
    ∃ v, t.unsigned.Typed v ∧ t.unsigned.NonNeg v ∧ t.unsigned.pack v = .ok b := by
  obtain rfl | rfl | ⟨elem, rfl⟩ | hword := isWellFuzzed_cases ht
  · obtain ⟨x, -, rfl⟩ := ofOption_map_eq_ok h
    exact ⟨.string x, ⟨x, rfl⟩, trivial, rfl⟩
  · obtain ⟨x, -, rfl⟩ := ofOption_map_eq_ok h
    refine ⟨.slice .uint8 (Value.ofBytes x), ⟨x, rfl⟩, trivial, ?_⟩
    simp [unsigned, AbiType.pack, typeCheck, packElement, Value.kind, kind]
  · obtain ⟨ds, fs, hfs, rfl⟩ := fuzz_slice h
    obtain ⟨hempty, hu⟩ | ⟨hword, hu⟩ := isWellFuzzed_slice ht
    · rw [hu] at hsup ⊢
      rw [flatten_of_empty hfs hempty]
      refine ⟨_, Elementary.empty_slice ⟨hsup, ?_⟩⟩
      rintro elem' size rfl
      cases ht
    · rw [hu] at hsup ⊢
      obtain ⟨vs, htyped, hneg, hpack, hlen⟩ := wordsDrawn_values hword hfs
      have hplain : (slice elem.unsigned).Plain :=
        ⟨hsup, rfl, hu ▸ isSliceOfArrays_of_isWellFuzzed ht⟩
      have hcheck := hplain.sliceTypeCheck ⟨vs, rfl, htyped⟩
      refine ⟨.slice elem.unsigned.kind vs, ⟨vs, rfl, htyped⟩, hneg, ?_⟩
      rw [packFuzzedBytesSlice_eq hlen]
      simp [AbiType.pack, typeCheck, hcheck, Value.elems, hpack]
  · exact (wordDrawn_value hword h).2

/-- The types that are not made from others. -/
def Base : AbiType → Prop
  | int size | uint size => IntSize size
  | fixedBytes size => 1 ≤ size ∧ size ≤ 32
  | bool | address | function | string | bytes => True
  | slice _ | array _ _ => False

/-- The valid types that the fuzzer is meant for: those, and fixed arrays and slices of them. -/
def Fuzzable : AbiType → Prop
  | slice elem => elem.Base
  | array elem size => 1 ≤ size ∧ elem.Base
  | t => t.Base

theorem Fuzzable.supported {t : AbiType} (h : t.Fuzzable) (ht : t.isWellFuzzed = true) :
    t.unsigned.Supported := by
  have hbig : IntSize 256 := ⟨by norm_num, by norm_num, by norm_num⟩
  unfold unsigned
  split
  · exact hbig
  · exact hbig
  · cases t with
    | slice elem =>
      cases elem with
      | string | bytes | slice | array => cases ht
      | _ => exact h
    | array => cases ht
    | _ => exact h

theorem isNarrow_of_isWellFuzzed {t : AbiType} (h : t.isWellFuzzed = true) : t.isNarrow = true := by
  cases t with
  | array | fixedBytes | function => cases h
  | _ => rfl

end AbiType

/-! ## Good types -/

theorem Fuzzed.values {ts : List AbiType} {ds : List Draw} {ps : List (Bool × Bytes)}
    (h : Fuzzed ts ds ps) (hs : ∀ t ∈ ts, t.Fuzzable) (ht : ∀ t ∈ ts, t.isWellFuzzed = true) :
    ∃ vs, Packed ts vs ps ∧ Packed (ts.map AbiType.unsigned) vs ps ∧
      List.Forall₂ AbiType.Typed (ts.map AbiType.unsigned) vs ∧
      List.Forall₂ AbiType.NonNeg (ts.map AbiType.unsigned) vs := by
  induction h with
  | nil => exact ⟨[], .nil, .nil, .nil, .nil⟩
  | @cons t d b ts ds ps hb _ ih =>
    obtain ⟨vs, hp, hp', htyped, hneg⟩ := ih (fun u hu => hs u (List.mem_cons_of_mem _ hu))
      fun u hu => ht u (List.mem_cons_of_mem _ hu)
    have hgood := ht t List.mem_cons_self
    have hsup := (hs t List.mem_cons_self).supported hgood
    obtain ⟨v, hv, hn, hpack⟩ := AbiType.wellFuzzed_value hgood hsup hb
    refine ⟨v :: vs, .cons ((AbiType.unsigned_pack t v).symm.trans hpack) hp, ?_, .cons hv htyped,
      .cons hn hneg⟩
    rw [← AbiType.unsigned_requiresLengthPrefix]
    exact .cons hpack hp'

theorem Narrow.headLength {ps : List (Bool × Bytes)} (h : Narrow ps) :
    headLength ps = 32 * ps.length := by
  have hall : ∀ p ∈ ps, (if p.1 then 32 else p.2.length) = 32 := by
    rintro ⟨flag, b⟩ hp
    cases flag with
    | true => rfl
    | false => exact h _ hp rfl
  rw [Abi.headLength, List.map_congr_left hall]
  simp [Nat.mul_comm]

/-- What is fuzzed for good types decodes to values that are encoded to it. -/
theorem wellFuzzed_roundTrips {ts : List AbiType} {ds : List Draw} {data : Bytes}
    (hs : ∀ t ∈ ts, t.Fuzzable) (ht : ∀ t ∈ ts, t.isWellFuzzed = true)
    (h : fuzzArguments (ofTypes ts) ds = .ok data) (hlim : data.length < 2 ^ 63) :
    ∃ vs ps, unpackValues (ofTypes ts) data = .ok vs ∧
      packArguments (ofTypes ts) vs = .ok data ∧ Packed ts vs ps ∧
        data = heads (headLength ps) ps 0 ++ tails ps := by
  obtain ⟨ps, hf⟩ := fuzzArguments_fuzzed h
  rw [fuzzArguments_eq hf] at h
  have hdata : heads (inputOffset (ofTypes ts)) ps 0 ++ tails ps = data := Result.ok.inj h
  have hnarrow : ∀ t ∈ ts, t.isNarrow = true := fun t h =>
    AbiType.isNarrow_of_isWellFuzzed (ht t h)
  have hn := hf.narrow hnarrow
  have hsmall : 32 * ts.length < 2 ^ 63 := by
    rw [← hdata, List.length_append, hn.heads_length, hf.length.2] at hlim
    omega
  have hoffset := inputOffset_narrow hnarrow hsmall
  have hoffset' : inputOffset (ofTypes (ts.map AbiType.unsigned)) = (32 * ts.length : Nat) := by
    have hu : ∀ t ∈ ts.map AbiType.unsigned, t.isNarrow = true := by
      intro u hu
      obtain ⟨t, ht', rfl⟩ := List.mem_map.mp hu
      rw [AbiType.unsigned_isNarrow]
      exact hnarrow t ht'
    rw [inputOffset_narrow hu (by rw [List.length_map]; exact hsmall), List.length_map]
  obtain ⟨vs, hp, hp', htyped, hneg⟩ := hf.values hs ht
  have hpack : packArguments (ofTypes ts) vs = .ok data := by rw [packArguments_eq hp, hdata]
  have hpack' : packArguments (ofTypes (ts.map AbiType.unsigned)) vs = .ok data := by
    rw [packArguments_eq hp', hoffset', ← hoffset, hdata]
  refine ⟨vs, ps, ?_, hpack, hp, ?_⟩
  · have hplaced : WellPlaced (ts.map AbiType.unsigned) := by
      constructor
      · intro u hu
        obtain ⟨t, ht', rfl⟩ := List.mem_map.mp hu
        exact AbiType.isSliceOfArrays_of_isWellFuzzed (ht t ht')
      · intro _ u hu
        obtain ⟨t, ht', rfl⟩ := List.mem_map.mp hu
        have hu := (AbiType.unsigned_isNarrow t).trans (hnarrow t ht')
        rw [AbiType.declared_of_isNarrow hu, AbiType.words_of_isNarrow hu]
    have hfits : Fits (ts.map AbiType.unsigned) vs := by
      intro data' h'
      rw [hpack'] at h'
      cases h'
      exact hlim
    have hsup : ∀ t ∈ ts.map AbiType.unsigned, t.Supported := by
      intro u hu
      obtain ⟨t, ht', rfl⟩ := List.mem_map.mp hu
      exact (hs t ht').supported (ht t ht')
    obtain ⟨data', hpack'', hunpack⟩ := hplaced.roundTrips hsup htyped hfits hneg
    rw [hpack'] at hpack''
    cases hpack''
    rw [unpackValues_ofTypes, unpackLoop_unsigned] at hunpack
    rw [unpackValues_ofTypes]
    exact hunpack
  · rw [hn.headLength, hf.length.2, ← hoffset]
    exact hdata.symm

section Ranges

variable {data : Bytes}

theorem ofBytes_word_lt {w : Bytes} (h : w.length = 32) : (ofBytes w : Int) < 2 ^ 256 := by
  have hlt := ofBytes_lt w
  rw [h] at hlt
  omega

theorem wordDrawn_inRange {t : AbiType} {d : Draw} {b : Bytes} {pos : Nat}
    (ht : t.isWordDrawn = true) (h : t.fuzz d = .ok b) (hat : At data pos b) : InRange data t pos := by
  have hword : ∀ n w, b = packNum n → At data pos w → w.length = 32 → (ofBytes w : Int) = u256 n := by
    intro n w hb hw hlen
    rw [hat.unique hw (by rw [hb, packNum_length, hlen])] at hb
    rw [hb, ofBytes_packNum]
  cases t with
  | int size =>
    simp only [AbiType.isWordDrawn, Bool.or_eq_true, decide_eq_true_eq] at ht
    intro w hw hlen
    obtain rfl | rfl := ht
    · obtain ⟨n, -, hb⟩ := ofOption_map_eq_ok h
      have h0 := n.le_toInt
      have h1 := n.toInt_lt
      rw [hword n.toInt w hb hw hlen]
      unfold s256 u256 tt255 tt256
      split_ifs <;> omega
    · have hlt := ofBytes_word_lt hlen
      unfold s256 tt255 tt256
      split_ifs <;> omega
  | uint size =>
    simp only [AbiType.isWordDrawn, Bool.or_eq_true, decide_eq_true_eq] at ht
    intro w hw hlen
    obtain rfl | rfl := ht
    · obtain ⟨n, -, hb⟩ := ofOption_map_eq_ok h
      have hn := n.toNat_lt
      have hval := hword n.toNat w hb hw hlen
      unfold u256 tt256 at hval
      omega
    · have hlt := ofBytes_word_lt hlen
      omega
  | bool | address => trivial
  | _ => cases ht

theorem flatten_length_words {elem : AbiType} {ds : List Draw} {fs : List Bytes}
    (h : List.Forall₂ (fun d f => elem.fuzz d = .ok f ∧ f.length = 32) ds fs) :
    fs.flatten.length = 32 * fs.length := by
  induction h with
  | nil => rfl
  | cons hf _ ih =>
    rw [List.flatten_cons, List.length_append, hf.2, ih, List.length_cons]
    ring

/-- Elements of one word stand one word after the other. -/
theorem elems_at {elem : AbiType} {ds : List Draw} {fs : List Bytes} {pos i : Nat}
    (h : List.Forall₂ (fun d f => elem.fuzz d = .ok f ∧ f.length = 32) ds fs)
    (hat : At data pos fs.flatten) (hi : i < fs.length) :
    ∃ d f, elem.fuzz d = .ok f ∧ At data (pos + 32 * i) f := by
  induction h generalizing pos i with
  | nil => cases hi
  | @cons d f ds fs hf _ ih =>
    rw [List.flatten_cons] at hat
    cases i with
    | zero => exact ⟨d, f, hf.1, hat.left⟩
    | succ i =>
      obtain ⟨d', f', hf', hat'⟩ := ih hat.right (by simpa using hi)
      refine ⟨d', f', hf', ?_⟩
      rw [hf.2] at hat'
      rw [show pos + 32 * (i + 1) = pos + 32 + 32 * i by ring]
      exact hat'

/-- The words of a drawn slice are in range. -/
theorem slice_inRange {elem : AbiType} {d : Draw} {b : Bytes} {pos o : Nat}
    (ht : (AbiType.slice elem).isWellFuzzed = true) (h : (AbiType.slice elem).fuzz d = .ok b)
    (hoffset : At data pos (packNum o)) (hat : At data o b) (hlim : data.length < 2 ^ 63) :
    InRange data (.slice elem) pos := by
  obtain ⟨ds, fs, hfs, rfl⟩ := fuzz_slice h
  rw [packFuzzedBytesSlice] at hat
  have hle := hat.le
  have hlen : fs.flatten.length ≤ (rightPad fs.flatten ((fs.flatten.length / 32 + 31) / 32 * 32)).length := by
    rw [rightPad, List.length_append]
    omega
  rw [List.length_append, packNum_length] at hle
  intro ow lw how howlen hlw hlwlen i hi
  have ho : ofBytes ow = o := by
    rw [how.unique hoffset (by rw [howlen, packNum_length])]
    exact ofBytes_packNum_nat (by omega)
  rw [ho] at hlw ⊢
  rw [hlw.unique hat.left (by rw [hlwlen, packNum_length]), ofBytes_packNum_nat (by omega)] at hi
  obtain ⟨hempty, -⟩ | ⟨hword, -⟩ := AbiType.isWellFuzzed_slice ht
  · rw [flatten_of_empty hfs hempty] at hi
    simp at hi
  · have hnarrow : elem.isNarrow = true ∧ elem.requiresLengthPrefix = false ∧ elem.words = 1 := by
      cases elem with
      | int | uint | bool | address => exact ⟨rfl, rfl, rfl⟩
      | _ => cases hword
    have hwords : List.Forall₂ (fun d f => elem.fuzz d = .ok f ∧ f.length = 32) ds fs :=
      hfs.imp fun d f hf => ⟨hf, fuzz_narrow_length hnarrow.1 hnarrow.2.1 hf⟩
    have hcount := flatten_length_words hwords
    have hbody := hat.right
    rw [packNum_length, rightPad] at hbody
    have hi' : i < fs.length := by omega
    obtain ⟨d', f, hf, hplace⟩ := elems_at hwords hbody.left hi'
    rw [hnarrow.2.2, Nat.mul_one]
    exact wordDrawn_inRange hword hf hplace

/-- The integer words that are drawn for good types are in range. -/
theorem wellFuzzed_inRange {ts : List AbiType} {ds : List Draw}
    (ht : ∀ t ∈ ts, t.isWellFuzzed = true) (h : fuzzArguments (ofTypes ts) ds = .ok data)
    (hlim : data.length < 2 ^ 63) {front rest : List AbiType} {t : AbiType}
    (hts : ts = front ++ t :: rest) : InRange data t (32 * (front.map AbiType.words).sum) := by
  subst hts
  obtain ⟨ps, hf⟩ := fuzzArguments_fuzzed h
  rw [fuzzArguments_eq hf] at h
  have hnarrow : ∀ u ∈ front ++ t :: rest, u.isNarrow = true := fun u hu =>
    AbiType.isNarrow_of_isWellFuzzed (ht u hu)
  have hlength := hf.length.2
  have hn := hf.narrow hnarrow
  obtain ⟨psA, d, b, psB, rfl, hA, hb⟩ := hf.split
  obtain ⟨hstatic, hdynamic⟩ := hn.places hnarrow hlength (Result.ok.inj h).symm hlim
  rw [words_sum_narrow fun u hu => hnarrow u (List.mem_append_left _ hu), ← hA]
  have hgood := ht t (by simp)
  obtain rfl | rfl | ⟨elem, rfl⟩ | hword := AbiType.isWellFuzzed_cases hgood
  · trivial
  · trivial
  · obtain ⟨o, hoffset, hat⟩ := hdynamic rfl
    exact slice_inRange hgood hb hoffset hat hlim
  · refine wordDrawn_inRange hword hb (hstatic ?_)
    cases t with
    | string | bytes | slice => cases hword
    | _ => rfl

end Ranges

theorem wellFuzzed_canonical {ts : List AbiType} {ds : List Draw} {data : Bytes}
    (hs : ∀ t ∈ ts, t.Fuzzable) (ht : ∀ t ∈ ts, t.isWellFuzzed = true)
    (h : fuzzArguments (ofTypes ts) ds = .ok data) (hlim : data.length < 2 ^ 63) :
    Canonical ts data :=
  ⟨wellFuzzed_roundTrips hs ht h hlim, fun _ _ _ hts => wellFuzzed_inRange ht h hlim hts⟩

end MiniEvm.Abi
