import MiniEvm.Abi.Static

namespace MiniEvm.Abi

open Math Framework

/-! ## What the decoder returns -/

theorem unpackElems_spec {toGo : Int → Result AbiError Value} {elemSize : Int} {size : Nat} {i : Int}
    {vs : List Value} (h : unpackElems toGo elemSize size i = .ok vs) :
    vs.length = size ∧ ∀ x ∈ vs, ∃ p, toGo p = .ok x := by
  induction size generalizing i vs with
  | zero =>
    cases h
    exact ⟨rfl, by simp⟩
  | succ size ih =>
    obtain ⟨v, hv, h⟩ := Result.bind_eq_ok.mp h
    obtain ⟨vs', hvs, h⟩ := Result.bind_eq_ok.mp h
    cases h
    obtain ⟨hlen, hmem⟩ := ih hvs
    refine ⟨by simp [hlen], fun x hx => ?_⟩
    rcases List.mem_cons.mp hx with rfl | hx
    · exact ⟨i, hv⟩
    · exact hmem x hx

/-- The sign of a big integer is never read back. -/
theorem toGoType_nonNeg {t : AbiType} {index : Int} {data : Bytes} {v : Value}
    (h : toGoType t index data = .ok v) : t.NonNeg v := by
  induction t generalizing index v with
  | slice elem ih =>
    obtain ⟨-, -, h⟩ := Result.bind_eq_ok.mp h
    obtain ⟨⟨start, size⟩, -, h⟩ := Result.bind_eq_ok.mp h
    obtain ⟨-, -, h⟩ := Result.bind_eq_ok.mp h
    obtain ⟨vs, hvs, h⟩ := Result.bind_eq_ok.mp h
    cases h
    intro x hx
    obtain ⟨p, hp⟩ := (unpackElems_spec hvs).2 x hx
    exact ih hp
  | array elem size ih =>
    obtain ⟨-, -, h⟩ := Result.bind_eq_ok.mp h
    obtain ⟨-, -, h⟩ := Result.bind_eq_ok.mp h
    obtain ⟨-, -, h⟩ := Result.bind_eq_ok.mp h
    obtain ⟨vs, hvs, h⟩ := Result.bind_eq_ok.mp h
    cases h
    intro x hx
    obtain ⟨p, hp⟩ := (unpackElems_spec hvs).2 x hx
    exact ih hp
  | int size =>
    obtain ⟨-, -, h⟩ := Result.bind_eq_ok.mp h
    obtain ⟨w, -, h⟩ := Result.bind_eq_ok.mp h
    cases h
    intro n hn hk
    rw [hk] at hn
    cases hn
    exact Int.natCast_nonneg _
  | _ => exact trivial

/-- The number of elements or bytes behind a length prefix. -/
def Value.len : Value → Nat
  | .string b => b.length
  | .slice _ vs | .array _ vs => vs.length
  | _ => 0

theorem sliceInt_length {output b : Bytes} {lo hi : Int} (h : sliceInt output lo hi = some b) :
    (b.length : Int) = hi - lo := by
  unfold sliceInt at h
  split_ifs at h with hnn
  obtain ⟨hat, hlen⟩ := at_of_slice h
  obtain ⟨hle, -⟩ := slice_eq_some.mp h
  omega

/-- A decoded length-prefixed value has the length that stands where its head word points. -/
theorem lengthPrefixPointsTo_spec {data w x : Bytes} {index o : Nat} {start size : Int}
    (hlim : data.length < 2 ^ 63) (hw : At data index w) (hwlen : w.length = 32)
    (ho : ofBytes w = o) (hx : At data o x) (hxlen : x.length = 32)
    (h : lengthPrefixPointsTo index data = .ok (start, size)) :
    start = o + 32 ∧ size = ofBytes x ∧ start + size ≤ data.length := by
  have hle := hw.le
  have hsum : int64 ((index : Int) + 32) = index + 32 := int64_small (by omega) (by omega)
  have hword : sliceInt data index (index + 32) = some w := sliceInt_at hw (by omega)
  have hlength : sliceInt data o (o + 32) = some x := sliceInt_at hx (by omega)
  simp only [lengthPrefixPointsTo, hsum, hword, Result.ofOption_some, Result.ok_bind, ho,
    add_sub_cancel_right, hlength] at h
  split_ifs at h with h1 h2 h3 h4
  cases h
  exact ⟨rfl, rfl, by omega⟩

/-- The value behind a head word has the length that stands where the head word points. -/
theorem toGoType_len {t : AbiType} {data w x : Bytes} {index o : Nat} {v : Value}
    (ht : t.requiresLengthPrefix = true) (hlim : data.length < 2 ^ 63) (hw : At data index w)
    (hwlen : w.length = 32) (ho : ofBytes w = o) (hx : At data o x) (hxlen : x.length = 32)
    (h : toGoType t index data = .ok v) : v.len = ofBytes x := by
  have hbytes : ∀ start size b, lengthPrefixPointsTo index data = .ok (start, size) →
      sliceInt data start (int64 (start + size)) = some b → b.length = ofBytes x := by
    intro start size b hpoints hb
    obtain ⟨rfl, rfl, hle⟩ := lengthPrefixPointsTo_spec hlim hw hwlen ho hx hxlen hpoints
    rw [int64_small (by omega) (by omega)] at hb
    have hlen := sliceInt_length hb
    omega
  cases t with
  | string | bytes =>
    obtain ⟨-, -, h⟩ := Result.bind_eq_ok.mp h
    obtain ⟨⟨start, size⟩, hpoints, h⟩ := Result.bind_eq_ok.mp h
    obtain ⟨b, hb, h⟩ := Result.bind_eq_ok.mp h
    cases h
    have hlen := hbytes start size b hpoints (Result.ofOption_eq_ok.mp hb)
    simpa [Value.len] using hlen
  | slice elem =>
    obtain ⟨-, -, h⟩ := Result.bind_eq_ok.mp h
    obtain ⟨⟨start, size⟩, hpoints, h⟩ := Result.bind_eq_ok.mp h
    obtain ⟨-, -, h⟩ := Result.bind_eq_ok.mp h
    obtain ⟨vs, hvs, h⟩ := Result.bind_eq_ok.mp h
    cases h
    obtain ⟨-, rfl, -⟩ := lengthPrefixPointsTo_spec hlim hw hwlen ho hx hxlen hpoints
    exact (unpackElems_spec hvs).1
  | _ => cases ht

/-! ## Length-prefixed values -/

theorem lengthPrefixPointsTo_at {data : Bytes} {index o len : Nat} (hlim : data.length < 2 ^ 63)
    (hoffset : At data index (packNum o)) (hlength : At data o (packNum len))
    (hle : o + 32 + len ≤ data.length) :
    lengthPrefixPointsTo index data = .ok ((o + 32 : Nat), (len : Int)) := by
  have h1 := hoffset.le
  rw [packNum_length] at h1
  have hsum : int64 ((index : Int) + 32) = index + 32 := int64_small (by omega) (by omega)
  have hword : sliceInt data index (index + 32) = some (packNum o) :=
    sliceInt_at hoffset (by simp)
  have hlen : sliceInt data o (o + 32) = some (packNum len) := sliceInt_at hlength (by simp)
  have hbits : ∀ x : Int, 0 ≤ x → x < 2 ^ 63 → ¬ bitLen x > 63 := by
    intro x h0 hx
    have hbit := (bitLen_le_iff x 63).mpr (by omega)
    omega
  simp only [lengthPrefixPointsTo, hsum, hword, Result.ofOption_some, Result.ok_bind,
    ofBytes_packNum_nat (show o < 2 ^ 63 by omega), add_sub_cancel_right, hlen,
    ofBytes_packNum_nat (show len < 2 ^ 63 by omega)]
  rw [if_neg (by omega), if_neg (hbits _ (by omega) (by omega)),
    if_neg (hbits _ (by omega) (by omega)), if_neg (by omega)]
  rfl

namespace AbiType

/-- A slice whose elements are arrays. -/
def isSliceOfArrays : AbiType → Bool
  | slice (array _ _) => true
  | _ => false

/-- The dynamic types that are packed with one word for each element. -/
def Plain (t : AbiType) : Prop :=
  t.Supported ∧ t.requiresLengthPrefix = true ∧ t.isSliceOfArrays = false

theorem Plain.elem {elem : AbiType} (h : (slice elem).Plain) : elem.Elementary := by
  refine ⟨h.1, ?_⟩
  rintro elem' size rfl
  cases h.2.2

theorem Plain.sliceTypeCheck {elem : AbiType} {v : Value} (h : (slice elem).Plain)
    (hv : (slice elem).Typed v) : (slice elem).sliceTypeCheck v = .ok () := by
  obtain ⟨vs, rfl, -⟩ := hv
  have helem := h.elem
  cases elem with
  | array elem' size => exact absurd rfl (helem.2 elem' size)
  | slice | string | bytes => cases helem.1
  | _ => simp [AbiType.sliceTypeCheck, Value.elems, elemKindCheck]

/-- A length word, and what it announces. -/
theorem Plain.pack {t : AbiType} {v : Value} (h : t.Plain) (hv : t.Typed v) :
    ∃ body, t.pack v = .ok (packNum v.len ++ body) ∧ v.len ≤ body.length ∧
      body.length ≤ 32 * v.len := by
  have hpadded : ∀ b : Bytes, b.length ≤ (rightPad b ((b.length + 31) / 32 * 32)).length ∧
      (rightPad b ((b.length + 31) / 32 * 32)).length ≤ 32 * b.length := by
    intro b
    rw [rightPad_length (by omega)]
    omega
  cases t with
  | string =>
    obtain ⟨b, rfl⟩ := hv
    exact ⟨_, by simp [AbiType.pack, typeCheck, packElement, Value.kind, kind, packBytesSlice]; rfl,
      hpadded b⟩
  | bytes =>
    obtain ⟨b, rfl⟩ := hv
    refine ⟨rightPad b ((b.length + 31) / 32 * 32), ?_, ?_⟩
    · simp [AbiType.pack, typeCheck, packElement, Value.kind, kind, packBytesSlice, Value.len]
    · simpa [Value.len] using hpadded b
  | slice elem =>
    have hcheck := h.sliceTypeCheck hv
    obtain ⟨vs, rfl, hvs⟩ := hv
    obtain ⟨bs, hbs, hflat⟩ := mapAll_flatten fun x hx => h.elem.pack (hvs x hx)
    have hpad : rightPad bs.flatten ((vs.length + 31) / 32 * 32) = bs.flatten := by
      rw [rightPad, hflat, Nat.sub_eq_zero_of_le (by omega)]
      simp
    refine ⟨bs.flatten, ?_, ?_, ?_⟩
    · simp [AbiType.pack, typeCheck, hcheck, Value.elems, hbs, packBytesSlice, hpad, Value.len]
    · simp only [Value.len]
      omega
    · simp only [Value.len]
      omega
  | _ => cases h.2.1

/-- Behind its head word a length-prefixed value is read back. -/
theorem Plain.unpack {t : AbiType} {v : Value} {b data : Bytes} {index o : Nat} (h : t.Plain)
    (hv : t.Typed v) (hneg : t.NonNeg v) (hb : t.pack v = .ok b)
    (hoffset : At data index (packNum o)) (hat : At data o b) (hlim : data.length < 2 ^ 63) :
    toGoType t index data = .ok v := by
  obtain ⟨body, hbody, hlo, hhi⟩ := h.pack hv
  rw [hb] at hbody
  cases hbody
  have hle := hat.le
  rw [List.length_append, packNum_length] at hle
  have hcheck := wordCheck_at hoffset (by simp) hlim
  have hpoints := lengthPrefixPointsTo_at hlim hoffset hat.left (by omega)
  have hbodyAt := hat.right
  rw [packNum_length] at hbodyAt
  have hbytes : ∀ c rest : Bytes, body = c ++ rest → v.len = c.length →
      sliceInt data ((o + 32 : Nat) : Int) (int64 (((o + 32 : Nat) : Int) + v.len)) = some c := by
    intro c rest hbody hlen
    rw [hbody] at hbodyAt
    exact sliceInt_at hbodyAt.left (by rw [int64_small (by omega) (by omega), hlen])
  cases t with
  | string =>
    obtain ⟨c, rfl⟩ := hv
    have hpack : packNum c.length ++ body = packBytesSlice c c.length := by
      simpa [AbiType.pack, typeCheck, packElement, Value.kind, kind, Value.len, eq_comm] using hb
    rw [packBytesSlice] at hpack
    have hslice := hbytes c _ (List.append_cancel_left hpack) rfl
    rw [toGoType, hcheck, Result.ok_bind, hpoints, Result.ok_bind]
    simp only [hslice, Result.ofOption_some, Result.ok_bind, Result.pure_eq]
  | bytes =>
    obtain ⟨c, rfl⟩ := hv
    have hclen : (Value.slice .uint8 (Value.ofBytes c)).len = c.length := by simp [Value.len]
    have hpack : packNum c.length ++ body = packBytesSlice c c.length := by
      simpa [AbiType.pack, typeCheck, packElement, Value.kind, kind, hclen, eq_comm] using hb
    rw [packBytesSlice] at hpack
    have hslice := hbytes c _ (List.append_cancel_left hpack) hclen
    rw [toGoType, hcheck, Result.ok_bind, hpoints, Result.ok_bind]
    simp only [hslice, Result.ofOption_some, Result.ok_bind, Result.pure_eq]
  | slice elem =>
    have htype := h.sliceTypeCheck hv
    obtain ⟨vs, rfl, hvs⟩ := hv
    obtain ⟨bs, hbs, hflat⟩ := mapAll_flatten fun x hx => h.elem.pack (hvs x hx)
    have hpad : rightPad bs.flatten ((vs.length + 31) / 32 * 32) = bs.flatten := by
      rw [rightPad, hflat, Nat.sub_eq_zero_of_le (by omega)]
      simp
    have hpack : packNum vs.length ++ body = packNum vs.length ++ bs.flatten := by
      simpa [AbiType.pack, typeCheck, htype, Value.elems, hbs, packBytesSlice, hpad, Value.len,
        eq_comm] using hb
    obtain rfl := List.append_cancel_left hpack
    have hfor : forEachCheck data ((o + 32 : Nat) : Int) vs.length = .ok () := by
      have h32 : int64 (32 * (vs.length : Int)) = 32 * vs.length :=
        int64_small (by omega) (by omega)
      have hsum : int64 (((o + 32 : Nat) : Int) + 32 * vs.length) = (o + 32 : Nat) + 32 * vs.length :=
        int64_small (by omega) (by omega)
      rw [forEachCheck, if_neg (by omega), h32, hsum, if_neg (by omega)]
    have helems : List.Forall₂ (fun c x => c.length = 32 ∧
        ∀ p : Nat, At data p c → toGoType elem p data = .ok x) bs vs := by
      refine readable_elems (Result.mapAll_eq_ok.mp hbs) hvs hneg fun x c hx hnx hc => ?_
      obtain ⟨c', hc', hclen⟩ := h.elem.pack hx
      rw [hc] at hc'
      cases hc'
      exact ⟨hclen, fun p hp => h.elem.unpack hx hnx hc hp hlim⟩
    have hloop := @unpackElems_at (fun i => toGoType elem i data) _ _ hlim _ _ _ helems hbodyAt
    rw [Nat.cast_ofNat] at hloop
    rw [toGoType, hcheck, Result.ok_bind, hpoints, Result.ok_bind]
    simp only [Value.len, hfor, Int.toNat_natCast, Result.ok_bind, hloop, Result.pure_eq]
  | _ => cases h.2.1

end AbiType

/-! ## Argument lists -/

/-- The text that a compiler writes for a type. -/
def AbiType.canonicalText : AbiType → String
  | int size => "int" ++ toString size
  | uint size => "uint" ++ toString size
  | bool => "bool"
  | string => "string"
  | slice elem => elem.canonicalText ++ "[]"
  | array elem size => elem.canonicalText ++ "[" ++ toString size ++ "]"
  | address => "address"
  | fixedBytes size => "bytes" ++ toString size
  | bytes => "bytes"
  | function => "function"

/-- The arguments of a method, none of them indexed. -/
def ofTypes (ts : List AbiType) : List Argument := ts.map fun t => ⟨t, false, t.canonicalText⟩

/-- The packed values, each with the flag whether it goes to the variable input. -/
inductive Packed : List AbiType → List Value → List (Bool × Bytes) → Prop
  | nil : Packed [] [] []
  | cons {t : AbiType} {v : Value} {b : Bytes} {ts : List AbiType} {vs : List Value}
      {ps : List (Bool × Bytes)} (hb : t.pack v = .ok b) (rest : Packed ts vs ps) :
      Packed (t :: ts) (v :: vs) ((t.requiresLengthPrefix, b) :: ps)

/-- The head: static values, and offsets into the variable input. -/
def heads (offset : Int) : List (Bool × Bytes) → Nat → Bytes
  | [], _ => []
  | (true, b) :: ps, q => packNum (int64 (offset + q)) ++ heads offset ps (q + b.length)
  | (false, b) :: ps, q => b ++ heads offset ps q

/-- The variable input. -/
def tails : List (Bool × Bytes) → Bytes
  | [] => []
  | (true, b) :: ps => b ++ tails ps
  | (false, _) :: ps => tails ps

theorem heads_append (offset : Int) (ps ps' : List (Bool × Bytes)) (q : Nat) :
    heads offset (ps ++ ps') q = heads offset ps q ++ heads offset ps' (q + (tails ps).length) := by
  induction ps generalizing q with
  | nil => rfl
  | cons p ps ih =>
    obtain ⟨flag, b⟩ := p
    cases flag with
    | true => simp [heads, tails, ih, Nat.add_assoc]
    | false => simp [heads, tails, ih]

theorem tails_append (ps ps' : List (Bool × Bytes)) : tails (ps ++ ps') = tails ps ++ tails ps' := by
  induction ps with
  | nil => rfl
  | cons p ps ih =>
    obtain ⟨flag, b⟩ := p
    cases flag <;> simp [tails, ih]

theorem packLoop_eq (offset : Int) {ts : List AbiType} {vs : List Value} {ps : List (Bool × Bytes)}
    (h : Packed ts vs ps) (ret variableInput : Bytes) :
    packLoop offset ((ofTypes ts).zip vs) ret variableInput =
      .ok (ret ++ heads offset ps variableInput.length, variableInput ++ tails ps) := by
  induction h generalizing ret variableInput with
  | nil => simp [ofTypes, packLoop, heads, tails]
  | @cons t v b ts vs ps hb _ ih =>
    simp only [ofTypes] at ih
    simp only [ofTypes, List.map_cons, List.zip_cons_cons, packLoop, hb, Result.ok_bind]
    cases t.requiresLengthPrefix with
    | true => simp [ih, heads, tails]
    | false => simp [ih, heads, tails]

theorem packLoop_packed {offset : Int} {ts : List AbiType} {vs : List Value}
    (hlen : vs.length = ts.length)
    {ret variableInput : Bytes} {r : Bytes × Bytes}
    (h : packLoop offset ((ofTypes ts).zip vs) ret variableInput = .ok r) : ∃ ps, Packed ts vs ps := by
  induction ts generalizing vs ret variableInput with
  | nil =>
    obtain rfl : vs = [] := List.length_eq_zero_iff.mp hlen
    exact ⟨[], .nil⟩
  | cons t ts ih =>
    cases vs with
    | nil => cases hlen
    | cons v vs =>
      simp only [ofTypes, List.map_cons, List.zip_cons_cons, packLoop] at h
      obtain ⟨b, hb, h⟩ := Result.bind_eq_ok.mp h
      have hlen' : vs.length = ts.length := by simpa using hlen
      split_ifs at h
      all_goals
        obtain ⟨ps, hps⟩ := ih hlen' h
        exact ⟨_, .cons hb hps⟩

theorem Packed.length {ts : List AbiType} {vs : List Value} {ps : List (Bool × Bytes)}
    (h : Packed ts vs ps) : vs.length = ts.length := by
  induction h with
  | nil => rfl
  | cons _ _ ih => simp [ih]

theorem packArguments_eq {ts : List AbiType} {vs : List Value} {ps : List (Bool × Bytes)}
    (h : Packed ts vs ps) : packArguments (ofTypes ts) vs =
      .ok (heads (inputOffset (ofTypes ts)) ps 0 ++ tails ps) := by
  have hlen : vs.length = (ofTypes ts).length := by simp [ofTypes, h.length]
  simp only [packArguments, hlen, ne_eq, not_true_eq_false, if_false, packLoop_eq _ h,
    Result.ok_bind]
  rfl

theorem packArguments_packed {ts : List AbiType} {vs : List Value} {data : Bytes}
    (h : packArguments (ofTypes ts) vs = .ok data) : ∃ ps, Packed ts vs ps := by
  unfold packArguments at h
  split_ifs at h with hlen
  obtain ⟨r, hr, -⟩ := Result.bind_eq_ok.mp h
  exact packLoop_packed (by simpa [ofTypes] using hlen) hr

namespace AbiType

/-- The words that `Pack` counts for the head. -/
def declared : AbiType → Nat
  | array _ size => size
  | _ => 1

theorem Static.declared_le {t : AbiType} (h : t.Static) : t.declared ≤ t.words := by
  cases t with
  | array elem size => exact Nat.le_mul_of_pos_right size h.2.words_pos
  | _ => exact Nat.le_refl 1

end AbiType

theorem inputOffset_eq {ts : List AbiType} (h : 32 * (ts.map AbiType.declared).sum < 2 ^ 63) :
    inputOffset (ofTypes ts) = (32 * (ts.map AbiType.declared).sum : Nat) := by
  have hhead : ∀ t : AbiType, 32 * t.declared < 2 ^ 63 → t.headSize = (32 * t.declared : Nat) := by
    intro t ht
    cases t with
    | array elem size =>
      simp only [AbiType.declared] at ht
      simp only [AbiType.headSize, AbiType.declared]
      exact int64_small (by omega) (by omega)
    | _ => rfl
  have hfold : ∀ (ts : List AbiType) (acc : Nat), acc + 32 * (ts.map AbiType.declared).sum < 2 ^ 63 →
      (ofTypes ts).foldl (fun offset arg => int64 (offset + arg.type.headSize)) (acc : Int) =
        ((acc + 32 * (ts.map AbiType.declared).sum : Nat) : Int) := by
    intro ts
    induction ts with
    | nil =>
      intro acc _
      simp [ofTypes]
    | cons t ts ih =>
      intro acc hacc
      simp only [List.map_cons, List.sum_cons] at hacc
      have hstep : int64 ((acc : Int) + t.headSize) = ((acc + 32 * t.declared : Nat) : Int) := by
        rw [hhead t (by omega), int64_small (by omega) (by omega)]
        rfl
      simp only [ofTypes, List.map_cons, List.foldl_cons] at ih ⊢
      rw [hstep, ih _ (by omega), List.sum_cons]
      congr 1
      ring
  have hzero := hfold ts 0 (by omega)
  rw [Nat.zero_add] at hzero
  exact hzero

/-! ## The positions of the head -/

theorem AbiType.Supported.static {t : AbiType} (h : t.Supported)
    (hp : t.requiresLengthPrefix = false) : t.Static := by
  cases t with
  | string | bytes | slice => cases hp
  | _ => exact h

theorem AbiType.words_eq_one {t : AbiType} (h : t.requiresLengthPrefix = true) : t.words = 1 := by
  cases t with
  | array => cases h
  | _ => rfl

/-- Every argument takes the words of its type in the head. -/
theorem Packed.heads_length {ts : List AbiType} {vs : List Value} {ps : List (Bool × Bytes)}
    (h : Packed ts vs ps) (hs : ∀ t ∈ ts, t.Supported) (hv : List.Forall₂ AbiType.Typed ts vs)
    (offset : Int) (q : Nat) : (heads offset ps q).length = 32 * (ts.map AbiType.words).sum := by
  induction h generalizing q with
  | nil => rfl
  | @cons t v b ts vs ps hb _ ih =>
    cases hv with
    | cons hv hvs =>
      have ih := ih (fun t ht => hs t (List.mem_cons_of_mem _ ht)) hvs
      rw [List.map_cons, List.sum_cons]
      cases hp : t.requiresLengthPrefix with
      | true =>
        rw [heads, List.length_append, packNum_length, ih, AbiType.words_eq_one hp]
        ring
      | false =>
        obtain ⟨b', hb', hlen⟩ := ((hs t List.mem_cons_self).static hp).pack hv
        rw [hb] at hb'
        cases hb'
        rw [heads, List.length_append, hlen, ih]
        ring

theorem AbiType.Static.getArraySize {elem : AbiType} {size : Nat} (h : (array elem size).Static)
    (hlim : (array elem size).words < 2 ^ 63) :
    getArraySize (array elem size) = ((array elem size).words : Nat) := by
  induction elem generalizing size with
  | array elem' size' ih =>
    have hle : (array elem' size').words ≤ size * (array elem' size').words :=
      Nat.le_mul_of_pos_left _ h.1
    have hinner := ih h.2 (lt_of_le_of_lt hle hlim)
    rw [Abi.getArraySize, hinner, ← Nat.cast_mul, int64_small (by omega) (by exact_mod_cast hlim)]
    rfl
  | string | bytes | slice => cases h.2
  | _ => simp [Abi.getArraySize, words]

/-- The counter of virtual arguments after a type. -/
def virtualAfter (t : AbiType) (virtualArgs : Int) : Int :=
  match t with
  | .array _ _ => int64 (virtualArgs + (getArraySize t - 1))
  | _ => virtualArgs

theorem unpackLoop_cons (data : Bytes) (t : AbiType) (ts : List AbiType) (index virtualArgs : Int) :
    unpackLoop data (ofTypes (t :: ts)) index virtualArgs = (do
      let v ← toGoType t (int64 (int64 (index + virtualArgs) * 32)) data
      let vs ← unpackLoop data (ofTypes ts) (index + 1) (virtualAfter t virtualArgs)
      return v :: vs) := rfl

/-- One argument further, the next position is that many words further. -/
theorem virtualAfter_eq {t : AbiType} (h : t.requiresLengthPrefix = false → t.Static) {i j : Nat}
    (hlim : 32 * (i + j + t.words) < 2 ^ 63) :
    ∃ j', virtualAfter t j = (j' : Nat) ∧ i + 1 + j' = i + j + t.words := by
  cases t with
  | array elem size =>
    have hpos := (h rfl).words_pos
    have hsize := (h rfl).getArraySize (by omega)
    refine ⟨j + ((AbiType.array elem size).words - 1), ?_, by omega⟩
    rw [virtualAfter, hsize, int64_small (by omega) (by omega)]
    omega
  | _ => exact ⟨j, rfl, by simp only [AbiType.words]; omega⟩

theorem position_eq {i j : Nat} (h : 32 * (i + j) < 2 ^ 63) :
    int64 (int64 ((i : Int) + j) * 32) = ((32 * (i + j) : Nat) : Int) := by
  rw [int64_small (x := (i : Int) + j) (by omega) (by omega), int64_small (by omega) (by omega)]
  push_cast
  ring

/-- An encoding whose offsets point at the variable input is read back. -/
theorem unpackLoop_at {data R V : Bytes} {offset : Int} (hdata : data = R ++ V)
    (hlim : data.length < 2 ^ 63) {ts : List AbiType} {vs : List Value} {ps : List (Bool × Bytes)}
    (h : Packed ts vs ps) (hs : ∀ t ∈ ts, t.Supported ∧ t.isSliceOfArrays = false)
    (hv : List.Forall₂ AbiType.Typed ts vs) (hneg : List.Forall₂ AbiType.NonNeg ts vs)
    (hoffset : (∃ t ∈ ts, t.requiresLengthPrefix = true) → offset = R.length) {ret V₁ : Bytes}
    {i j : Nat} (hR : R = ret ++ heads offset ps V₁.length) (hV : V = V₁ ++ tails ps)
    (hpos : ret.length = 32 * (i + j)) : unpackLoop data (ofTypes ts) i j = .ok vs := by
  -- along the arguments; `ret` and `V₁` are the parts of the head and of the variable input before
  induction h generalizing ret V₁ i j with
  | nil => rfl
  | @cons t v b ts vs ps hb _ ih =>
    cases hv with
    | cons hv hvs =>
    cases hneg with
    | cons hneg hnegs =>
    obtain ⟨hsup, hplain⟩ := hs t List.mem_cons_self
    have hoffset' : (∃ u ∈ ts, u.requiresLengthPrefix = true) → offset = R.length := by
      rintro ⟨u, hu, hp⟩
      exact hoffset ⟨u, List.mem_cons_of_mem _ hu, hp⟩
    have hRle : R.length ≤ data.length := by
      rw [hdata, List.length_append]
      omega
    have hret : ret.length ≤ R.length := by
      rw [hR, List.length_append]
      omega
    -- what the head holds for this argument, and what it reads
    have hread : ∃ head, R = (ret ++ head) ++
        heads offset ps (V₁ ++ if t.requiresLengthPrefix then b else []).length ∧
        V = (V₁ ++ if t.requiresLengthPrefix then b else []) ++ tails ps ∧
        head.length = 32 * t.words ∧ toGoType t ret.length data = .ok v := by
      cases hp : t.requiresLengthPrefix with
      | true =>
        rw [hp, heads] at hR
        rw [hp, tails] at hV
        have hle : R.length + V₁.length ≤ data.length := by
          rw [hdata, hV, List.length_append, List.length_append]
          omega
        have hword : int64 (offset + V₁.length) = ((R.length + V₁.length : Nat) : Int) := by
          rw [hoffset ⟨t, List.mem_cons_self, hp⟩, int64_small (by omega) (by omega)]
          rfl
        have hhead : At data ret.length (packNum ((R.length + V₁.length : Nat) : Int)) := by
          refine ⟨ret, heads offset ps (V₁.length + b.length) ++ V, ?_, rfl⟩
          rw [hdata]
          nth_rewrite 1 [hR]
          rw [hword]
          simp only [List.append_assoc]
        have hbody : At data (R.length + V₁.length) b := by
          refine ⟨R ++ V₁, tails ps, ?_, by simp⟩
          rw [hdata, hV]
          simp only [List.append_assoc]
        refine ⟨packNum (int64 (offset + V₁.length)), ?_, ?_, ?_, ?_⟩
        · simpa using hR
        · simpa using hV
        · rw [packNum_length, AbiType.words_eq_one hp]
        · exact AbiType.Plain.unpack ⟨hsup, hp, hplain⟩ hv hneg hb hhead hbody hlim
      | false =>
        rw [hp, heads] at hR
        rw [hp, tails] at hV
        have hstatic := hsup.static hp
        obtain ⟨b', hb', hlen⟩ := hstatic.pack hv
        rw [hb] at hb'
        cases hb'
        have hat : At data ret.length b := by
          refine ⟨ret, heads offset ps V₁.length ++ V, ?_, rfl⟩
          rw [hdata]
          nth_rewrite 1 [hR]
          simp only [List.append_assoc]
        refine ⟨b, by simpa using hR, by simpa using hV, hlen, ?_⟩
        exact hstatic.unpack hv hneg hb hat hlim
    obtain ⟨head, hR', hV', hlen, hgo⟩ := hread
    have hhead : 32 * (i + j + t.words) ≤ R.length := by
      rw [hR', List.length_append, List.length_append, hlen, hpos]
      omega
    have hbound : 32 * (i + j + t.words) < 2 ^ 63 := by omega
    obtain ⟨j', hj', hsum⟩ := virtualAfter_eq hsup.static hbound
    have hret : (ret ++ head).length = 32 * (i + 1 + j') := by
      rw [List.length_append, hlen, hpos]
      omega
    have hnext := ih (fun u hu => hs u (List.mem_cons_of_mem _ hu)) hvs hnegs hoffset' hR' hV' hret
    rw [unpackLoop_cons, position_eq (by omega), ← hpos, hgo, Result.ok_bind, hj']
    push_cast at hnext
    rw [hnext]
    rfl

theorem unpackLoop_nonNeg {data : Bytes} {ts : List AbiType} {vs : List Value} {i j : Int}
    (h : unpackLoop data (ofTypes ts) i j = .ok vs) : List.Forall₂ AbiType.NonNeg ts vs := by
  induction ts generalizing vs i j with
  | nil =>
    cases h
    exact .nil
  | cons t ts ih =>
    rw [unpackLoop_cons] at h
    obtain ⟨v, hv, h⟩ := Result.bind_eq_ok.mp h
    obtain ⟨vs', hvs, h⟩ := Result.bind_eq_ok.mp h
    cases h
    exact .cons (toGoType_nonNeg hv) (ih hvs)

/-- Where each argument was read. -/
theorem unpackLoop_read {data : Bytes} {front rest : List AbiType} {t : AbiType} {vs ws : List Value}
    {v : Value} {i j : Nat} (hs : ∀ t ∈ front, t.requiresLengthPrefix = false → t.Static)
    (hlim : 32 * (i + j + (front.map AbiType.words).sum) < 2 ^ 63) (hlen : vs.length = front.length)
    (h : unpackLoop data (ofTypes (front ++ t :: rest)) i j = .ok (vs ++ v :: ws)) :
    toGoType t ((32 * (i + j + (front.map AbiType.words).sum) : Nat) : Int) data = .ok v := by
  induction front generalizing vs i j with
  | nil =>
    obtain rfl : vs = [] := List.length_eq_zero_iff.mp hlen
    rw [List.nil_append, unpackLoop_cons] at h
    obtain ⟨v', hv, h⟩ := Result.bind_eq_ok.mp h
    obtain ⟨vs', -, h⟩ := Result.bind_eq_ok.mp h
    cases h
    simp only [List.map_nil, List.sum_nil, Nat.add_zero] at hlim ⊢
    rw [position_eq hlim] at hv
    exact hv
  | cons u front ih =>
    cases vs with
    | nil => cases hlen
    | cons x vs =>
      rw [List.cons_append, unpackLoop_cons] at h
      obtain ⟨v', -, h⟩ := Result.bind_eq_ok.mp h
      obtain ⟨vs', hvs, h⟩ := Result.bind_eq_ok.mp h
      cases h
      simp only [List.map_cons, List.sum_cons] at hlim ⊢
      obtain ⟨j', hj', hsum⟩ := virtualAfter_eq (hs u List.mem_cons_self)
        (show 32 * (i + j + u.words) < 2 ^ 63 by omega)
      rw [hj'] at hvs
      have hnext := ih (fun t ht => hs t (List.mem_cons_of_mem _ ht))
        (show 32 * (i + 1 + j' + (front.map AbiType.words).sum) < 2 ^ 63 by omega)
        (by simpa using hlen) hvs
      rw [hsum] at hnext
      rw [← Nat.add_assoc]
      exact hnext

end MiniEvm.Abi
