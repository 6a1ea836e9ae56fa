import MiniEvm.Rlp.Encode

namespace MiniEvm.Rlp

open Math Framework

/-! ## Minimal numbers -/

/-- The number of bytes that a number takes at least, and one byte for zero. -/
theorem intsize_spec (i : Nat) :
    0 < intsize i ∧ i < 256 ^ intsize i ∧ (0 < i → 256 ^ (intsize i - 1) ≤ i) := by
  induction i using Nat.strong_induction_on with
  | h i ih =>
    rw [intsize]
    split_ifs with hsmall
    · refine ⟨by decide, ?_, ?_⟩
      · omega
      · intro hpos
        rw [Nat.sub_self, Nat.pow_zero]
        exact hpos
    · obtain ⟨hpos, hlt, hle⟩ := ih (i / 256) (by omega)
      refine ⟨Nat.succ_pos _, ?_, fun _ => ?_⟩
      · rw [Nat.pow_succ]
        omega
      · have hlow := hle (by omega)
        have hpow : 256 ^ (intsize (i / 256) + 1 - 1) = 256 ^ (intsize (i / 256) - 1) * 256 := by
          rw [← Nat.pow_succ]
          congr 1
          omega
        rw [hpow]
        omega

theorem intsize_eq {i k : Nat} (hlow : 256 ^ k ≤ i) (hhigh : i < 256 ^ (k + 1)) :
    intsize i = k + 1 := by
  obtain ⟨-, hlt, hle⟩ := intsize_spec i
  have hpos : 0 < i := lt_of_lt_of_le (Nat.pow_pos (by decide)) hlow
  have hmore : k < intsize i := (Nat.pow_lt_pow_iff_right (by decide)).mp (lt_of_le_of_lt hlow hlt)
  have hless : intsize i - 1 < k + 1 :=
    (Nat.pow_lt_pow_iff_right (by decide)).mp (lt_of_le_of_lt (hle hpos) hhigh)
  omega

theorem putint_eq {i : Nat} (h : i < 2^64) : putint i = toBytes (intsize i) i := by
  unfold putint
  split_ifs with h1 h2 h3 h4 h5 h6 h7
  · rw [intsize, if_pos (by omega)]
  · rw [intsize_eq (k := 1) (by omega) (by omega)]
  · rw [intsize_eq (k := 2) (by omega) (by omega)]
  · rw [intsize_eq (k := 3) (by omega) (by omega)]
  · rw [intsize_eq (k := 4) (by omega) (by omega)]
  · rw [intsize_eq (k := 5) (by omega) (by omega)]
  · rw [intsize_eq (k := 6) (by omega) (by omega)]
  · rw [intsize_eq (k := 7) (by omega) (by omega)]

theorem putint_length {i : Nat} (h : i < 2^64) : (putint i).length = intsize i := by
  rw [putint_eq h, toBytes_length]

theorem puthead_length {small large : UInt8} {n : Nat} (h : n < 2^64) :
    (puthead small large n).length = headsize n := by
  unfold puthead headsize
  split_ifs
  · rfl
  · rw [List.length_cons, putint_length h, Nat.add_comm]

theorem bigBytes_eq_putint {i : Nat} (hpos : 0 < i) (h : i < 2^64) : bigBytes i = putint i := by
  have hbits : ∀ k, bitLen (i : Int) ≤ 8 * k ↔ i < 256 ^ k := by
    intro k
    rw [bitLen_le_iff, Int.natAbs_natCast, Nat.pow_mul]
  have hne : bitLen (i : Int) ≠ 0 := by
    rw [Ne, bitLen_eq_zero]
    omega
  obtain ⟨k, hk⟩ : ∃ k, (bitLen (i : Int) + 7) / 8 = k + 1 := ⟨(bitLen (i : Int) + 7) / 8 - 1, by omega⟩
  have hhigh : i < 256 ^ (k + 1) := (hbits (k + 1)).mp (by omega)
  have hlow : 256 ^ k ≤ i := by
    by_contra hnot
    have hless := (hbits k).mpr (by omega)
    omega
  rw [bigBytes, hk, Int.natAbs_natCast, putint_eq h, intsize_eq hlow hhigh]

/-! ## What an encoding is -/

/-- The data that is encoded: strings, and lists of data. -/
inductive Item where
  | str (b : Bytes)
  | list (items : List Item)

/-- A single byte below 128 is its own encoding; other strings have a header. -/
def encodeStr (b : Bytes) : Bytes :=
  if fitsByte b then b else puthead 0x80 0xB7 b.length ++ b

mutual

def Item.encode : Item → Bytes
  | .str b => encodeStr b
  | .list items => listHeader (encodeItems items).length ++ encodeItems items

def encodeItems : List Item → Bytes
  | [] => []
  | item :: items => item.encode ++ encodeItems items

end

mutual

/-- The bytes that stand for a value; a negative integer has none. Numbers are strings without
leading zeros, and nil pointers empty strings or lists. -/
def Value.encoding : Value → Option Bytes
  | .raw b => some b
  | .uint i => some (encodeStr (bigBytes i.toNat))
  | .bool b => some (encodeStr (if b then [1] else []))
  | .bigInt i => if i < 0 then none else some (encodeStr (bigBytes i))
  | .bytes b => some (encodeStr b)
  | .list vs => (encodings vs).map fun content => listHeader content.length ++ content
  | .nilInterface | .nilList => some (listHeader 0)
  | .nilBytes => some (encodeStr [])

def encodings : List Value → Option Bytes
  | [] => some []
  | v :: vs => v.encoding.bind fun b => (encodings vs).map fun bs => b ++ bs

end

/-! ## Writing -/

/-- The buffer after some tokens were written. -/
def EncBuf.ofTokens (ts : List (Token UInt8)) : EncBuf :=
  ⟨Token.text ts, Token.marks 0 ts, Token.room headsize ts⟩

/-- The tokens are finished, and in their places they make the given bytes. -/
structure Writes (us : List (Token UInt8)) (b : Bytes) : Prop where
  flatten : Token.flatten listHeader us = b
  closed : ∀ t ∈ us, t.isClosed = true
  small : ∀ n, Token.closed n ∈ us → n < 2^64

namespace Writes

variable {us us' : List (Token UInt8)} {b b' : Bytes}

theorem nil : Writes [] [] := ⟨rfl, by simp, by simp⟩

theorem data (b : Bytes) : Writes [.data b] b := by
  refine ⟨by simp [Token.flatten], ?_, ?_⟩
  · intro t ht
    rw [List.mem_singleton.mp ht]
    rfl
  · intro n hn
    cases List.mem_singleton.mp hn

theorem append (h : Writes us b) (h' : Writes us' b') : Writes (us ++ us') (b ++ b') := by
  refine ⟨by rw [Token.flatten_append, h.flatten, h'.flatten], ?_, ?_⟩
  · intro t ht
    rcases List.mem_append.mp ht with ht | ht
    · exact h.closed t ht
    · exact h'.closed t ht
  · intro n hn
    rcases List.mem_append.mp hn with hn | hn
    · exact h.small n hn
    · exact h'.small n hn

theorem list (h : Writes us b) (hb : b.length < 2^64) :
    Writes (.closed b.length :: us) (listHeader b.length ++ b) := by
  refine ⟨by rw [Token.flatten, h.flatten], ?_, ?_⟩
  · intro t ht
    rcases List.mem_cons.mp ht with rfl | ht
    · rfl
    · exact h.closed t ht
  · intro n hn
    rcases List.mem_cons.mp hn with heq | hn
    · cases heq
      exact hb
    · exact h.small n hn

theorem length (h : Writes us b) : b.length = (Token.text us).length + Token.room headsize us := by
  rw [← h.flatten]
  exact Token.flatten_length (fun n hn => puthead_length (h.small n hn)) h.closed

end Writes

theorem append_ofTokens (ts : List (Token UInt8)) (b : Bytes) :
    (EncBuf.ofTokens ts).append b = .ofTokens (ts ++ [.data b]) := by
  simp [EncBuf.append, EncBuf.ofTokens, Token.text, Token.marks, Token.room]

theorem append_writes (ts : List (Token UInt8)) (b : Bytes) :
    ∃ us, (EncBuf.ofTokens ts).append b = .ofTokens (ts ++ us) ∧ Writes us b :=
  ⟨[.data b], append_ofTokens ts b, .data b⟩

theorem append_append_writes (ts : List (Token UInt8)) (b b' : Bytes) :
    ∃ us, ((EncBuf.ofTokens ts).append b).append b' = .ofTokens (ts ++ us) ∧ Writes us (b ++ b') := by
  refine ⟨[.data b] ++ [.data b'], ?_, (Writes.data b).append (.data b')⟩
  rw [append_ofTokens, append_ofTokens, List.append_assoc]

theorem encodeString_writes (ts : List (Token UInt8)) (b : Bytes) :
    ∃ us, (EncBuf.ofTokens ts).encodeString b = .ofTokens (ts ++ us) ∧ Writes us (encodeStr b) := by
  unfold EncBuf.encodeString encodeStr
  split_ifs
  · exact append_writes ts b
  · exact append_append_writes ts _ b

theorem list_ofTokens (ts : List (Token UInt8)) :
    (EncBuf.ofTokens ts).list =
      ((Token.marks 0 ts).length, .ofTokens (ts ++ [.opened (Token.room headsize ts)])) := by
  simp [EncBuf.list, EncBuf.ofTokens, Token.text, Token.marks, Token.room]

/-- The size of a list is what was written since it was started. -/
theorem listEnd_ofTokens (ts : List (Token UInt8)) {us : List (Token UInt8)} {b : Bytes}
    (h : Writes us b) :
    (EncBuf.ofTokens (ts ++ [.opened (Token.room headsize ts)] ++ us)).listEnd (Token.marks 0 ts).length =
      .ofTokens (ts ++ .closed b.length :: us) := by
  have hlength := h.length
  simp only [EncBuf.listEnd, EncBuf.ofTokens, EncBuf.size, Token.text_append, Token.marks_append,
    Token.room_append, Token.text, Token.marks, Token.room, List.append_assoc, List.nil_append,
    Nat.zero_add, List.cons_append]
  have hhead : (Token.marks 0 ts ++ (⟨(Token.text ts).length, Token.room headsize ts⟩ : Mark) ::
      Token.marks (Token.text ts).length us)[(Token.marks 0 ts).length]? =
      some ⟨(Token.text ts).length, Token.room headsize ts⟩ := by
    simp
  have hsize : (Token.text ts ++ Token.text us).length + (Token.room headsize ts + Token.room headsize us) -
      (Token.text ts).length - Token.room headsize ts = b.length := by
    rw [List.length_append]
    omega
  rw [hhead]
  simp only [hsize, List.set_append_right _ _ (Nat.le_refl _), Nat.sub_self, List.set_cons_zero]
  simp
  omega

/-- Induction over a value, with the values of a list at once. -/
theorem Value.induct {P : Value → Prop} (leaf : ∀ v, (∀ vs, v ≠ .list vs) → P v)
    (list : ∀ vs, (∀ v ∈ vs, P v) → P (.list vs)) (v : Value) : P v := by
  refine @Value.rec P (fun vs => ∀ v ∈ vs, P v) ?_ ?_ ?_ ?_ ?_ ?_ ?_ ?_ ?_ ?_ ?_ v
  case refine_6 => exact list
  case refine_10 =>
    intro v hv
    cases hv
  case refine_11 =>
    intro v vs hv hvs u hu
    rcases List.mem_cons.mp hu with rfl | hu
    · exact hv
    · exact hvs u hu
  all_goals
    intros
    refine leaf _ fun vs h => ?_
    cases h

theorem write_none (v : Value) (w : EncBuf) (h : v.encoding = none) : write v w = none := by
  induction v using Value.induct generalizing w with
  | leaf v hv =>
    cases v with
    | list vs => exact absurd rfl (hv vs)
    | bigInt i =>
      rw [Value.encoding] at h
      rw [write]
      split_ifs at h ⊢
      rfl
    | raw | uint | bool | bytes | nilInterface | nilBytes | nilList => cases h
  | list vs ih =>
    rw [Value.encoding, Option.map_eq_none_iff] at h
    rw [write, Option.map_eq_none_iff]
    generalize w.list.2 = w
    induction vs generalizing w with
    | nil => cases h
    | cons v vs ihvs =>
      obtain ⟨hv, hvs⟩ := List.forall_mem_cons.mp ih
      rw [encodings] at h
      rw [writeAll]
      cases hb : v.encoding with
      | none => rw [hv w hb, Option.bind_none]
      | some b =>
        rw [hb, Option.bind_some, Option.map_eq_none_iff] at h
        cases write v w with
        | none => rfl
        | some w' => exact ihvs hvs h w'

theorem fitsByte_ofNat (n : Nat) : fitsByte [UInt8.ofNat n] = decide (n % 256 ≤ 127) := by
  rw [fitsByte, decide_eq_decide, UInt8.le_iff_toNat_le, UInt8.toNat_ofNat']
  rfl

/-- A number in one byte. -/
theorem encodeStr_byte {n : Nat} (hpos : 0 < n) (h : n < 128) :
    encodeStr (bigBytes n) = [UInt8.ofNat n] := by
  have hbytes : bigBytes n = [UInt8.ofNat n] := by
    rw [bigBytes_eq_putint hpos (by omega), putint, if_pos (by omega)]
    rfl
  have hfits : fitsByte [UInt8.ofNat n] = true := by
    rw [fitsByte_ofNat, decide_eq_true_eq]
    omega
  rw [hbytes, encodeStr, if_pos hfits]

theorem fitsByte_putint {n : Nat} (h : 128 ≤ n) (hn : n < 2^64) : fitsByte (putint n) = false := by
  by_cases hbyte : n < 256
  · rw [putint, if_pos (by omega), toBytes, toBytes, List.nil_append, fitsByte_ofNat,
      decide_eq_false_iff_not]
    omega
  · have hlength : 2 ≤ (putint n).length := by
      obtain ⟨hpos, hlt, -⟩ := intsize_spec n
      rw [putint_length hn]
      by_contra hone
      have heq : intsize n = 1 := by omega
      rw [heq] at hlt
      omega
    cases hput : putint n with
    | nil => rfl
    | cons a rest =>
      cases rest with
      | nil =>
        rw [hput] at hlength
        simp at hlength
      | cons b rest => rfl

theorem putint_length_le (n : Nat) : (putint n).length ≤ 8 := by
  unfold putint
  split_ifs <;> simp

/-- A number of more than one byte. -/
theorem encodeStr_putint {n : Nat} (h : 128 ≤ n) (hn : n < 2^64) :
    encodeStr (bigBytes n) = UInt8.ofNat (0x80 + (putint n).length) :: putint n := by
  have hle := putint_length_le n
  rw [bigBytes_eq_putint (by omega) hn, encodeStr, fitsByte_putint h hn, if_neg (by simp), puthead,
    if_pos (by omega), UInt8.ofNat_add]
  rfl

/-- A number of 64 bits, by its size. -/
theorem encodeStr_uint (i : UInt64) :
    encodeStr (bigBytes i.toNat) = if i = 0 then [0x80] else if i < 128 then [i.toUInt8]
      else UInt8.ofNat (0x80 + (putint i.toNat).length) :: putint i.toNat := by
  have hi : i.toNat < 2^64 := i.toNat_lt
  split_ifs with hzero hsmall
  · rw [hzero]
    rfl
  · have hpos : 0 < i.toNat := by
      rw [Nat.pos_iff_ne_zero]
      intro h0
      exact hzero (UInt64.toNat_inj.mp h0)
    have hlt : i.toNat < 128 := UInt64.lt_iff_toNat_lt.mp hsmall
    rw [encodeStr_byte hpos hlt]
    rfl
  · have hle : 128 ≤ i.toNat := by
      by_contra hnot
      exact hsmall (UInt64.lt_iff_toNat_lt.mpr (by simpa using hnot))
    rw [encodeStr_putint hle hi]

theorem write_uint (i : UInt64) (w : EncBuf) :
    write (.uint i) w = some (w.append (encodeStr (bigBytes i.toNat))) := by
  rw [write, encodeStr_uint]
  split_ifs <;> rfl

theorem write_bigInt {i : Int} (h : 0 ≤ i) (w : EncBuf) :
    write (.bigInt i) w = some (w.encodeString (bigBytes i)) := by
  rw [write, if_neg (by omega)]
  split_ifs with hzero
  · have hempty : bigBytes 0 = [] := rfl
    rw [hzero, hempty, EncBuf.encodeString, if_neg (by decide)]
    simp [EncBuf.encodeStringHeader, EncBuf.append, puthead]
  · rfl

/-- The buffer `w` is the one after `ts` with tokens behind it that make `b`. -/
def Extends (ts : List (Token UInt8)) (b : Bytes) (w : EncBuf) : Prop :=
  ∃ us, w = .ofTokens (ts ++ us) ∧ Writes us b

theorem write_leaf {v : Value} (hv : ∀ vs, v ≠ .list vs) (ts : List (Token UInt8)) {b : Bytes}
    (h : v.encoding = some b) : ∃ w, write v (.ofTokens ts) = some w ∧ Extends ts b w := by
  cases v with
  | list vs => exact absurd rfl (hv vs)
  | raw c =>
    cases h
    exact ⟨_, rfl, append_writes ts _⟩
  | uint i =>
    cases h
    exact ⟨_, write_uint i _, append_writes ts _⟩
  | bool c =>
    cases h
    cases c with
    | true => exact ⟨_, rfl, append_writes ts [1]⟩
    | false => exact ⟨_, rfl, append_writes ts [0x80]⟩
  | bigInt i =>
    rw [Value.encoding] at h
    split_ifs at h with hneg
    cases h
    exact ⟨_, write_bigInt (by omega) _, encodeString_writes ts _⟩
  | bytes c =>
    cases h
    exact ⟨_, rfl, encodeString_writes ts _⟩
  | nilInterface =>
    cases h
    exact ⟨_, rfl, append_writes ts [0xC0]⟩
  | nilBytes =>
    cases h
    exact ⟨_, rfl, append_writes ts [0x80]⟩
  | nilList =>
    cases h
    have hend := listEnd_ofTokens ts Writes.nil
    rw [List.append_nil] at hend
    refine ⟨_, rfl, [.closed 0], ?_, Writes.nil.list (by decide)⟩
    rw [list_ofTokens]
    exact hend

theorem writeAll_some {vs : List Value}
    (ih : ∀ v ∈ vs, ∀ ts b, v.encoding = some b → b.length < 2^64 →
      ∃ w, write v (.ofTokens ts) = some w ∧ Extends ts b w)
    (ts : List (Token UInt8)) {b : Bytes} (h : encodings vs = some b) (hb : b.length < 2^64) :
    ∃ w, writeAll vs (.ofTokens ts) = some w ∧ Extends ts b w := by
  induction vs generalizing ts b with
  | nil =>
    cases h
    exact ⟨_, rfl, [], by rw [List.append_nil], .nil⟩
  | cons v vs ihvs =>
    obtain ⟨hv, hvs⟩ := List.forall_mem_cons.mp ih
    obtain ⟨c, hc, h⟩ := Option.bind_eq_some_iff.mp h
    obtain ⟨d, hd, rfl⟩ := Option.map_eq_some_iff.mp h
    rw [List.length_append] at hb
    obtain ⟨_, hwrite, us, rfl, hus⟩ := hv ts c hc (by omega)
    obtain ⟨_, hrest, us', rfl, hus'⟩ := ihvs hvs (ts ++ us) hd (by omega)
    refine ⟨.ofTokens (ts ++ us ++ us'), ?_, us ++ us', by rw [List.append_assoc], hus.append hus'⟩
    rw [writeAll, hwrite]
    exact hrest

/-- What a value is written as, behind whatever the buffer holds. -/
theorem write_some (v : Value) (ts : List (Token UInt8)) (b : Bytes) (h : v.encoding = some b)
    (hb : b.length < 2^64) : ∃ w, write v (.ofTokens ts) = some w ∧ Extends ts b w := by
  induction v using Value.induct generalizing ts b with
  | leaf v hv => exact write_leaf hv ts h
  | list vs ih =>
    obtain ⟨content, hcontent, rfl⟩ := Option.map_eq_some_iff.mp h
    rw [List.length_append] at hb
    obtain ⟨_, hall, us, rfl, hus⟩ :=
      writeAll_some ih (ts ++ [.opened (Token.room headsize ts)]) hcontent (by omega)
    refine ⟨_, ?_, .closed content.length :: us, listEnd_ofTokens ts hus, hus.list (by omega)⟩
    rw [write, list_ofTokens, hall]
    rfl

/-! ## The bytes and the writer -/

/-- The piece of the data before a header. -/
theorem slice_before {str : Bytes} {pos offset : Nat} {ms : List ListHead}
    (h : pos ≤ offset) (hms : Ordered str.length offset ms) :
    slice str pos offset = some ((str.drop pos).take (offset - pos)) :=
  slice_eq_some.mpr ⟨h, hms.le, rfl⟩

theorem copyTo_eq {length : Nat} {out b : Bytes} (h : out.length + b.length ≤ length) :
    EncBuf.copyTo length out b = out ++ b := by
  rw [EncBuf.copyTo, List.take_of_length_le (by omega)]

theorem toBytesLoop_spec {w : EncBuf} {ms : List ListHead} {pos : Nat} (out : Bytes)
    (hms : Ordered w.str.length pos ms)
    (hfits : out.length + (weave listHeader w.str pos ms).length ≤ w.size) :
    ∃ pos' out', EncBuf.toBytesLoop w ms pos out = some (pos', out') ∧ pos' ≤ w.str.length ∧
      out' ++ w.str.drop pos' = out ++ weave listHeader w.str pos ms := by
  induction ms generalizing pos out with
  | nil => exact ⟨pos, out, rfl, hms, rfl⟩
  | cons m ms ih =>
    have hpiece := slice_before hms.1 hms.2
    have hlength : ((w.str.drop pos).take (m.offset - pos)).length = m.offset - pos := by
      rw [List.length_take, List.length_drop]
      have hle := hms.2.le
      omega
    simp only [weave, List.length_append] at hfits
    have hcopy : EncBuf.copyTo w.size out ((w.str.drop pos).take (m.offset - pos)) =
        out ++ (w.str.drop pos).take (m.offset - pos) := copyTo_eq (by omega)
    obtain ⟨pos', out', hloop, hpos', hout'⟩ := ih (out ++
      (w.str.drop pos).take (m.offset - pos) ++ listHeader m.size) hms.2 (by
        simp only [List.length_append]
        omega)
    refine ⟨pos', out', ?_, hpos', ?_⟩
    · rw [EncBuf.toBytesLoop, hpiece, Option.bind_some]
      simp only [hcopy]
      rw [if_pos (by simp only [List.length_append]; omega)]
      have hmoved : pos + ((out ++ (w.str.drop pos).take (m.offset - pos)).length - out.length) =
          m.offset := by
        rw [List.length_append, hlength]
        have hle := hms.1
        omega
      rw [hmoved]
      exact hloop
    · rw [hout', weave]
      simp only [List.append_assoc]

theorem toWriterLoop_spec {w : EncBuf} {ms : List ListHead} {pos : Nat}
    (hms : Ordered w.str.length pos ms) :
    ∃ pieces, EncBuf.toWriterLoop w ms pos = some pieces ∧
      pieces.flatten = weave listHeader w.str pos ms := by
  induction ms generalizing pos with
  | nil =>
    rw [EncBuf.toWriterLoop]
    split_ifs with hmore
    · exact ⟨_, rfl, by simp [weave]⟩
    · refine ⟨_, rfl, ?_⟩
      rw [weave, List.drop_of_length_le (by omega)]
      rfl
  | cons m ms ih =>
    obtain ⟨pieces, hloop, hpieces⟩ := ih hms.2
    rw [EncBuf.toWriterLoop]
    split_ifs with hbefore
    · have hlength : ((w.str.drop pos).take (m.offset - pos)).length = m.offset - pos := by
        rw [List.length_take, List.length_drop]
        have hle := hms.2.le
        omega
      have hmoved : pos + (m.offset - pos) = m.offset := by omega
      rw [slice_before hms.1 hms.2, Option.bind_some, hlength, hmoved, hloop]
      exact ⟨_, rfl, by simp [weave, hpieces]⟩
    · have heq : pos = m.offset := by
        have hle := hms.1
        omega
      rw [heq, hloop]
      exact ⟨_, rfl, by simp [weave, hpieces]⟩

section Finished

variable {us : List (Token UInt8)} {b : Bytes}

/-- The finished headers put into the data of the buffer. -/
theorem weave_ofTokens (h : Writes us b) :
    weave listHeader (EncBuf.ofTokens us).str 0 (EncBuf.ofTokens us).lheads = b := by
  have hweave := Token.weave_marks listHeader [] (Nat.le_refl 0) us
  rw [h.flatten] at hweave
  exact hweave

theorem ordered_ofTokens (us : List (Token UInt8)) :
    Ordered (EncBuf.ofTokens us).str.length 0 (EncBuf.ofTokens us).lheads := by
  have hordered := Token.marks_ordered 0 us
  rw [Nat.zero_add] at hordered
  exact hordered

theorem size_ofTokens (h : Writes us b) : (EncBuf.ofTokens us).size = b.length := h.length.symm

theorem toBytes_ofTokens (h : Writes us b) : (EncBuf.ofTokens us).toBytes = some b := by
  have hweave := weave_ofTokens h
  have hsize := size_ofTokens h
  obtain ⟨pos, out, hloop, hpos, hout⟩ := toBytesLoop_spec [] (ordered_ofTokens us) (by
    rw [hweave, hsize]
    simp)
  rw [hweave, List.nil_append] at hout
  have hlast : slice (EncBuf.ofTokens us).str pos (EncBuf.ofTokens us).str.length =
      some ((EncBuf.ofTokens us).str.drop pos) := by
    refine slice_eq_some.mpr ⟨hpos, Nat.le_refl _, ?_⟩
    rw [List.take_of_length_le (by rw [List.length_drop])]
  have hlength : out.length + ((EncBuf.ofTokens us).str.drop pos).length = b.length := by
    rw [← List.length_append, hout]
  simp only [EncBuf.toBytes, hloop, Option.bind_some, hlast, Option.map_some]
  rw [copyTo_eq (by omega), hout, hsize]
  simp [rightPad]

theorem toWriter_ofTokens (h : Writes us b) :
    ∃ pieces, (EncBuf.ofTokens us).toWriter = some pieces ∧ pieces.flatten = b := by
  obtain ⟨pieces, hloop, hpieces⟩ := toWriterLoop_spec (ordered_ofTokens us)
  exact ⟨pieces, hloop, hpieces.trans (weave_ofTokens h)⟩

end Finished

/-! ## The reader -/

namespace EncReader

/-- The bytes that are still to be read. -/
def left (r : EncReader) : Bytes :=
  r.buf.elim [] fun buf => r.piece.getD [] ++ weave listHeader buf.str r.strpos (buf.lheads.drop r.lhpos)

/-- The position is before the headers to come, and a piece is not kept when it is used up. -/
structure Ready (r : EncReader) : Prop where
  ordered : ∀ buf, r.buf = some buf → Ordered buf.str.length r.strpos (buf.lheads.drop r.lhpos)
  piece : r.piece ≠ some []

/-- The pieces that are left, at most. -/
def pieces (r : EncReader) : Nat :=
  (r.buf.elim 0 fun buf => buf.lheads.length - r.lhpos + (buf.str.length - r.strpos)) +
    if r.piece.isSome then 1 else 0

theorem pieces_lt_work (r : EncReader) : r.pieces < r.work := by
  unfold pieces work
  split_ifs <;> omega

theorem listHeader_ne_nil (n : Nat) : listHeader n ≠ [] := by
  unfold listHeader puthead
  split_ifs <;> simp

/-- The next piece is the beginning of what is left, and there is none only at the end. -/
theorem next_spec {r : EncReader} (hr : r.Ready) :
    (r.next = some (none, r) ∧ r.left = []) ∨
      ∃ p r', r.next = some (some p, r') ∧ p ≠ [] ∧ r'.buf = r.buf ∧ r'.buf.isSome ∧
        r.left = p ++ { r' with piece := none }.left ∧ { r' with piece := none }.Ready ∧
        { r' with piece := none }.pieces < r.pieces := by
  obtain ⟨buf, lhpos, pos, piece⟩ := r
  cases buf with
  | none => exact .inl ⟨rfl, rfl⟩
  | some buf =>
    have hordered := hr.ordered buf rfl
    cases piece with
    | some p =>
      refine .inr ⟨p, _, rfl, ?_, rfl, rfl, rfl, ⟨?_, by simp⟩, ?_⟩
      · intro hp
        exact hr.piece (congrArg some hp)
      · intro buf' hbuf'
        exact hr.ordered buf' hbuf'
      · simp [pieces]
    | none =>
      cases hhead : buf.lheads[lhpos]? with
      | some head =>
        have hlt : lhpos < buf.lheads.length := (List.getElem?_eq_some_iff.mp hhead).1
        have hdrop : buf.lheads.drop lhpos = head :: buf.lheads.drop (lhpos + 1) := by
          rw [List.drop_eq_getElem_cons hlt, (List.getElem?_eq_some_iff.mp hhead).2]
        simp only [hdrop] at hordered
        have hslice := slice_before hordered.1 hordered.2
        have hend := hordered.2.le
        by_cases hbefore : pos < head.offset
        · refine .inr ⟨(buf.str.drop pos).take (head.offset - pos),
            ⟨some buf, lhpos, head.offset, none⟩,
            ?_, ?_, rfl, rfl, ?_, ⟨?_, by simp⟩, ?_⟩
          · simp only [next, hhead, if_pos hbefore, hslice, Option.map_some]
          · rw [Ne, ← List.length_eq_zero_iff, List.length_take, List.length_drop]
            omega
          · simp [left, hdrop, weave]
          · rintro _ ⟨⟩
            rw [hdrop]
            exact ⟨Nat.le_refl _, hordered.2⟩
          · simp only [pieces, Option.elim_some, Option.isSome_none]
            omega
        · have heq : pos = head.offset := Nat.le_antisymm hordered.1 (by omega)
          refine .inr ⟨listHeader head.size, ⟨some buf, lhpos + 1, pos, none⟩,
            ?_, listHeader_ne_nil _, rfl, rfl, ?_, ⟨?_, by simp⟩, ?_⟩
          · simp only [next, hhead, if_neg hbefore]
          · simp [left, hdrop, weave, heq]
          · rintro _ ⟨⟩
            rw [heq]
            exact hordered.2
          · simp only [pieces, Option.elim_some, Option.isSome_none]
            omega
      | none =>
        have hdrop : buf.lheads.drop lhpos = [] :=
          List.drop_of_length_le (List.getElem?_eq_none_iff.mp hhead)
        by_cases hmore : pos < buf.str.length
        · refine .inr ⟨buf.str.drop pos, ⟨some buf, lhpos, buf.str.length, none⟩,
            ?_, ?_, rfl, rfl, ?_, ⟨?_, by simp⟩, ?_⟩
          · simp only [next, hhead, if_pos hmore]
          · rw [Ne, ← List.length_eq_zero_iff, List.length_drop]
            omega
          · simp [left, hdrop, weave]
          · rintro _ ⟨⟩
            rw [hdrop]
            exact Nat.le_refl _
          · simp only [pieces, Option.elim_some, Option.isSome_none]
            omega
        · refine .inl ⟨?_, ?_⟩
          · simp only [next, hhead, if_neg hmore]
          · simp only [left, Option.elim_some, Option.getD_none, List.nil_append, hdrop, weave]
            exact List.drop_of_length_le (by omega)

/-- Reading into a slice gives the first of the bytes that are left, and whether they ended there. -/
theorem readLoop_spec (length fuel : Nat) {r : EncReader} (hr : r.Ready) (hfuel : r.pieces < fuel)
    {out : Bytes} (hout : out.length ≤ length) :
    ∃ r', readLoop length fuel r out =
        some (out ++ r.left.take (length - out.length),
          decide (r.left.length ≤ length - out.length), r') ∧
      r'.Ready ∧ r'.left = r.left.drop (length - out.length) := by
  induction fuel generalizing r out with
  | zero => exact absurd hfuel (Nat.not_lt_zero _)
  | succ fuel ih =>
    rcases next_spec hr with ⟨hnext, hleft⟩ | ⟨p, r', hnext, hp, hbuf, hsome, hleft, hready, hless⟩
    · refine ⟨{ r with buf := none, piece := none }, ?_, ⟨?_, by simp⟩, ?_⟩
      · simp [readLoop, hnext, hleft]
      · intro buf hnone
        cases hnone
      · rw [hleft]
        simp [left]
    · have hpos : 0 < p.length := List.length_pos_iff.mpr hp
      have hcopied : (EncBuf.copyTo length out p).length - out.length =
          min (length - out.length) p.length := by
        rw [EncBuf.copyTo, List.length_append, List.length_take]
        omega
      by_cases hfits : p.length ≤ length - out.length
      · -- the whole piece is read
        have hcopy : EncBuf.copyTo length out p = out ++ p := copyTo_eq (by omega)
        have hgrown : length - (out ++ p).length = length - out.length - p.length := by
          rw [List.length_append]
          omega
        obtain ⟨r'', hloop, hready', hleft'⟩ := ih hready (by omega) (show (out ++ p).length ≤ length by
          rw [List.length_append]
          omega)
        rw [hgrown] at hloop hleft'
        refine ⟨r'', ?_, hready', ?_⟩
        · simp only [readLoop, hnext, Option.bind_some, hcopied]
          rw [if_neg (by omega), hcopy, hloop, hleft, List.take_append, List.take_of_length_le hfits,
            List.length_append, List.append_assoc]
          congr 3
          rw [decide_eq_decide]
          omega
        · rw [hleft', hleft, List.drop_append, List.drop_of_length_le hfits, List.nil_append]
      · -- the rest of the piece stays for the next call
        have hmin : min (length - out.length) p.length = length - out.length := by omega
        refine ⟨{ r' with piece := some (p.drop (length - out.length)) }, ?_, ⟨hready.ordered, ?_⟩, ?_⟩
        · simp only [readLoop, hnext, Option.bind_some, hcopied, hmin]
          rw [if_pos (by omega), EncBuf.copyTo, hleft, List.take_append_of_le_length (by omega),
            List.length_append]
          congr 3
          rw [eq_comm, decide_eq_false_iff_not]
          omega
        · intro hnil
          have hlength := congrArg List.length (Option.some.inj hnil)
          rw [List.length_drop, List.length_nil] at hlength
          omega
        · obtain ⟨buf, hbuf'⟩ := Option.isSome_iff_exists.mp hsome
          rw [hleft, List.drop_append_of_le_length (by omega)]
          simp [left, hbuf']

theorem read_spec {r : EncReader} (hr : r.Ready) (length : Nat) :
    ∃ r', r.read length = some (r.left.take length, decide (r.left.length ≤ length), r') ∧
      r'.Ready ∧ r'.left = r.left.drop length :=
  readLoop_spec length r.work hr r.pieces_lt_work (Nat.zero_le _)

/-- Calls of `Read` with slices of the given lengths, one after the other. -/
def reads : EncReader → List Nat → Option (List (Bytes × Bool))
  | _, [] => some []
  | r, length :: lengths =>
    (r.read length).bind fun (out, eof, r') => (r'.reads lengths).map ((out, eof) :: ·)

end EncReader

/-- What such calls give on a stream of bytes: the next ones, and whether they were all. -/
def streamed : Bytes → List Nat → List (Bytes × Bool)
  | _, [] => []
  | b, length :: lengths =>
    (b.take length, decide (b.length ≤ length)) :: streamed (b.drop length) lengths

theorem EncReader.reads_eq {r : EncReader} (hr : r.Ready) (lengths : List Nat) :
    r.reads lengths = some (streamed r.left lengths) := by
  induction lengths generalizing r with
  | nil => rfl
  | cons length lengths ih =>
    obtain ⟨r', hread, hr', hleft⟩ := read_spec hr length
    simp only [reads, hread, Option.bind_some, ih hr', hleft, Option.map_some, streamed]

/-! ## The functions of the package -/

theorem buffer_error {v : Value} (h : v.encoding = none) : buffer v = .error .negativeBigInt := by
  rw [buffer, write_none v .new h]

theorem buffer_ok {v : Value} {b : Bytes} (h : v.encoding = some b) (hb : b.length < 2^64) :
    ∃ us, buffer v = .ok (.ofTokens us) ∧ Writes us b := by
  obtain ⟨_, hwrite, us, rfl, hus⟩ := write_some v [] b h hb
  refine ⟨us, ?_, hus⟩
  rw [buffer, show EncBuf.new = .ofTokens [] by rfl, hwrite]
  rfl

theorem encodeToBytes_ok {v : Value} {b : Bytes} (h : v.encoding = some b) (hb : b.length < 2^64) :
    encodeToBytes v = .ok b := by
  obtain ⟨us, hbuffer, hus⟩ := buffer_ok h hb
  rw [encodeToBytes, hbuffer, Result.ok_bind, toBytes_ofTokens hus]
  rfl

/-- There is a negative integer in the value. -/
inductive Value.HasNegative : Value → Prop
  | bigInt {i : Int} (neg : i < 0) : HasNegative (.bigInt i)
  | list {vs : List Value} {v : Value} (mem : v ∈ vs) (neg : HasNegative v) : HasNegative (.list vs)

theorem encodings_eq_none_iff {vs : List Value} :
    encodings vs = none ↔ ∃ v ∈ vs, v.encoding = none := by
  induction vs with
  | nil => simp [encodings]
  | cons v vs ih =>
    simp only [List.mem_cons, exists_eq_or_imp, ← ih, encodings]
    cases v.encoding with
    | none => simp
    | some b => simp

theorem Value.encoding_eq_none_iff (v : Value) : v.encoding = none ↔ v.HasNegative := by
  induction v using Value.induct with
  | leaf v hleaf =>
    constructor
    · intro h
      cases v with
      | bigInt i =>
        rw [Value.encoding] at h
        split_ifs at h with hneg
        exact .bigInt hneg
      | list vs => exact absurd rfl (hleaf vs)
      | _ => simp [Value.encoding] at h
    · intro h
      cases h with
      | bigInt neg => rw [Value.encoding, if_pos neg]
      | @list vs _ _ _ => exact absurd rfl (hleaf vs)
  | list vs ih =>
    rw [Value.encoding, Option.map_eq_none_iff, encodings_eq_none_iff]
    constructor
    · rintro ⟨v, hv, hnone⟩
      exact .list hv ((ih v hv).mp hnone)
    · intro h
      cases h with
      | list hv neg => exact ⟨_, hv, (ih _ hv).mpr neg⟩

/-- Encoding fails exactly for values with a negative integer in them. All others have one encoding,
which is what the three ways out give: the bytes, what is written in pieces, and what is read in
slices of whatever lengths; and the size that goes with the reader is its length. -/
theorem encodeToBytes_exact (v : Value) :
    (v.encoding = none ↔ v.HasNegative) ∧
    (v.encoding = none → encodeToBytes v = .error .negativeBigInt ∧ encode v = .error .negativeBigInt ∧
      encodeToReader v = .error .negativeBigInt) ∧
    ∀ b, v.encoding = some b → b.length < 2^64 →
      encodeToBytes v = .ok b ∧ (∃ pieces, encode v = .ok pieces ∧ pieces.flatten = b) ∧
      ∃ r, encodeToReader v = .ok (b.length, r) ∧
        ∀ lengths, r.reads lengths = some (streamed b lengths) := by
  refine ⟨v.encoding_eq_none_iff, ?_, ?_⟩
  · intro h
    simp only [encodeToBytes, encode, encodeToReader, buffer_error h]
    exact ⟨rfl, rfl, rfl⟩
  · intro b h hb
    obtain ⟨us, hbuffer, hus⟩ := buffer_ok h hb
    obtain ⟨pieces, hpieces, hflatten⟩ := toWriter_ofTokens hus
    have hready : (⟨some (.ofTokens us), 0, 0, none⟩ : EncReader).Ready := by
      refine ⟨?_, by simp⟩
      intro buf hbuf
      cases hbuf
      exact ordered_ofTokens us
    have hleft : (⟨some (.ofTokens us), 0, 0, none⟩ : EncReader).left = b := weave_ofTokens hus
    refine ⟨encodeToBytes_ok h hb, ⟨pieces, ?_, hflatten⟩, ⟨some (.ofTokens us), 0, 0, none⟩, ?_, ?_⟩
    · rw [encode, hbuffer, Result.ok_bind, hpieces]
      rfl
    · rw [encodeToReader, hbuffer, Result.ok_bind, size_ofTokens hus]
    · intro lengths
      rw [EncReader.reads_eq hready, hleft]

/-- The list of `"cat"`, the number 1024 and a list with an empty string. -/
def catList : Value := .list [.bytes [0x63, 0x61, 0x74], .uint 1024, .list [.nilBytes]]

theorem encodeToBytes_exact_catList :
    ∃ b, catList.encoding = some b ∧ b = [0xC9, 0x83, 0x63, 0x61, 0x74, 0x82, 0x04, 0x00, 0xC1, 0x80] ∧
      encodeToBytes catList = .ok b :=
  ⟨_, rfl, by decide +kernel, ((encodeToBytes_exact catList).2.2 _ rfl (by decide +kernel)).1⟩

end MiniEvm.Rlp
