import MiniEvm.Rlp.Raw
import MiniEvm.Safety.RlpEncoding
import MiniEvm.Vm.Evm

namespace MiniEvm.Rlp

open Math Framework

/-! ## Sizes -/

/-- Without leading zeros a number is not less than its length says. -/
theorem le_ofBytes {b : UInt8} (hb : b ≠ 0) (bs : Bytes) : 256 ^ bs.length ≤ ofBytes (b :: bs) := by
  induction bs using List.reverseRecOn with
  | nil =>
    have hpos : b.toNat ≠ 0 := by
      intro h0
      exact hb (UInt8.toNat_inj.mp h0)
    simp only [List.length_nil, Nat.pow_zero, ofBytes, List.foldl]
    omega
  | append_singleton bs c ih =>
    rw [← List.cons_append, ofBytes_append_singleton, List.length_append, List.length_singleton,
      Nat.pow_succ]
    omega

/-- The bytes of a size are those that are written for it, if they have no leading zeros. -/
theorem putint_ofBytes {b : UInt8} {bs : Bytes} (hb : b ≠ 0) (hlength : bs.length < 8) :
    putint (ofBytes (b :: bs)) = b :: bs := by
  have hlt := ofBytes_lt (b :: bs)
  have hpow : 256 ^ (b :: bs).length ≤ 256 ^ 8 := Nat.pow_le_pow_right (by decide) hlength
  rw [putint_eq (by omega), intsize_eq (le_ofBytes hb bs) hlt]
  exact toBytes_ofBytes (b :: bs)

theorem putint_ne_zero {n : Nat} (hn : 0 < n) (h : n < 2^64) {bs : Bytes} : putint n ≠ 0 :: bs := by
  intro heq
  obtain ⟨-, -, hle⟩ := intsize_spec n
  have hlength := putint_length h
  have hvalue : ofBytes (putint n) = n := by
    rw [putint_eq h, ofBytes_toBytes, Nat.mod_eq_of_lt (intsize_spec n).2.1]
  have hzero : ofBytes (0 :: bs) = ofBytes bs := rfl
  rw [heq] at hlength hvalue
  rw [hzero] at hvalue
  have hlt := ofBytes_lt bs
  have hlow := hle hn
  rw [← hlength, List.length_cons, Nat.add_sub_cancel] at hlow
  omega

theorem readSize_eq_ok {buf : Bytes} {slen n : Nat} (hpos : 0 < slen) (hslen : slen ≤ 8) :
    readSize buf slen = .ok n ↔ 56 ≤ n ∧ n < 2^64 ∧ (putint n).length = slen ∧ putint n <+: buf := by
  dsimp only [readSize]
  constructor
  · intro h
    split_ifs at h with hlong hcanon
    cases h
    cases buf with
    | nil => exact absurd hpos hlong
    | cons b buf =>
      obtain ⟨k, rfl⟩ : ∃ k, slen = k + 1 := ⟨slen - 1, by omega⟩
      have hb : b ≠ 0 := by
        rintro rfl
        exact hcanon (.inr rfl)
      have hk : (buf.take k).length = k := by
        rw [List.length_take]
        rw [List.length_cons] at hlong
        omega
      have hput := putint_ofBytes hb (show (buf.take k).length < 8 by omega)
      have hlt := ofBytes_lt (b :: buf.take k)
      have hpow : 256 ^ (b :: buf.take k).length ≤ 256 ^ 8 :=
        Nat.pow_le_pow_right (by decide) (by rw [List.length_cons]; omega)
      rw [List.take_succ_cons] at hcanon ⊢
      refine ⟨by omega, by omega, ?_, ?_⟩
      · rw [hput, List.length_cons, hk]
      · rw [hput]
        exact List.cons_prefix_cons.mpr ⟨rfl, List.take_prefix k buf⟩
  · rintro ⟨hbig, hn, rfl, rest, rfl⟩
    have hvalue : ofBytes (putint n) = n := by
      rw [putint_eq hn, ofBytes_toBytes, Nat.mod_eq_of_lt (intsize_spec n).2.1]
    have hhead : (putint n ++ rest).head? ≠ some 0 := by
      cases hput : putint n with
      | nil =>
        rw [hput] at hpos
        exact absurd hpos (Nat.lt_irrefl _)
      | cons b bs =>
        intro hzero
        cases hzero
        exact putint_ne_zero (by omega) hn hput
    rw [List.take_left, hvalue, if_neg (by rw [List.length_append]; omega), if_neg]
    rintro (hsmall | hzero)
    · omega
    · exact hhead hzero

/-! ## Tags -/

/-- The input `b :: buf` starts with a tag, as the encoder writes it, for a content of the given
size. -/
inductive Starts (b : UInt8) (buf : Bytes) : Kind → Nat → Nat → Prop
  | byte (h : b < 0x80) : Starts b buf .byte 0 1
  | string {tag : Bytes} {n : Nat} (htag : puthead 0x80 0xB7 n = tag) (hn : n < 2^64)
    (h : tag <+: b :: buf)
    (hfits : n = 1 → buf.head?.any (· < 128) = false) : Starts b buf .string tag.length n
  | list {tag : Bytes} {n : Nat} (htag : listHeader n = tag) (hn : n < 2^64) (h : tag <+: b :: buf) :
    Starts b buf .list tag.length n

theorem puthead_small {small large : UInt8} {n : Nat} (h : n < 56) :
    puthead small large n = [small + UInt8.ofNat n] := if_pos h

theorem puthead_large {small large : UInt8} {n : Nat} (h : 56 ≤ n) :
    puthead small large n = (large + UInt8.ofNat (putint n).length) :: putint n := if_neg (by omega)

/-- A tag of one byte, by the offset of the byte. -/
theorem puthead_eq_singleton {small large b : UInt8} (h : (b - small).toNat < 56) :
    puthead small large (b - small).toNat = [b] := by
  rw [puthead_small h, UInt8.ofNat_toNat, add_sub_cancel]

/-- A tag with a size behind its byte, whose offset is the length of the size. -/
theorem puthead_eq_cons {small large b : UInt8} {n : Nat} (h : 56 ≤ n)
    (hlength : (putint n).length = (b - large).toNat) : puthead small large n = b :: putint n := by
  rw [puthead_large h, hlength, UInt8.ofNat_toNat, add_sub_cancel]

theorem toNat_add_ofNat {a : UInt8} {n : Nat} (h : a.toNat + n < 256) :
    (a + UInt8.ofNat n).toNat = a.toNat + n := by
  rw [UInt8.toNat_add, UInt8.toNat_ofNat']
  omega

theorem offset_add_ofNat {a : UInt8} {n : Nat} (h : n < 256) : (a + UInt8.ofNat n - a).toNat = n := by
  rw [add_sub_cancel_left, UInt8.toNat_ofNat', Nat.mod_eq_of_lt h]

theorem putint_length_pos {n : Nat} (h : n < 2^64) : 0 < (putint n).length := by
  rw [putint_length h]
  exact (intsize_spec n).1

/-- The offset of a byte that is in the range of a tag. -/
theorem offset_bounds {lo hi a b : UInt8} (ha : a ≤ lo) (hlo : ¬ b < lo) (hhi : b < hi) :
    lo.toNat - a.toNat ≤ (b - a).toNat ∧ (b - a).toNat < hi.toNat - a.toNat := by
  have hle : lo ≤ b := UInt8.not_lt.mp hlo
  have hoffset : (b - a).toNat = b.toNat - a.toNat := UInt8.toNat_sub_of_le _ _ (UInt8.le_trans ha hle)
  rw [UInt8.le_iff_toNat_le] at ha hle
  rw [UInt8.lt_iff_toNat_lt] at hhi
  omega

theorem readTag_starts {k : Kind} {ts cs : Nat} {b : UInt8} {buf : Bytes}
    (h : readTag b buf = .ok (k, ts, cs)) : Starts b buf k ts cs := by
  unfold readTag at h
  split_ifs at h with h80 hB8 hcanon hC0 hF8
  · cases h
    exact .byte h80
  · cases h
    have hsmall : (b - 0x80).toNat < 56 := (offset_bounds (UInt8.le_refl _) h80 hB8).2
    refine .string (puthead_eq_singleton hsmall) (by omega) ⟨buf, rfl⟩ ?_
    intro hone
    by_contra hless
    exact hcanon ⟨hone, by simpa using hless⟩
  · obtain ⟨size, hsize, h⟩ := Result.bind_eq_ok.mp h
    cases h
    have hbounds := offset_bounds (show (0xB7 : UInt8) ≤ 0xB8 by decide) hB8 hC0
    obtain ⟨hbig, hlt, hlength, hput⟩ := (readSize_eq_ok hbounds.1 (Nat.le_of_lt_succ hbounds.2)).mp hsize
    rw [← hlength]
    exact .string (puthead_eq_cons hbig hlength) hlt (List.cons_prefix_cons.mpr ⟨rfl, hput⟩) (by omega)
  · cases h
    have hsmall : (b - 0xC0).toNat < 56 := (offset_bounds (UInt8.le_refl _) hC0 hF8).2
    exact .list (puthead_eq_singleton hsmall) (by omega) ⟨buf, rfl⟩
  · obtain ⟨size, hsize, h⟩ := Result.bind_eq_ok.mp h
    cases h
    have hle : (0xF8 : UInt8) ≤ b := UInt8.not_lt.mp hF8
    have hoffset : (b - 0xF7).toNat = b.toNat - 0xF7 :=
      UInt8.toNat_sub_of_le _ _ (UInt8.le_trans (by decide) hle)
    have hlow : 0xF8 ≤ b.toNat := UInt8.le_iff_toNat_le.mp hle
    have hhigh := b.toNat_lt
    obtain ⟨hbig, hlt, hlength, hput⟩ := (readSize_eq_ok (by omega) (by omega)).mp hsize
    rw [← hlength]
    exact .list (puthead_eq_cons hbig hlength) hlt (List.cons_prefix_cons.mpr ⟨rfl, hput⟩)

/-- The first byte of a tag, and the size behind it. -/
theorem puthead_prefix {small large b : UInt8} {buf : Bytes} {n : Nat} (hn : n < 2^64)
    (hsmall : small.toNat + 56 ≤ 256) (hlarge : large.toNat + 8 < 256)
    (h : puthead small large n <+: b :: buf) :
    (n < 56 ∧ b.toNat = small.toNat + n ∧ (b - small).toNat = n) ∨
      ∃ slen, b.toNat = large.toNat + slen ∧ (b - large).toNat = slen ∧ 0 < slen ∧ slen ≤ 8 ∧
        (putint n).length = slen ∧ 56 ≤ n ∧ readSize buf slen = .ok n := by
  by_cases hshort : n < 56
  · rw [puthead_small hshort] at h
    obtain ⟨rfl, -⟩ := List.cons_prefix_cons.mp h
    exact .inl ⟨hshort, toNat_add_ofNat (by omega), offset_add_ofNat (by omega)⟩
  · have hpos := putint_length_pos hn
    have hle := putint_length_le n
    rw [puthead_large (by omega)] at h
    obtain ⟨rfl, hput⟩ := List.cons_prefix_cons.mp h
    refine .inr ⟨(putint n).length, toNat_add_ofNat (by omega), offset_add_ofNat (by omega), hpos, hle,
      rfl, by omega, ?_⟩
    exact (readSize_eq_ok hpos hle).mpr ⟨by omega, hn, rfl, hput⟩

theorem puthead_length_small {small large : UInt8} {n : Nat} (h : n < 56) :
    (puthead small large n).length = 1 := by
  rw [puthead_small h]
  rfl

theorem byte_lt_iff {b c : UInt8} {n : Nat} (hb : b.toNat = n) : b < c ↔ n < c.toNat := by
  rw [UInt8.lt_iff_toNat_lt, hb]

theorem readTag_eq_ok {k : Kind} {ts cs : Nat} {b : UInt8} {buf : Bytes} :
    readTag b buf = .ok (k, ts, cs) ↔ Starts b buf k ts cs := by
  refine ⟨readTag_starts, ?_⟩
  intro h
  unfold readTag
  cases h with
  | byte h => rw [if_pos h]
  | string htag hn h hfits =>
    subst htag
    rcases puthead_prefix hn (by decide) (by decide) h with
      ⟨hshort, hb, hoffset⟩ | ⟨slen, hb, hoffset, hpos, hle, hlength, hbig, hsize⟩
    · simp only [byte_lt_iff hb, UInt8.reduceToNat]
      rw [if_neg (by omega), if_pos (by omega), hoffset, puthead_length_small hshort, if_neg]
      rintro ⟨hone, hless⟩
      rw [hfits hone] at hless
      cases hless
    · simp only [byte_lt_iff hb, UInt8.reduceToNat]
      rw [if_neg (by omega), if_neg (by omega), if_pos (by omega), hoffset, hsize, puthead_large hbig,
        List.length_cons, hlength]
      rfl
  | list htag hn h =>
    subst htag
    rcases puthead_prefix hn (by decide) (by decide) h with
      ⟨hshort, hb, hoffset⟩ | ⟨slen, hb, hoffset, hpos, hle, hlength, hbig, hsize⟩
    · simp only [byte_lt_iff hb, UInt8.reduceToNat]
      rw [if_neg (by omega), if_neg (by omega), if_neg (by omega), if_pos (by omega), hoffset,
        listHeader,
        puthead_length_small hshort]
    · simp only [byte_lt_iff hb, UInt8.reduceToNat]
      rw [if_neg (by omega), if_neg (by omega), if_neg (by omega), if_neg (by omega), hoffset, hsize,
        listHeader, puthead_large hbig, List.length_cons, hlength]
      rfl

/-! ## Values -/

/-- The tag in front of a content, as the encoder puts it there. -/
inductive Tagged : Kind → Bytes → Bytes → Prop
  | byte (c : UInt8) (h : c < 0x80) : Tagged .byte [] [c]
  | string (b : Bytes) (h : fitsByte b = false) : Tagged .string (puthead 0x80 0xB7 b.length) b
  | list (b : Bytes) : Tagged .list (listHeader b.length) b

theorem Tagged.ne_nil {k : Kind} {tag content : Bytes} (h : Tagged k tag content) :
    tag ++ content ≠ [] := by
  cases h with
  | byte c h => simp
  | string b h =>
    unfold puthead
    split_ifs <;> simp
  | list b =>
    unfold listHeader puthead
    split_ifs <;> simp

theorem fitsByte_of_length {b : Bytes} (h : b.length ≠ 1) : fitsByte b = false := by
  cases b with
  | nil => rfl
  | cons c b =>
    cases b with
    | nil => exact absurd rfl h
    | cons d b => rfl

theorem head_any_lt {content : Bytes} (h : content.length = 1) (rest : Bytes) :
    (content ++ rest).head?.any (· < 128) = fitsByte content := by
  obtain ⟨c, rfl⟩ := List.length_eq_one_iff.mp h
  simp only [List.cons_append, List.head?_cons, Option.any_some, fitsByte, decide_eq_decide,
    UInt8.lt_iff_toNat_lt, UInt8.le_iff_toNat_le, UInt8.reduceToNat]
  omega

/-- A string of one byte is right behind the first byte of the input. -/
theorem fitsByte_eq_head {b : UInt8} {buf t content rest : Bytes}
    (h : b :: buf = puthead 0x80 0xB7 1 ++ t)
    (hcontent : content.length = 1) (ht : t = content ++ rest) :
    buf.head?.any (· < 128) = fitsByte content := by
  obtain ⟨-, rfl⟩ := List.cons.inj h
  rw [ht, head_any_lt hcontent]

theorem Starts.tagged {b : UInt8} {buf : Bytes} {k : Kind} {ts cs : Nat} (h : Starts b buf k ts cs)
    (hcs : cs ≤ (b :: buf).length - ts) :
    ∃ tag content rest, Tagged k tag content ∧ b :: buf = tag ++ content ++ rest ∧ ts = tag.length ∧
      cs = content.length := by
  cases h with
  | byte h => exact ⟨[], [b], buf, .byte b h, rfl, rfl, rfl⟩
  | @string tag _ htag hn h hfits =>
    obtain ⟨t, ht⟩ := h
    have hlength : (t.take cs).length = cs := by
      rw [← ht, List.length_append, Nat.add_sub_cancel_left] at hcs
      rw [List.length_take, Nat.min_eq_left hcs]
    have htagged : fitsByte (t.take cs) = false →
        Tagged .string (puthead 0x80 0xB7 cs) (t.take cs) := by
      intro hnot
      have hstring := Tagged.string _ hnot
      rwa [hlength] at hstring
    refine ⟨tag, t.take cs, t.drop cs, htag ▸ htagged ?_, ?_, rfl, hlength.symm⟩
    · by_cases hone : cs = 1
      · subst hone
        rw [← htag] at ht
        rw [← fitsByte_eq_head ht.symm hlength (List.take_append_drop 1 t).symm]
        exact hfits rfl
      · exact fitsByte_of_length (by rw [hlength]; exact hone)
    · rw [List.append_assoc, List.take_append_drop, ht]
  | @list tag _ htag hn h =>
    obtain ⟨t, ht⟩ := h
    have hlength : (t.take cs).length = cs := by
      rw [← ht, List.length_append, Nat.add_sub_cancel_left] at hcs
      rw [List.length_take, Nat.min_eq_left hcs]
    have htagged := Tagged.list (t.take cs)
    rw [hlength, htag] at htagged
    refine ⟨tag, t.take cs, t.drop cs, htagged, ?_, rfl, hlength.symm⟩
    rw [List.append_assoc, List.take_append_drop, ht]

theorem Tagged.starts {k : Kind} {tag content rest : Bytes} (h : Tagged k tag content) {b : UInt8}
    {buf : Bytes}
    (hbuf : b :: buf = tag ++ content ++ rest) (hlength : content.length < 2^64) :
    Starts b buf k tag.length content.length := by
  rw [List.append_assoc] at hbuf
  cases h with
  | byte c h =>
    obtain ⟨rfl, -⟩ := List.cons.inj hbuf
    exact .byte h
  | string _ h =>
    refine .string rfl hlength ⟨_, hbuf.symm⟩ ?_
    intro hone
    rw [hone] at hbuf
    rw [fitsByte_eq_head hbuf hone rfl]
    exact h
  | list _ => exact .list rfl hlength ⟨_, hbuf.symm⟩

/-- What `readKind` accepts: a value that the encoder could have written. -/
theorem readKind_eq_ok {k : Kind} {ts cs : Nat} {buf : Bytes} (hbuf : buf.length < 2^64) :
    readKind buf = .ok (k, ts, cs) ↔
      ∃ tag content rest, Tagged k tag content ∧ buf = tag ++ content ++ rest ∧ ts = tag.length ∧
        cs = content.length := by
  cases buf with
  | nil =>
    constructor
    · intro h
      cases h
    · rintro ⟨tag, content, rest, htag, heq, -⟩
      exact absurd (List.append_eq_nil_iff.mp heq.symm).1 htag.ne_nil
  | cons b buf =>
    rw [readKind, Result.bind_eq_ok]
    constructor
    · rintro ⟨⟨k', ts', cs'⟩, htag, h⟩
      dsimp only at h
      split_ifs at h with hlarge
      cases h
      exact (readTag_eq_ok.mp htag).tagged (by omega)
    · rintro ⟨tag, content, rest, htag, heq, rfl, rfl⟩
      rw [heq, List.length_append, List.length_append] at hbuf
      refine ⟨_, readTag_eq_ok.mpr (htag.starts heq (by omega)), ?_⟩
      dsimp only
      rw [heq, if_neg]
      simp only [List.length_append]
      omega

theorem slice_content (tag content rest : Bytes) :
    slice (tag ++ content ++ rest) tag.length (tag.length + content.length) = some content :=
  slice_eq_some.mpr ⟨by omega, by simp, by simp⟩

theorem slice_rest (tag content rest : Bytes) :
    slice (tag ++ content ++ rest) (tag.length + content.length) (tag ++ content ++ rest).length =
      some rest := by
  refine slice_eq_some.mpr ⟨by simp, Nat.le_refl _, ?_⟩
  rw [← List.length_append, List.drop_left, List.take_of_length_le]
  simp only [List.length_append]
  omega

theorem split_of_readKind {k : Kind} {tag content rest : Bytes}
    (h : readKind (tag ++ content ++ rest) = .ok (k, tag.length, content.length)) :
    split (tag ++ content ++ rest) = .ok (k, content, rest) := by
  simp only [split, h, Result.ok_bind, slice_content, slice_rest, Result.ofOption_some]

/-- Taking a value apart undoes the encoding, and nothing else is taken apart. -/
theorem split_eq_ok {b : Bytes} (hb : b.length < 2^64) {k : Kind} {content rest : Bytes} :
    split b = .ok (k, content, rest) ↔ ∃ tag, Tagged k tag content ∧ b = tag ++ content ++ rest := by
  constructor
  · intro h
    obtain ⟨⟨k', ts, cs⟩, hkind, -⟩ := Result.bind_eq_ok.mp h
    obtain ⟨tag, content', rest', htag, rfl, rfl, rfl⟩ := (readKind_eq_ok hb).mp hkind
    rw [split_of_readKind hkind] at h
    cases h
    exact ⟨tag, htag, rfl⟩
  · rintro ⟨tag, htag, rfl⟩
    exact split_of_readKind ((readKind_eq_ok hb).mpr ⟨tag, content, rest, htag, rfl, rfl, rfl⟩)

theorem readSize_ne_panic (buf : Bytes) (slen : Nat) : readSize buf slen ≠ .panic := by
  unfold readSize
  dsimp only
  split_ifs <;> simp

theorem readKind_ne_panic (buf : Bytes) : readKind buf ≠ .panic := by
  have sized : ∀ {k : Kind} {slen : Nat} {buf : Bytes},
      (readSize buf slen >>= fun size => .ok (k, slen + 1, size)) ≠ .panic := by
    intro k slen buf
    cases h : readSize buf slen with
    | ok size => simp
    | error e => simp
    | panic => exact absurd h (readSize_ne_panic buf slen)
  cases buf with
  | nil => simp [readKind]
  | cons b buf =>
    have htag : readTag b buf ≠ .panic := by
      unfold readTag
      split_ifs <;> first | exact sized | simp
    rw [readKind]
    cases h : readTag b buf with
    | ok x =>
      rw [Result.ok_bind]
      dsimp only
      split_ifs <;> simp
    | error e => simp
    | panic => exact absurd h htag

/-- The bounds of the slices are those of the value that `readKind` has accepted. -/
theorem split_ne_panic {b : Bytes} (hb : b.length < 2^64) : split b ≠ .panic := by
  cases h : readKind b with
  | ok x =>
    obtain ⟨k, ts, cs⟩ := x
    obtain ⟨tag, content, rest, -, rfl, rfl, rfl⟩ := (readKind_eq_ok hb).mp h
    rw [split_of_readKind h]
    simp
  | error e => simp [split, h]
  | panic => exact absurd h (readKind_ne_panic b)

theorem splitString_ne_panic {b : Bytes} (hb : b.length < 2^64) : splitString b ≠ .panic := by
  refine Result.bind_ne_panic (split_ne_panic hb) ?_
  intro x
  dsimp only
  split_ifs <;> simp

theorem splitList_ne_panic {b : Bytes} (hb : b.length < 2^64) : splitList b ≠ .panic := by
  refine Result.bind_ne_panic (split_ne_panic hb) ?_
  intro x
  dsimp only
  split_ifs <;> simp

theorem splitString_eq_ok {b : Bytes} (hb : b.length < 2^64) {content rest : Bytes} :
    splitString b = .ok (content, rest) ↔
      ∃ k tag, k ≠ .list ∧ Tagged k tag content ∧ b = tag ++ content ++ rest := by
  rw [splitString, Result.bind_eq_ok]
  constructor
  · rintro ⟨⟨k, content', rest'⟩, hsplit, h⟩
    dsimp only at h
    split_ifs at h with hk
    cases h
    obtain ⟨tag, htag, heq⟩ := (split_eq_ok hb).mp hsplit
    exact ⟨k, tag, hk, htag, heq⟩
  · rintro ⟨k, tag, hk, htag, heq⟩
    exact ⟨(k, content, rest), (split_eq_ok hb).mpr ⟨tag, htag, heq⟩, if_neg hk⟩

theorem splitList_eq_ok {b : Bytes} (hb : b.length < 2^64) {content rest : Bytes} :
    splitList b = .ok (content, rest) ↔
      ∃ tag, Tagged .list tag content ∧ b = tag ++ content ++ rest := by
  rw [splitList, Result.bind_eq_ok]
  constructor
  · rintro ⟨⟨k, content', rest'⟩, hsplit, h⟩
    dsimp only at h
    split_ifs at h with hk
    cases h
    rw [not_not.mp hk] at hsplit
    exact (split_eq_ok hb).mp hsplit
  · intro h
    exact ⟨(.list, content, rest), (split_eq_ok hb).mpr h, if_neg (by simp)⟩

/-- The bytes are one value of whatever kind. -/
def IsValue (b : Bytes) : Prop := ∃ k tag content, Tagged k tag content ∧ b = tag ++ content

theorem IsValue.ne_nil {b : Bytes} (h : IsValue b) : b ≠ [] := by
  obtain ⟨k, tag, content, htag, rfl⟩ := h
  exact htag.ne_nil

theorem countValuesLoop_nil {rounds i n : Nat} :
    countValuesLoop rounds [] i = .ok n ↔
      ∃ vs : List Bytes, (∀ v ∈ vs, IsValue v) ∧ [] = vs.flatten ∧ n = i + vs.length := by
  have hempty : countValuesLoop rounds [] i = .ok i := by cases rounds <;> rfl
  rw [hempty]
  constructor
  · intro h
    cases h
    exact ⟨[], by simp, rfl, rfl⟩
  · rintro ⟨vs, hvs, hnil, rfl⟩
    cases vs with
    | nil => rfl
    | cons v vs =>
      have hv := (hvs v List.mem_cons_self).ne_nil
      exact absurd (List.append_eq_nil_iff.mp hnil.symm).1 hv

theorem countValuesLoop_cons {rounds : Nat} {k : Kind} {tag content rest : Bytes}
    (h : Tagged k tag content)
    (hb : (tag ++ content ++ rest).length < 2^64) (i : Nat) :
    countValuesLoop (rounds + 1) (tag ++ content ++ rest) i = countValuesLoop rounds rest (i + 1) := by
  have hkind := (readKind_eq_ok hb).mpr ⟨tag, content, rest, h, rfl, rfl, rfl⟩
  have hrest := slice_rest tag content rest
  cases hbuf : tag ++ content ++ rest with
  | nil => exact absurd (List.append_eq_nil_iff.mp hbuf).1 h.ne_nil
  | cons b buf =>
    rw [hbuf] at hkind hrest
    simp only [countValuesLoop, hkind, hrest, Result.ok_bind, Result.ofOption_some]

/-- Each round of the loop takes one value off. -/
theorem countValuesLoop_eq_ok {rounds : Nat} {b : Bytes} (hrounds : b.length ≤ rounds)
    (hb : b.length < 2^64)
    {i n : Nat} :
    countValuesLoop rounds b i = .ok n ↔
      ∃ vs : List Bytes, (∀ v ∈ vs, IsValue v) ∧ b = vs.flatten ∧ n = i + vs.length := by
  induction rounds generalizing b i with
  | zero =>
    obtain rfl := List.eq_nil_of_length_eq_zero (Nat.le_zero.mp hrounds)
    exact countValuesLoop_nil
  | succ rounds ih =>
    cases hbuf : b with
    | nil => exact countValuesLoop_nil
    | cons c buf =>
      rw [← hbuf]
      constructor
      · intro h
        have hloop := h
        rw [hbuf, countValuesLoop, ← hbuf] at hloop
        obtain ⟨⟨k, ts, cs⟩, hkind, -⟩ := Result.bind_eq_ok.mp hloop
        obtain ⟨tag, content, rest, htag, rfl, -, -⟩ := (readKind_eq_ok hb).mp hkind
        have hpos := List.length_pos_iff.mpr htag.ne_nil
        rw [List.length_append] at hrounds
        rw [countValuesLoop_cons htag hb, ih (by omega) (by rw [List.length_append] at hb; omega)] at h
        obtain ⟨vs, hvs, rfl, rfl⟩ := h
        refine ⟨(tag ++ content) :: vs, ?_, rfl, by rw [List.length_cons]; omega⟩
        exact List.forall_mem_cons.mpr ⟨⟨k, tag, content, htag, rfl⟩, hvs⟩
      · rintro ⟨vs, hvs, heq, rfl⟩
        cases vs with
        | nil =>
          rw [heq] at hbuf
          cases hbuf
        | cons v vs =>
          obtain ⟨⟨k, tag, content, htag, rfl⟩, hrest⟩ := List.forall_mem_cons.mp hvs
          rw [List.flatten_cons] at heq
          subst heq
          have hpos := List.length_pos_iff.mpr htag.ne_nil
          rw [countValuesLoop_cons htag hb]
          rw [List.length_append] at hrounds hb
          refine (ih (by omega) (by omega)).mpr ⟨vs, hrest, rfl, by rw [List.length_cons]; omega⟩

theorem countValuesLoop_ne_panic {rounds : Nat} {b : Bytes} (hrounds : b.length ≤ rounds)
    (hb : b.length < 2^64) (i : Nat) : countValuesLoop rounds b i ≠ .panic := by
  induction rounds generalizing b i with
  | zero =>
    obtain rfl := List.eq_nil_of_length_eq_zero (Nat.le_zero.mp hrounds)
    simp [countValuesLoop]
  | succ rounds ih =>
    cases hbuf : b with
    | nil => simp [countValuesLoop]
    | cons c buf =>
      rw [← hbuf]
      cases h : readKind b with
      | ok x =>
        obtain ⟨k, ts, cs⟩ := x
        obtain ⟨tag, content, rest, htag, rfl, -, -⟩ := (readKind_eq_ok hb).mp h
        have hpos := List.length_pos_iff.mpr htag.ne_nil
        rw [countValuesLoop_cons htag hb]
        rw [List.length_append] at hrounds hb
        exact ih (by omega) (by omega) _
      | error e =>
        rw [hbuf] at h ⊢
        simp [countValuesLoop, h]
      | panic => exact absurd h (readKind_ne_panic b)

/-! ## Items -/

/-- Induction over an item, with the items of a list at once. -/
theorem Item.induct {P : Item → Prop} (str : ∀ b, P (.str b))
    (list : ∀ items, (∀ item ∈ items, P item) → P (.list items)) (item : Item) : P item := by
  refine @Item.rec P (fun items => ∀ item ∈ items, P item) str list ?_ ?_ item
  · intro item hitem
    cases hitem
  · intro item items h hs item' hitem'
    rcases List.mem_cons.mp hitem' with rfl | hmem
    · exact h
    · exact hs item' hmem

/-- The content that the tag of an item is for. -/
def Item.content : Item → Bytes
  | .str b => b
  | .list items => encodeItems items

def Item.isList : Item → Bool
  | .str _ => false
  | .list _ => true

theorem Item.tagged (item : Item) :
    ∃ k tag, Tagged k tag item.content ∧ item.encode = tag ++ item.content ∧
    (k = .list ↔ item.isList = true) := by
  cases item with
  | list items => exact ⟨.list, _, .list _, by rw [Item.encode, Item.content], by simp [Item.isList]⟩
  | str b =>
    rw [Item.encode, encodeStr]
    split_ifs with hfits
    · cases b with
      | nil => cases hfits
      | cons c b =>
        cases b with
        | nil =>
          have hle : c.toNat ≤ 0x7F := UInt8.le_iff_toNat_le.mp (of_decide_eq_true hfits)
          refine ⟨.byte, [], .byte c (UInt8.lt_iff_toNat_lt.mpr ?_), rfl, by simp [Item.isList]⟩
          exact Nat.lt_succ_of_le hle
        | cons d b => cases hfits
    · exact ⟨.string, _, .string b (by simpa using hfits), rfl, by simp [Item.isList]⟩

theorem Tagged.unique {k k' : Kind} {tag tag' content content' rest rest' : Bytes}
    (h : Tagged k tag content)
    (h' : Tagged k' tag' content') (heq : tag ++ content ++ rest = tag' ++ content' ++ rest')
    (hlength : (tag ++ content ++ rest).length < 2^64) :
    k = k' ∧ content = content' ∧ rest = rest' := by
  have hsplit := (split_eq_ok hlength).mpr ⟨tag, h, rfl⟩
  have hsplit' := (split_eq_ok hlength).mpr ⟨tag', h', heq⟩
  rw [hsplit] at hsplit'
  cases hsplit'
  exact ⟨rfl, rfl, rfl⟩

theorem Item.content_unique {item item' : Item} {rest rest' : Bytes}
    (h : item.encode ++ rest = item'.encode ++ rest') (hlength : (item.encode ++ rest).length < 2^64) :
    item.isList = item'.isList ∧ item.content = item'.content ∧ rest = rest' := by
  obtain ⟨k, tag, htag, hencode, hk⟩ := item.tagged
  obtain ⟨k', tag', htag', hencode', hk'⟩ := item'.tagged
  rw [hencode] at h hlength
  rw [hencode'] at h
  obtain ⟨rfl, hcontent, hrest⟩ := htag.unique htag' h hlength
  exact ⟨Bool.eq_iff_iff.mpr (hk.symm.trans hk'), hcontent, hrest⟩

theorem encodeItems_inj {items items' : List Item}
    (ih : ∀ item ∈ items, ∀ item' rest rest', item.encode ++ rest = Item.encode item' ++ rest' →
      (item.encode ++ rest).length < 2^64 → item = item' ∧ rest = rest')
    (h : encodeItems items = encodeItems items') (hlength : (encodeItems items).length < 2^64) :
    items = items' := by
  have hne : ∀ item : Item, item.encode ≠ [] := by
    intro item
    obtain ⟨k, tag, htag, hencode, -⟩ := item.tagged
    rw [hencode]
    exact htag.ne_nil
  induction items generalizing items' with
  | nil =>
    cases items' with
    | nil => rfl
    | cons item' items' => exact absurd (List.append_eq_nil_iff.mp h.symm).1 (hne item')
  | cons item items ihs =>
    cases items' with
    | nil => exact absurd (List.append_eq_nil_iff.mp h).1 (hne item)
    | cons item' items' =>
      obtain ⟨hitem, hitems⟩ := List.forall_mem_cons.mp ih
      obtain ⟨rfl, hrest⟩ := hitem item' _ _ h hlength
      rw [encodeItems, List.length_append] at hlength
      rw [ihs hitems hrest (by omega)]

/-- The encoding of one item is never the beginning of that of another. -/
theorem Item.encode_inj (item item' : Item) (rest rest' : Bytes)
    (h : item.encode ++ rest = item'.encode ++ rest') (hlength : (item.encode ++ rest).length < 2^64) :
    item = item' ∧ rest = rest' := by
  induction item using Item.induct generalizing item' rest rest' with
  | str b =>
    obtain ⟨hlist, hcontent, hrest⟩ := Item.content_unique h hlength
    cases item' with
    | str b' => exact ⟨congrArg Item.str hcontent, hrest⟩
    | list items' => cases hlist
  | list items ih =>
    obtain ⟨hlist, hcontent, hrest⟩ := Item.content_unique h hlength
    cases item' with
    | str b' => cases hlist
    | list items' =>
      rw [Item.encode, List.length_append, List.length_append] at hlength
      exact ⟨congrArg Item.list (encodeItems_inj ih hcontent (by omega)), hrest⟩

mutual

/-- The data that a value is; none for a negative integer, and for bytes that go out as they are. -/
def Value.item : Value → Option Item
  | .raw _ => none
  | .uint i => some (.str (bigBytes i.toNat))
  | .bool b => some (.str (if b then [1] else []))
  | .bigInt i => if i < 0 then none else some (.str (bigBytes i))
  | .bytes b => some (.str b)
  | .list vs => (Value.items vs).map .list
  | .nilInterface | .nilList => some (.list [])
  | .nilBytes => some (.str [])

def Value.items : List Value → Option (List Item)
  | [] => some []
  | v :: vs => v.item.bind fun item => (Value.items vs).map (item :: ·)

end

/-- The bytes of a value are those of its data. -/
theorem Value.encoding_of_item (v : Value) {item : Item} (h : v.item = some item) :
    v.encoding = some item.encode := by
  induction v using Value.induct generalizing item with
  | leaf v hv =>
    cases v with
    | list vs => exact absurd rfl (hv vs)
    | raw b => cases h
    | bigInt i =>
      rw [Value.item] at h
      split_ifs at h with hneg
      cases h
      rw [Value.encoding, if_neg hneg, Item.encode]
    | uint | bool | bytes | nilBytes =>
      cases h
      rw [Value.encoding, Item.encode]
    | nilInterface | nilList =>
      cases h
      rw [Value.encoding, Item.encode, encodeItems]
      rfl
  | list vs ih =>
    obtain ⟨items, hitems, rfl⟩ := Option.map_eq_some_iff.mp h
    have hall : encodings vs = some (encodeItems items) := by
      clear h
      induction vs generalizing items with
      | nil =>
        cases hitems
        rfl
      | cons v vs ihvs =>
        obtain ⟨hv, hvs⟩ := List.forall_mem_cons.mp ih
        obtain ⟨item, hitem, hrest⟩ := Option.bind_eq_some_iff.mp hitems
        obtain ⟨items', hitems', rfl⟩ := Option.map_eq_some_iff.mp hrest
        rw [encodings, hv hitem, Option.bind_some, ihvs hvs items' hitems', Option.map_some,
          encodeItems]
    rw [Value.encoding, hall, Option.map_some, Item.encode]

theorem countValues_eq_ok {b : Bytes} (hb : b.length < 2^64) {n : Nat} :
    countValues b = .ok n ↔
      ∃ vs : List Bytes, (∀ v ∈ vs, IsValue v) ∧ b = vs.flatten ∧ n = vs.length := by
  rw [countValues, countValuesLoop_eq_ok (Nat.le_refl _) hb]
  simp only [Nat.zero_add]

/-- On any input, what is taken apart is a tag that the encoder writes with its content and what
follows, and the values that are counted are such values one after the other. All else is refused
with an error. -/
theorem split_exact (b : Bytes) (hb : b.length < 2^64) :
    (∀ k content rest, split b = .ok (k, content, rest) ↔
      ∃ tag, Tagged k tag content ∧ b = tag ++ content ++ rest) ∧
    (∀ content rest, splitString b = .ok (content, rest) ↔
      ∃ k tag, k ≠ .list ∧ Tagged k tag content ∧ b = tag ++ content ++ rest) ∧
    (∀ content rest, splitList b = .ok (content, rest) ↔
      ∃ tag, Tagged .list tag content ∧ b = tag ++ content ++ rest) ∧
    (∀ n, countValues b = .ok n ↔
      ∃ vs : List Bytes, (∀ v ∈ vs, IsValue v) ∧ b = vs.flatten ∧ n = vs.length) ∧
    ((∃ e, split b = .error e) ↔
      ¬ ∃ k tag content rest, Tagged k tag content ∧ b = tag ++ content ++ rest) ∧
    ((∃ e, countValues b = .error e) ↔
      ¬ ∃ vs : List Bytes, (∀ v ∈ vs, IsValue v) ∧ b = vs.flatten) ∧
    splitString b ≠ .panic ∧ splitList b ≠ .panic := by
  refine ⟨fun k content rest => split_eq_ok hb, fun content rest => splitString_eq_ok hb,
    fun content rest => splitList_eq_ok hb, fun n => countValues_eq_ok hb, ?_, ?_,
    splitString_ne_panic hb, splitList_ne_panic hb⟩
  · rw [Result.exists_error_iff (split_ne_panic hb), not_iff_not]
    constructor
    · rintro ⟨⟨k, content, rest⟩, h⟩
      obtain ⟨tag, htag, heq⟩ := (split_eq_ok hb).mp h
      exact ⟨k, tag, content, rest, htag, heq⟩
    · rintro ⟨k, tag, content, rest, htag, heq⟩
      exact ⟨_, (split_eq_ok hb).mpr ⟨tag, htag, heq⟩⟩
  · have hcount : countValues b ≠ .panic := countValuesLoop_ne_panic (Nat.le_refl _) hb 0
    rw [Result.exists_error_iff hcount, not_iff_not]
    constructor
    · rintro ⟨n, h⟩
      obtain ⟨vs, hvs, heq, -⟩ := (countValues_eq_ok hb).mp h
      exact ⟨vs, hvs, heq⟩
    · rintro ⟨vs, hvs, heq⟩
      exact ⟨vs.length, (countValues_eq_ok hb).mpr ⟨vs, hvs, heq, rfl⟩⟩

/-- A list with two strings and a byte behind it is taken apart, a small byte with a header of its own
is not. -/
theorem split_exact_list :
    (∃ tag, Tagged .list tag [0x83, 0x63, 0x61, 0x74, 0x05] ∧
      [0xC5, 0x83, 0x63, 0x61, 0x74, 0x05, 0x07] = tag ++ [0x83, 0x63, 0x61, 0x74, 0x05] ++ [0x07]) ∧
    ¬ ∃ k tag content rest, Tagged k tag content ∧ [0x81, 0x05] = tag ++ content ++ rest := by
  constructor
  · exact ((split_exact [0xC5, 0x83, 0x63, 0x61, 0x74, 0x05, 0x07] (by decide)).1 _ _ _).mp
      (by decide +kernel)
  · exact (split_exact [0x81, 0x05] (by decide)).2.2.2.2.1.mp ⟨.canonSize, by decide +kernel⟩

/-! ## The address of a created contract -/

theorem encodeStr_address (b : Address) : encodeStr b.bytes = 0x94 :: b.bytes := by
  have hlength : b.bytes.length = 20 := toBytes_length 20 _
  have hhead : puthead 0x80 0xB7 20 = [0x94] := rfl
  rw [encodeStr, fitsByte_of_length (by omega), if_neg (by simp), hlength, hhead, List.singleton_append]

theorem encodeStr_nonce_length (nonce : UInt64) : (encodeStr (bigBytes nonce.toNat)).length ≤ 9 := by
  rw [encodeStr_uint]
  have hle := putint_length_le nonce.toNat
  split_ifs
  · simp
  · simp
  · rw [List.length_cons]
    omega

/-- The creator and its nonce. -/
def creationItem (b : Address) (nonce : UInt64) : Item :=
  .list [.str b.bytes, .str (bigBytes nonce.toNat)]

theorem creationItem_length (b : Address) (nonce : UInt64) :
    (creationItem b nonce).encode.length < 2^64 := by
  have haddress : b.bytes.length = 20 := toBytes_length 20 _
  have hnonce := encodeStr_nonce_length nonce
  have hcontent : (encodeItems [.str b.bytes, .str (bigBytes nonce.toNat)]).length < 56 := by
    rw [encodeItems, encodeItems, encodeItems, Item.encode, Item.encode, encodeStr_address,
      List.append_nil, List.length_append, List.length_cons]
    omega
  rw [creationItem, Item.encode, listHeader, puthead_small hcontent, List.length_append]
  simp only [List.length_singleton]
  omega

theorem encodeToBytes_creation (b : Address) (nonce : UInt64) :
    encodeToBytes (.list [.bytes b.bytes, .uint nonce]) = .ok (creationItem b nonce).encode :=
  encodeToBytes_ok (Value.encoding_of_item _ rfl) (creationItem_length b nonce)

theorem ofBytes_bigBytes (n : Nat) : ofBytes (bigBytes n) = n := by
  have hlt : n < 256 ^ ((bitLen (n : Int) + 7) / 8) := by
    have hbits := (bitLen_le_iff (n : Int) (8 * ((bitLen (n : Int) + 7) / 8))).mp (by omega)
    rwa [Int.natAbs_natCast, Nat.pow_mul] at hbits
  rw [bigBytes, Int.natAbs_natCast, ofBytes_toBytes, Nat.mod_eq_of_lt hlt]

theorem address_bytes_inj {b b' : Address} (h : b.bytes = b'.bytes) : b = b' := by
  have hvalue : ∀ a : Address, ofBytes a.bytes = a.toNat := by
    intro a
    rw [Address.bytes, ofBytes_toBytes, Nat.mod_eq_of_lt]
    exact a.isLt
  have hnat : b.toNat = b'.toNat := by rw [← hvalue b, h, hvalue]
  exact BitVec.eq_of_toNat_eq hnat

/-- The address of a created contract is the end of the hash of the encoder's output for the list of
the creator and its nonce, and no other creator and nonce have the same output. -/
theorem createAddress_preimage (crypto : Crypto) (b b' : Address) (nonce nonce' : UInt64) :
    ∃ data data', encodeToBytes (.list [.bytes b.bytes, .uint nonce]) = .ok data ∧
      encodeToBytes (.list [.bytes b'.bytes, .uint nonce']) = .ok data' ∧
      createAddress crypto b nonce = BitVec.ofNat 160 (crypto.keccak256 data).toNat ∧
      createAddress crypto b' nonce' = BitVec.ofNat 160 (crypto.keccak256 data').toNat ∧
      (data = data' ↔ b = b' ∧ nonce = nonce') := by
  have haddr : ∀ (b : Address) (nonce : UInt64), createAddress crypto b nonce =
      BitVec.ofNat 160 (crypto.keccak256 (creationItem b nonce).encode).toNat := by
    intro b nonce
    rw [createAddress, encodeToBytes_creation]
    rfl
  refine ⟨_, _, encodeToBytes_creation b nonce, encodeToBytes_creation b' nonce', haddr b nonce,
    haddr b' nonce', ?_⟩
  constructor
  · intro h
    have hlength := creationItem_length b nonce
    have hitem := (Item.encode_inj _ _ [] [] (congrArg (· ++ []) h) (by rwa [List.append_nil])).1
    injection hitem with hitems
    injection hitems with haddress hrest
    injection haddress with haddress
    injection hrest with hnonce
    injection hnonce with hnonce
    refine ⟨address_bytes_inj haddress, UInt64.toNat_inj.mp ?_⟩
    rw [← ofBytes_bigBytes nonce.toNat, hnonce, ofBytes_bigBytes]
  · rintro ⟨rfl, rfl⟩
    rfl

end MiniEvm.Rlp
