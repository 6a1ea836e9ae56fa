import MiniEvm.Abi.Arguments

namespace MiniEvm.Abi

open Math Framework

/-- Packing succeeds, and unpacking gives the values back. -/
def RoundTrips (ts : List AbiType) (vs : List Value) : Prop :=
  ∃ data, packArguments (ofTypes ts) vs = .ok data ∧ unpackValues (ofTypes ts) data = .ok vs

/-- An encoding is a slice, so its length is an `int`. -/
def Fits (ts : List AbiType) (vs : List Value) : Prop :=
  ∀ data, packArguments (ofTypes ts) vs = .ok data → data.length < 2 ^ 63

/-- The types that encoder and decoder lay out alike: no slice has arrays as elements, and beside a
length-prefixed argument every array takes as many words as its own size says. -/
structure WellPlaced (ts : List AbiType) : Prop where
  slices : ∀ t ∈ ts, t.isSliceOfArrays = false
  arrays : (∃ t ∈ ts, t.requiresLengthPrefix = true) → ∀ t ∈ ts, t.declared = t.words

theorem unpackValues_ofTypes (ts : List AbiType) (data : Bytes) :
    unpackValues (ofTypes ts) data = unpackLoop data (ofTypes ts) 0 0 := by
  have hfilter : (ofTypes ts).filter (fun arg => !arg.indexed) = ofTypes ts := by
    simp [ofTypes, List.filter_eq_self]
  rw [unpackValues, hfilter]

namespace AbiType

theorem Supported.packs {t : AbiType} {v : Value} (h : t.Supported) (hslice : t.isSliceOfArrays = false)
    (hv : t.Typed v) : ∃ b, t.pack v = .ok b := by
  cases hp : t.requiresLengthPrefix with
  | true =>
    obtain ⟨body, hb, -⟩ := Plain.pack ⟨h, hp, hslice⟩ hv
    exact ⟨_, hb⟩
  | false =>
    obtain ⟨b, hb, -⟩ := (h.static hp).pack hv
    exact ⟨b, hb⟩

theorem Supported.declared_le {t : AbiType} (h : t.Supported) : t.declared ≤ t.words := by
  cases t with
  | array elem size => exact Static.declared_le (t := array elem size) h
  | _ => exact Nat.le_refl 1

end AbiType

theorem Packed.of_typed {ts : List AbiType} {vs : List Value}
    (hs : ∀ t ∈ ts, t.Supported ∧ t.isSliceOfArrays = false) (hv : List.Forall₂ AbiType.Typed ts vs) :
    ∃ ps, Packed ts vs ps := by
  induction hv with
  | nil => exact ⟨[], .nil⟩
  | @cons t v ts vs hv _ ih =>
    obtain ⟨ps, hps⟩ := ih fun u hu => hs u (List.mem_cons_of_mem _ hu)
    obtain ⟨hsup, hslice⟩ := hs t List.mem_cons_self
    obtain ⟨b, hb⟩ := hsup.packs hslice hv
    exact ⟨_, .cons hb hps⟩

/-- On types that are laid out alike, values without negative big integers come back. -/
theorem WellPlaced.roundTrips {ts : List AbiType} {vs : List Value} (h : WellPlaced ts)
    (hs : ∀ t ∈ ts, t.Supported) (hv : List.Forall₂ AbiType.Typed ts vs) (hfits : Fits ts vs)
    (hneg : List.Forall₂ AbiType.NonNeg ts vs) : RoundTrips ts vs := by
  have hall : ∀ t ∈ ts, t.Supported ∧ t.isSliceOfArrays = false := fun t ht => ⟨hs t ht, h.slices t ht⟩
  obtain ⟨ps, hps⟩ := Packed.of_typed hall hv
  have hpack := packArguments_eq hps
  have hlim := hfits _ hpack
  refine ⟨_, hpack, ?_⟩
  rw [unpackValues_ofTypes]
  have hlen := hps.heads_length hs hv (inputOffset (ofTypes ts)) 0
  have hoffset : (∃ t ∈ ts, t.requiresLengthPrefix = true) →
      inputOffset (ofTypes ts) = (heads (inputOffset (ofTypes ts)) ps 0).length := by
    intro hdyn
    have hsum : (ts.map AbiType.declared).sum = (ts.map AbiType.words).sum := by
      congr 1
      exact List.map_congr_left (h.arrays hdyn)
    rw [List.length_append, hlen] at hlim
    rw [hlen, inputOffset_eq (by omega), hsum]
  have hstart : ([] : Bytes).length = 32 * (0 + 0) := rfl
  have hhead : heads (inputOffset (ofTypes ts)) ps 0 =
      [] ++ heads (inputOffset (ofTypes ts)) ps ([] : Bytes).length := rfl
  exact unpackLoop_at rfl hlim hps hall hv hneg hoffset hhead rfl hstart

/-! ## Layouts that differ -/

namespace AbiType

/-- The zero value, with an empty slice or string. -/
def zero : AbiType → Value
  | int size => .num (reflectIntKind false size) 0
  | uint size => .num (reflectIntKind true size) 0
  | bool => .bool false
  | string => .string []
  | slice elem => .slice elem.kind []
  | array elem size => .array elem.kind (List.replicate size elem.zero)
  | address => .array .uint8 (Value.ofBytes (List.replicate 20 0))
  | fixedBytes size => .array .uint8 (Value.ofBytes (List.replicate size 0))
  | bytes => .slice .uint8 (Value.ofBytes [])
  | function => .array .uint8 (Value.ofBytes (List.replicate 24 0))

/-- One zero byte or one zero element. -/
def one : AbiType → Value
  | string => .string [0]
  | slice elem => .slice elem.kind [elem.zero]
  | bytes => .slice .uint8 (Value.ofBytes [0])
  | t => t.zero

theorem zero_typed (t : AbiType) : t.Typed t.zero := by
  induction t with
  | int size => exact ⟨0, rfl, by simp, by positivity⟩
  | uint size => exact ⟨0, rfl, le_refl 0, by positivity⟩
  | bool => exact ⟨false, rfl⟩
  | string => exact ⟨[], rfl⟩
  | slice elem _ => exact ⟨[], rfl, by simp⟩
  | array elem size ih =>
    refine ⟨_, rfl, List.length_replicate, fun x hx => ?_⟩
    rw [List.eq_of_mem_replicate hx]
    exact ih
  | address | function | fixedBytes => exact ⟨_, rfl, List.length_replicate⟩
  | bytes => exact ⟨[], rfl⟩

theorem zero_nonNeg (t : AbiType) : t.NonNeg t.zero := by
  induction t with
  | int size =>
    intro n hn _
    injection hn with _ hzero
    exact le_of_eq hzero
  | slice elem _ => exact fun x hx => by cases hx
  | array elem size ih =>
    intro x hx
    rw [List.eq_of_mem_replicate hx]
    exact ih
  | _ => trivial

theorem one_typed (t : AbiType) : t.Typed t.one := by
  cases t with
  | string => exact ⟨[0], rfl⟩
  | bytes => exact ⟨[0], rfl⟩
  | slice elem =>
    refine ⟨[elem.zero], rfl, fun x hx => ?_⟩
    rw [List.mem_singleton.mp hx]
    exact elem.zero_typed
  | _ => exact zero_typed _

theorem one_nonNeg (t : AbiType) : t.NonNeg t.one := by
  cases t with
  | string | bytes => trivial
  | slice elem =>
    intro x hx
    rw [List.mem_singleton.mp hx]
    exact elem.zero_nonNeg
  | _ => exact zero_nonNeg _

theorem zero_len {t : AbiType} (h : t.requiresLengthPrefix = true) : t.zero.len = 0 := by
  cases t with
  | string | bytes | slice => rfl
  | _ => cases h

theorem one_len {t : AbiType} (h : t.requiresLengthPrefix = true) : t.one.len = 1 := by
  cases t with
  | string | bytes | slice => rfl
  | _ => cases h

/-- The words that a type takes when nothing has more than one element. -/
def room (t : AbiType) : Nat := if t.requiresLengthPrefix then 3 else t.words

end AbiType

theorem forall₂_zero {P : AbiType → Value → Prop} (h : ∀ t, P t t.zero) (ts : List AbiType) :
    List.Forall₂ P ts (ts.map AbiType.zero) := by
  induction ts with
  | nil => exact .nil
  | cons t ts ih => exact .cons (h t) ih

/-- The empty slice of arrays cannot be packed: the check looks at its first element. -/
theorem pack_zero_sliceOfArrays {t : AbiType} (h : t.isSliceOfArrays = true) :
    t.pack t.zero = .panic := by
  cases t with
  | slice elem =>
    cases elem with
    | array elem' size => rfl
    | _ => cases h
  | _ => cases h

theorem Packed.packs {ts : List AbiType} {ps : List (Bool × Bytes)}
    (h : Packed ts (ts.map AbiType.zero) ps) : ∀ t ∈ ts, ∃ b, t.pack t.zero = .ok b := by
  induction ts generalizing ps with
  | nil => exact fun t ht => by cases ht
  | cons u ts ih =>
    cases h with
    | cons hb rest =>
      intro t ht
      rcases List.mem_cons.mp ht with rfl | ht
      · exact ⟨_, hb⟩
      · exact ih rest t ht

theorem not_packArguments_zero {ts : List AbiType} {t : AbiType} (ht : t ∈ ts)
    (hslice : t.isSliceOfArrays = true) (data : Bytes) :
    packArguments (ofTypes ts) (ts.map AbiType.zero) ≠ .ok data := by
  intro h
  obtain ⟨ps, hps⟩ := packArguments_packed h
  obtain ⟨b, hb⟩ := hps.packs t ht
  rw [pack_zero_sliceOfArrays hslice] at hb
  cases hb

theorem Packed.append {ts ts' : List AbiType} {vs vs' : List Value} {ps ps' : List (Bool × Bytes)}
    (h : Packed ts vs ps) (h' : Packed ts' vs' ps') : Packed (ts ++ ts') (vs ++ vs') (ps ++ ps') := by
  induction h with
  | nil => exact h'
  | cons hb _ ih => exact .cons hb ih

/-- Static arguments have no variable input, and their head words do not depend on it. -/
theorem Packed.static {ts : List AbiType} {vs : List Value} {ps : List (Bool × Bytes)}
    (h : Packed ts vs ps) (hs : ∀ t ∈ ts, t.requiresLengthPrefix = false) (offset : Int) :
    tails ps = [] ∧ ∀ q, heads offset ps q = heads offset ps 0 := by
  induction h with
  | nil => exact ⟨rfl, fun _ => rfl⟩
  | @cons t v b ts vs ps hb _ ih =>
    obtain ⟨htails, hheads⟩ := ih fun u hu => hs u (List.mem_cons_of_mem _ hu)
    rw [hs t List.mem_cons_self]
    refine ⟨htails, fun q => ?_⟩
    rw [heads, heads, hheads q]

/-- The variable input of values with at most one element. -/
theorem Packed.tails_le {ts : List AbiType} {vs : List Value} {ps : List (Bool × Bytes)}
    (h : Packed ts vs ps) (hs : ∀ t ∈ ts, t.Supported ∧ t.isSliceOfArrays = false)
    (hv : List.Forall₂ AbiType.Typed ts vs)
    (hlen : List.Forall₂ (fun t v => t.requiresLengthPrefix = true → v.len ≤ 1) ts vs) :
    32 * (ts.map AbiType.words).sum + (tails ps).length ≤ 32 * (ts.map AbiType.room).sum := by
  induction h with
  | nil => exact le_refl 0
  | @cons t v b ts vs ps hb _ ih =>
    cases hv with
    | cons hv hvs =>
    cases hlen with
    | cons hlen hlens =>
      have ih := ih (fun u hu => hs u (List.mem_cons_of_mem _ hu)) hvs hlens
      obtain ⟨hsup, hslice⟩ := hs t List.mem_cons_self
      simp only [List.map_cons, List.sum_cons, AbiType.room]
      cases hp : t.requiresLengthPrefix with
      | true =>
        obtain ⟨body, hbody, -, hle⟩ := AbiType.Plain.pack ⟨hsup, hp, hslice⟩ hv
        rw [hb] at hbody
        cases hbody
        have h1 := hlen hp
        rw [AbiType.words_eq_one hp, tails, List.length_append, List.length_append, packNum_length]
        simp only [if_true]
        omega
      | false =>
        simp only [tails, Bool.false_eq_true, if_false]
        omega

theorem exists_last {ts : List AbiType} {p : AbiType → Bool} (h : ∃ t ∈ ts, p t = true) :
    ∃ front t rest, ts = front ++ t :: rest ∧ p t = true ∧ ∀ u ∈ rest, p u = false := by
  induction ts with
  | nil =>
    obtain ⟨t, ht, -⟩ := h
    cases ht
  | cons u ts ih =>
    by_cases hrest : ∃ t ∈ ts, p t = true
    · obtain ⟨front, t, rest, rfl, ht, hall⟩ := ih hrest
      exact ⟨u :: front, t, rest, rfl, ht, hall⟩
    · refine ⟨[], u, ts, rfl, ?_, fun t ht => ?_⟩
      · obtain ⟨t, ht, hp⟩ := h
        rcases List.mem_cons.mp ht with rfl | ht
        · exact hp
        · exact absurd ⟨t, ht, hp⟩ hrest
      · exact Bool.eq_false_of_not_eq_true fun hp => hrest ⟨t, ht, hp⟩

section Misplaced

variable {front rest : List AbiType} {t : AbiType}

/-- The zero values, with another value for one argument. -/
def zerosBut (front : List AbiType) (v : Value) (rest : List AbiType) : List Value :=
  front.map AbiType.zero ++ v :: rest.map AbiType.zero

theorem forall₂_zerosBut {P : AbiType → Value → Prop} (h : ∀ u, P u u.zero) {v : Value} (hv : P t v) :
    List.Forall₂ P (front ++ t :: rest) (zerosBut front v rest) :=
  List.rel_append (forall₂_zero h front) (.cons hv (forall₂_zero h rest))

/-- When the head is longer than `Pack` counts, the last length-prefixed argument is read from a place
that does not depend on its value. -/
theorem misplaced_reads (hs : ∀ u ∈ front ++ t :: rest, u.Supported ∧ u.isSliceOfArrays = false)
    (hsmall : 32 * ((front ++ t :: rest).map AbiType.room).sum < 2 ^ 63)
    (ht : t.requiresLengthPrefix = true) (hrest : ∀ u ∈ rest, u.requiresLengthPrefix = false)
    (hless : ((front ++ t :: rest).map AbiType.declared).sum <
      ((front ++ t :: rest).map AbiType.words).sum) :
    ∃ n, ∀ v, t.Typed v → t.NonNeg v → v.len ≤ 1 →
      Fits (front ++ t :: rest) (zerosBut front v rest) ∧
      (RoundTrips (front ++ t :: rest) (zerosBut front v rest) → v.len = n) := by
  have hsup : ∀ u ∈ front ++ t :: rest, u.Supported := fun u hu => (hs u hu).1
  obtain ⟨psA, hA⟩ := Packed.of_typed (fun u hu => hs u (List.mem_append_left _ hu))
    (forall₂_zero AbiType.zero_typed front)
  obtain ⟨psB, hB⟩ := Packed.of_typed
    (fun u hu => hs u (List.mem_append_right _ (List.mem_cons_of_mem _ hu)))
    (forall₂_zero AbiType.zero_typed rest)
  obtain ⟨htailB, hheadB⟩ := hB.static hrest (inputOffset (ofTypes (front ++ t :: rest)))
  -- the encoding of every such list is one front part followed by the packed value
  have hpacked : ∀ v b, t.pack v = .ok b →
      Packed (front ++ t :: rest) (zerosBut front v rest) (psA ++ (true, b) :: psB) := by
    intro v b hb
    have hcons := Packed.cons hb hB
    rw [ht] at hcons
    exact hA.append hcons
  generalize hoff : inputOffset (ofTypes (front ++ t :: rest)) = offset at hheadB
  have hheads : ∀ b, heads offset (psA ++ (true, b) :: psB) 0 = heads offset psA 0 ++
      (packNum (int64 (offset + (tails psA).length)) ++ heads offset psB 0) := by
    intro b
    rw [heads_append, heads, hheadB, Nat.zero_add]
  have htails : ∀ b, tails (psA ++ (true, b) :: psB) = tails psA ++ b := by
    intro b
    rw [tails_append, tails, htailB, List.append_nil]
  have htyped : ∀ v, t.Typed v →
      List.Forall₂ AbiType.Typed (front ++ t :: rest) (zerosBut front v rest) :=
    fun v hv => forall₂_zerosBut AbiType.zero_typed hv
  have hroom : ∀ v b, t.Typed v → v.len ≤ 1 → t.pack v = .ok b →
      32 * ((front ++ t :: rest).map AbiType.words).sum + ((tails psA).length + b.length) ≤
        32 * ((front ++ t :: rest).map AbiType.room).sum := by
    intro v b hv hlen hb
    have hle := (hpacked v b hb).tails_le hs (htyped v hv)
      (forall₂_zerosBut (fun u hu => by rw [AbiType.zero_len hu]; exact Nat.zero_le 1) fun _ => hlen)
    rw [htails, List.length_append] at hle
    exact hle
  obtain ⟨b₀, hb₀⟩ := (hs t (by simp)).1.packs (hs t (by simp)).2 t.zero_typed
  have hlength : (heads offset psA 0 ++
      (packNum (int64 (offset + (tails psA).length)) ++ heads offset psB 0)).length =
        32 * ((front ++ t :: rest).map AbiType.words).sum := by
    rw [← hheads b₀]
    exact (hpacked t.zero b₀ hb₀).heads_length hsup (htyped _ t.zero_typed) offset 0
  have hfrontLength := hA.heads_length (fun u hu => hsup u (List.mem_append_left _ hu))
    (forall₂_zero AbiType.zero_typed front) offset 0
  have hroom₀ := hroom t.zero b₀ t.zero_typed (by rw [AbiType.zero_len ht]; omega) hb₀
  -- the offset word of the argument points into the part before its value
  obtain ⟨o, hoffset, hole⟩ : ∃ o : Nat, int64 (offset + (tails psA).length) = o ∧
      o + 32 ≤ 32 * ((front ++ t :: rest).map AbiType.words).sum + (tails psA).length := by
    refine ⟨32 * ((front ++ t :: rest).map AbiType.declared).sum + (tails psA).length, ?_, by omega⟩
    rw [← hoff, inputOffset_eq (by omega), int64_small (by omega) (by omega)]
    rfl
  rw [hoffset] at hheads hlength
  generalize hR : heads offset psA 0 ++ (packNum o ++ heads offset psB 0) = R at hheads hlength
  have hinside : o + 32 ≤ (R ++ tails psA).length := by
    rw [List.length_append, hlength]
    exact hole
  obtain ⟨x, hx, hxlen⟩ := exists_at hinside
  refine ⟨ofBytes x, fun v hv hneg hlen => ?_⟩
  obtain ⟨b, hb⟩ := (hs t (by simp)).1.packs (hs t (by simp)).2 hv
  have hdata : packArguments (ofTypes (front ++ t :: rest)) (zerosBut front v rest) =
      .ok (R ++ (tails psA ++ b)) := by
    rw [packArguments_eq (hpacked v b hb), hoff, hheads, htails]
  have hlim : (R ++ (tails psA ++ b)).length < 2 ^ 63 := by
    have hle := hroom v b hv hlen hb
    rw [List.length_append, List.length_append, hlength]
    omega
  refine ⟨fun data h => ?_, ?_⟩
  · rw [hdata] at h
    cases h
    exact hlim
  · rintro ⟨data, hpack, hunpack⟩
    rw [hdata] at hpack
    cases hpack
    rw [unpackValues_ofTypes] at hunpack
    have hgo := unpackLoop_read (i := 0) (j := 0)
      (fun u hu => (hsup u (List.mem_append_left _ hu)).static)
      (by simp at hsmall hroom₀ ⊢; omega) (by simp) hunpack
    have hhead : At (R ++ (tails psA ++ b)) (32 * (0 + 0 + (front.map AbiType.words).sum))
        (packNum o) := by
      refine ⟨heads offset psA 0, heads offset psB 0 ++ (tails psA ++ b), ?_, ?_⟩
      · rw [← hR]
        simp only [List.append_assoc]
      · rw [hfrontLength, Nat.zero_add]
    rw [← List.append_assoc] at hgo hhead hlim
    exact toGoType_len ht hlim hhead (packNum_length _) (ofBytes_packNum_nat (by omega))
      (hx.append_right b) hxlen hgo

end Misplaced

/-- Which argument lists survive `Pack` and `UnpackValues`. Negative big integers never do; all other
values of a list of types do exactly if the types are laid out alike. -/
theorem roundTrips_iff (ts : List AbiType) (hs : ∀ t ∈ ts, t.Supported)
    (hsmall : 32 * (ts.map AbiType.room).sum < 2 ^ 63) :
    (∀ vs, List.Forall₂ AbiType.Typed ts vs → Fits ts vs → RoundTrips ts vs →
      List.Forall₂ AbiType.NonNeg ts vs) ∧
    ((∀ vs, List.Forall₂ AbiType.Typed ts vs → Fits ts vs → List.Forall₂ AbiType.NonNeg ts vs →
      RoundTrips ts vs) ↔ WellPlaced ts) := by
  constructor
  · rintro vs - - ⟨data, -, h⟩
    rw [unpackValues_ofTypes] at h
    exact unpackLoop_nonNeg h
  constructor
  · intro h
    have hslices : ∀ t ∈ ts, t.isSliceOfArrays = false := by
      intro t ht
      by_contra hslice
      have hnot := not_packArguments_zero ht (Bool.eq_true_of_not_eq_false hslice)
      obtain ⟨data, hpack, -⟩ := h _ (forall₂_zero AbiType.zero_typed ts)
        (fun data hpack => absurd hpack (hnot data)) (forall₂_zero AbiType.zero_nonNeg ts)
      exact hnot data hpack
    refine ⟨hslices, fun hdyn => ?_⟩
    by_contra hdiffer
    have hless : (ts.map AbiType.declared).sum < (ts.map AbiType.words).sum := by
      simp only [not_forall] at hdiffer
      obtain ⟨t, ht, hne⟩ := hdiffer
      refine List.sum_lt_sum _ _ (fun u hu => (hs u hu).declared_le) ⟨t, ht, ?_⟩
      exact lt_of_le_of_ne (hs t ht).declared_le hne
    obtain ⟨front, t, rest, rfl, ht, hrest⟩ := exists_last hdyn
    obtain ⟨n, hn⟩ := misplaced_reads (fun u hu => ⟨hs u hu, hslices u hu⟩) hsmall ht hrest hless
    have hread : ∀ v, t.Typed v → t.NonNeg v → v.len ≤ 1 → v.len = n := by
      intro v hv hneg hlen
      obtain ⟨hfits, hback⟩ := hn v hv hneg hlen
      exact hback (h _ (forall₂_zerosBut AbiType.zero_typed hv) hfits
        (forall₂_zerosBut AbiType.zero_nonNeg hneg))
    have hzero := hread t.zero t.zero_typed t.zero_nonNeg (by rw [AbiType.zero_len ht]; omega)
    have hone := hread t.one t.one_typed t.one_nonNeg (by rw [AbiType.one_len ht])
    rw [AbiType.zero_len ht] at hzero
    rw [AbiType.one_len ht] at hone
    omega
  · intro h vs hv hfits hneg
    exact h.roundTrips hs hv hfits hneg

/-- `(address, uint256, string, uint8[])`. -/
def signature : List AbiType := [.address, .uint 256, .string, .slice (.uint 8)]

def callArguments : List Value :=
  [.array .uint8 (Value.ofBytes (List.replicate 20 7)), .num .ptr 5, .string [104, 105],
    .slice .uint8 [.num .uint8 1, .num .uint8 2]]

theorem roundTrips_iff_signature : WellPlaced signature ∧ RoundTrips signature callArguments := by
  have hs : ∀ t ∈ signature, t.Supported := by
    simp [signature, AbiType.Supported, AbiType.Static, AbiType.IntSize]
  have hplaced : WellPlaced signature := by
    constructor <;> simp [signature, AbiType.isSliceOfArrays, AbiType.declared, AbiType.words]
  have htyped : List.Forall₂ AbiType.Typed signature callArguments := by
    refine .cons ⟨_, rfl, rfl⟩ (.cons ⟨5, rfl, by norm_num, by norm_num⟩ (.cons ⟨_, rfl⟩
      (.cons ⟨_, rfl, ?_⟩ .nil)))
    simp [AbiType.Typed, reflectIntKind]
  have hneg : List.Forall₂ AbiType.NonNeg signature callArguments := by
    refine .cons trivial (.cons trivial (.cons trivial (.cons ?_ .nil)))
    simp [AbiType.NonNeg]
  have hfits : Fits signature callArguments := by
    intro data hdata
    have hsize : ((packArguments (ofTypes signature) callArguments).toOption.all
        fun data => data.length < 2 ^ 63) = true := by
      decide +kernel
    rw [hdata] at hsize
    exact of_decide_eq_true hsize
  exact ⟨hplaced, (roundTrips_iff signature hs (by decide)).2.mpr hplaced _ htyped hfits hneg⟩

/-- A negative `int256`, an empty `uint256[2][]`, and `bytes` after a `uint256[2][1]`. -/
theorem roundTrip_fails :
    ¬ RoundTrips [.int 256] [.num .ptr (-1)] ∧
    ¬ RoundTrips [.slice (.array (.uint 256) 2)] [.slice .array []] ∧
    ¬ RoundTrips [.array (.array (.uint 256) 2) 1, .bytes]
      [.array .array [.array .ptr [.num .ptr 1, .num .ptr 2]], .slice .uint8 [.num .uint8 7]] := by
  refine ⟨?_, ?_, ?_⟩
  · rintro ⟨data, -, h⟩
    rw [unpackValues_ofTypes] at h
    cases unpackLoop_nonNeg h with
    | cons hneg _ => exact absurd (hneg (-1) rfl rfl) (by decide)
  · rintro ⟨data, h, -⟩
    cases h
  · rintro ⟨data, hpack, hunpack⟩
    have hlen : ((packArguments (ofTypes [.array (.array (.uint 256) 2) 1, .bytes])
        [.array .array [.array .ptr [.num .ptr 1, .num .ptr 2]],
          .slice .uint8 [.num .uint8 7]]).toOption.all
          fun data => (unpackValues (ofTypes [.array (.array (.uint 256) 2) 1, .bytes]) data).toOption.all
            fun vs => (vs.map Value.len) = [1, 64]) = true := by
      decide +kernel
    rw [hpack] at hlen
    simp only [Result.toOption, Option.all_some, hunpack] at hlen
    cases hlen

end MiniEvm.Abi
