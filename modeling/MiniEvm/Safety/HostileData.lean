import MiniEvm.Abi.Arguments
import MiniEvm.Abi.Checked
import MiniEvm.Framework.Slice

namespace MiniEvm.Abi

open Math Framework

namespace Checked

/-! ## The checks only add panics -/

section Refinement

variable {β : Type} {f : Int → Result AbiError β} {y : Result AbiError β}

theorem int64_inRange {x : Int} (h : -2 ^ 63 ≤ x ∧ x < 2 ^ 63) : int64 x = x := by
  unfold int64
  rw [Int.bmod_eq_of_le] <;> omega

/-- An operation in range gives what the wrapping one gives. -/
theorem goInt_guards {x : Int} (h : (f (int64 x)).Guards y) : (goInt x >>= f).Guards y := by
  rw [goInt]
  refine .check fun hx => ?_
  rwa [int64_inRange hx] at h

/-- Where the plain decoder computes without wrapping. -/
theorem goInt_guards_exact {x : Int} (h : -2 ^ 63 ≤ x ∧ x < 2 ^ 63 → (f x).Guards y) :
    (goInt x >>= f).Guards y := by
  rw [goInt]
  exact .check h

theorem goInt_guards_ok (x : Int) : (goInt x).Guards (.ok (int64 x)) := by
  unfold goInt
  split_ifs with hx
  · exact .inr (congrArg _ (int64_inRange hx).symm)
  · exact .inl rfl

theorem wordAt_guards (output : Bytes) (index : Int) :
    (wordAt output index).Guards (Abi.wordAt output index) :=
  goInt_guards (.refl _)

theorem wordCheck_guards (output : Bytes) (index : Int) :
    (wordCheck output index).Guards (Abi.wordCheck output index) :=
  goInt_guards (.refl _)

theorem forEachCheck_guards (output : Bytes) (start size : Int) :
    (forEachCheck output start size).Guards (Abi.forEachCheck output start size) := by
  unfold forEachCheck Abi.forEachCheck
  split_ifs with hneg hover
  · exact .refl _
  · refine goInt_guards (goInt_guards ?_)
    rw [if_pos hover]
    exact .refl _
  · refine goInt_guards (goInt_guards ?_)
    rw [if_neg hover]
    unfold allocate
    split_ifs
    · exact .refl _
    · exact .inl rfl

theorem lengthPrefixPointsTo_guards (index : Int) (output : Bytes) :
    (lengthPrefixPointsTo index output).Guards (Abi.lengthPrefixPointsTo index output) := by
  refine (wordAt_guards output index).bind fun word => ?_
  simp only
  split_ifs
  · exact .refl _
  · exact .refl _
  · refine goInt_guards_exact fun _ => goInt_guards_exact fun _ => ?_
    refine (Result.Guards.refl _).bind fun lengthWord => ?_
    split_ifs
    · exact .refl _
    · exact .refl _
    · exact goInt_guards_exact fun _ => goInt_guards_exact fun _ => .refl _

theorem unpackElems_guards {toGo toGo' : Int → Result AbiError Value} (elemSize : Int) (size : Nat)
    (i : Int) (h : ∀ i, (toGo i).Guards (toGo' i)) :
    (unpackElems toGo elemSize size i).Guards (Abi.unpackElems toGo' elemSize size i) := by
  induction size generalizing i with
  | zero => exact .refl _
  | succ size ih =>
    refine (h i).bind fun v => goInt_guards ?_
    exact (ih _).bind fun vs => .refl _

theorem int64_mul_int64 (x y : Int) : int64 (x * int64 y) = int64 (x * y) := Int.mul_bmod_bmod

/-- Wrapping at every step is wrapping at the end. -/
theorem timesSizes_guards {s : Int} (hs : int64 s = s) (t : AbiType) :
    (timesSizes s t).Guards (.ok (int64 (s * t.words))) := by
  induction t generalizing s with
  | array elem n ih =>
    refine goInt_guards_exact fun hrange => ?_
    have helem := ih (int64_inRange hrange)
    rwa [Int.mul_assoc, ← Int.natCast_mul] at helem
  | _ =>
    right
    simp [timesSizes, AbiType.words, hs]

theorem getFullElemSize_eq (t : AbiType) : Abi.getFullElemSize t = int64 (32 * t.words) := by
  induction t with
  | array elem n ih =>
    rw [Abi.getFullElemSize, ih, Int.mul_comm, int64_mul_int64, AbiType.words, Int.natCast_mul,
      Int.mul_left_comm]
  | _ =>
    have hword : (32 : Int) = int64 (32 * (1 : Nat)) := by decide
    exact hword

theorem getFullElemSize_guards (t : AbiType) :
    (getFullElemSize t).Guards (.ok (Abi.getFullElemSize t)) := by
  rw [getFullElemSize_eq]
  exact timesSizes_guards (by decide) t

theorem int64_mul_getArraySize (x : Int) {elem : AbiType} {size : Nat} :
    int64 (x * Abi.getArraySize (.array elem size)) = int64 (x * (AbiType.array elem size).words) := by
  induction elem generalizing x size with
  | array elem n ih =>
    rw [Abi.getArraySize, int64_mul_int64, ← Int.mul_assoc, ih, Int.mul_assoc, ← Int.natCast_mul]
    rfl
  | _ => simp [Abi.getArraySize, AbiType.words]

theorem getArraySize_guards (elem : AbiType) (size : Nat) :
    (timesSizes size elem).Guards (.ok (Abi.getArraySize (.array elem size))) := by
  cases elem with
  | array elem n =>
    refine goInt_guards_exact fun hrange => ?_
    have hsizes := timesSizes_guards (int64_inRange hrange) elem
    have hwords : int64 (size * n * elem.words) = Abi.getArraySize (.array (.array elem n) size) := by
      rw [Int.mul_assoc, ← Int.natCast_mul]
      exact (int64_mul_getArraySize size).symm
    rwa [hwords] at hsizes
  | _ => exact .refl _

/-- What the checked decoder returns without a panic is what the decoder returns. -/
theorem toGoType_guards (t : AbiType) (index : Int) (output : Bytes) :
    (toGoType t index output).Guards (Abi.toGoType t index output) := by
  induction t generalizing index with
  | slice elem ih =>
    refine (wordCheck_guards output index).bind fun _ => ?_
    refine (lengthPrefixPointsTo_guards index output).bind fun r => ?_
    refine (forEachCheck_guards output r.1 r.2).bind fun _ => ?_
    exact (unpackElems_guards 32 r.2.toNat r.1 fun i => ih i).bind fun vs => .refl _
  | array elem size ih =>
    refine (wordCheck_guards output index).bind fun _ => ?_
    refine (wordAt_guards output index).bind fun _ => ?_
    refine (forEachCheck_guards output index size).bind fun _ => ?_
    refine (getFullElemSize_guards elem).bind_ok ?_
    exact (unpackElems_guards _ size index fun i => ih i).bind fun vs => .refl _
  | string =>
    refine (wordCheck_guards output index).bind fun _ => ?_
    refine (lengthPrefixPointsTo_guards index output).bind fun r => ?_
    exact goInt_guards (.refl _)
  | bytes =>
    refine (wordCheck_guards output index).bind fun _ => ?_
    refine (lengthPrefixPointsTo_guards index output).bind fun r => ?_
    exact goInt_guards (.refl _)
  | _ =>
    refine (wordCheck_guards output index).bind fun _ => ?_
    refine (wordAt_guards output index).bind fun word => ?_
    exact .check fun _ => .refl _

theorem nextVirtualArgs_guards (t : AbiType) (virtualArgs : Int) :
    (nextVirtualArgs t virtualArgs).Guards (.ok (virtualAfter t virtualArgs)) := by
  cases t with
  | array elem size =>
    exact (getArraySize_guards elem size).bind_ok (goInt_guards_exact fun _ => goInt_guards_ok _)
  | _ => exact .refl _

theorem unpackLoop_guards (data : Bytes) (args : List Argument) (index virtualArgs : Int) :
    (unpackLoop data args index virtualArgs).Guards (Abi.unpackLoop data args index virtualArgs) := by
  induction args generalizing index virtualArgs with
  | nil => exact .refl _
  | cons arg rest ih =>
    refine goInt_guards (goInt_guards ((nextVirtualArgs_guards arg.type virtualArgs).bind_ok ?_))
    exact (toGoType_guards _ _ _).bind fun v => (ih _ _).bind fun vs => .refl _

theorem unpackValues_guards (arguments : List Argument) (data : Bytes) :
    (unpackValues arguments data).Guards (Abi.unpackValues arguments data) :=
  unpackLoop_guards data _ 0 0

end Refinement

/-! ## The types that the decoder is safe for -/

end Checked

namespace AbiType

/-- The elements of nested arrays, an array without elements counted as if it had one. -/
def span : AbiType → Nat
  | array elem size => max size 1 * elem.span
  | _ => 1

/-- A type that `NewType` builds, with arrays so small that `n` bytes and their elements together
fit in an `int`. -/
def Fits (n : Nat) : AbiType → Prop
  | slice elem => elem.Fits n
  | array elem size => n + 32 * (max size 1 * elem.span) < 2 ^ 63 ∧ elem.Fits n
  | fixedBytes size => 1 ≤ size ∧ size ≤ 32
  | _ => True

theorem span_pos (t : AbiType) : 1 ≤ t.span := by
  induction t with
  | array elem size ih => exact Nat.mul_pos (by omega) ih
  | _ => exact Nat.le_refl 1

theorem words_le_span (t : AbiType) : t.words ≤ t.span := by
  induction t with
  | array elem size ih => exact Nat.mul_le_mul (Nat.le_max_left size 1) ih
  | _ => exact Nat.le_refl 1

end AbiType

namespace Checked

/-! ## No check fails -/

section Safety

variable {data : Bytes}

theorem goInt_settles {β : Type} {f : Int → Result AbiError β} {p : β → Prop} {x : Int}
    (hlo : -2 ^ 63 ≤ x) (hhi : x < 2 ^ 63) (h : (f x).Settles p) : (goInt x >>= f).Settles p := by
  rw [goInt, if_pos ⟨hlo, hhi⟩]
  exact h

/-- The sizes of nested arrays, multiplied one after the other. -/
theorem timesSizes_settles {s : Nat} {t : AbiType} (h : s * t.span < 2 ^ 63) :
    (timesSizes s t).Settles (· = ((s * t.words : Nat) : Int)) := by
  induction t generalizing s with
  | array elem n ih =>
    have hle : s * n * elem.span ≤ s * (AbiType.array elem n).span := by
      rw [AbiType.span, Nat.mul_assoc]
      exact Nat.mul_le_mul_left s (Nat.mul_le_mul_right _ (Nat.le_max_left n 1))
    have hstep : s * n ≤ s * n * elem.span := Nat.le_mul_of_pos_right _ elem.span_pos
    have hcast : (s : Int) * n = ((s * n : Nat) : Int) := (Int.natCast_mul s n).symm
    rw [timesSizes, hcast]
    refine goInt_settles (by omega) (by omega) ?_
    have helem := ih (lt_of_le_of_lt hle h)
    rw [Nat.mul_assoc] at helem
    exact helem
  | _ =>
    have hone : ((s : Nat) : Int) = ((s * 1 : Nat) : Int) := by rw [Nat.mul_one]
    exact hone

theorem wordCheck_settles (hlen : data.length ≤ maxAlloc) {index : Int} (h0 : 0 ≤ index)
    (hle : index ≤ data.length) : (wordCheck data index).Settles fun _ => index + 32 ≤ data.length := by
  have hmax : maxAlloc = 2 ^ 48 := rfl
  refine goInt_settles (by omega) (by omega) ?_
  split_ifs with hover
  · trivial
  · exact Int.not_lt.mp hover

/-- A slice expression inside the data. -/
theorem sliceInt_settles {lo hi : Int} (h0 : 0 ≤ lo) (hlo : lo ≤ hi) (hhi : hi ≤ data.length) :
    (Result.ofOption (sliceInt data lo hi) : Result AbiError Bytes).Settles
      fun b => (b.length : Int) = hi - lo := by
  rw [sliceInt, if_pos ⟨h0, by omega⟩, slice, if_pos (by omega)]
  show ((((data.drop lo.toNat).take (hi.toNat - lo.toNat)).length : Nat) : Int) = hi - lo
  rw [List.length_take, List.length_drop]
  omega

theorem wordAt_settles (hlen : data.length ≤ maxAlloc) {index : Int} (h0 : 0 ≤ index)
    (hle : index + 32 ≤ data.length) : (wordAt data index).Settles fun word => word.length = 32 := by
  have hmax : maxAlloc = 2 ^ 48 := rfl
  refine goInt_settles (by omega) (by omega) ?_
  refine (sliceInt_settles h0 (by omega) hle).mono ?_
  intro b hb
  omega

/-- A length prefix that is accepted lies in front of as many bytes as it says. -/
theorem lengthPrefixPointsTo_settles (hlen : data.length ≤ maxAlloc) {index : Int} (h0 : 0 ≤ index)
    (hle : index + 32 ≤ data.length) : (lengthPrefixPointsTo index data).Settles fun r =>
      0 ≤ r.1 ∧ 0 ≤ r.2 ∧ r.1 + r.2 ≤ data.length := by
  have hmax : maxAlloc = 2 ^ 48 := rfl
  refine (wordAt_settles hlen h0 hle).bind ?_
  intro word _
  simp only
  split_ifs with hover hbits
  · trivial
  · trivial
  · refine goInt_settles (by omega) (by omega) ?_
    refine goInt_settles (by omega) (by omega) ?_
    refine (sliceInt_settles (by omega) (by omega) (Int.not_lt.mp hover)).bind ?_
    intro lengthWord _
    split_ifs with hbits' htotal
    · trivial
    · trivial
    · refine goInt_settles (by omega) (by omega) ?_
      refine goInt_settles (by omega) (by omega) ?_
      exact ⟨by omega, by omega, Int.not_lt.mp htotal⟩

/-- The heads of all elements are inside the data where the check returns. -/
theorem forEachCheck_settles {start size : Int} (h0 : 0 ≤ start)
    (hsize : 0 ≤ size) (hfits : start + 32 * size < 2 ^ 63) :
    (forEachCheck data start size).Settles fun _ => start + 32 * size ≤ data.length := by
  rw [forEachCheck, if_neg (by omega)]
  refine goInt_settles (by omega) (by omega) ?_
  refine goInt_settles (by omega) hfits ?_
  split_ifs with hover
  · trivial
  · rw [allocate, if_pos (by omega)]
    exact Int.not_lt.mp hover

/-- The loop over the elements: each one that was decoded has moved the counter to a place that is
still inside the data. -/
theorem unpackElems_settles (hlen : data.length ≤ maxAlloc) {toGo : Int → Result AbiError Value}
    {elemSize : Nat} (htoGo : ∀ i : Int, 0 ≤ i → i ≤ data.length →
      (toGo i).Settles fun _ => i + elemSize ≤ data.length) {size : Nat} {i : Int} (h0 : 0 ≤ i)
    (hle : i ≤ data.length) :
    (unpackElems toGo elemSize size i).Settles fun _ => i + size * elemSize ≤ data.length := by
  have hmax : maxAlloc = 2 ^ 48 := rfl
  induction size generalizing i with
  | zero =>
    show i + ((0 : Nat) : Int) * elemSize ≤ data.length
    omega
  | succ size ih =>
    refine (htoGo i h0 hle).bind ?_
    intro v hv
    refine goInt_settles (by omega) (by omega) ?_
    refine (ih (by omega) hv).bind ?_
    intro vs hvs
    show i + ((size + 1 : Nat) : Int) * elemSize ≤ data.length
    push_cast
    linarith

/-- A type of one word is read from it. -/
theorem readWord_settles {n : Nat} {t : AbiType} (ht : t.Fits n) (hone : t.requiresLengthPrefix = false)
    (harray : ∀ elem size, t ≠ .array elem size) {word : Bytes} (hword : word.length = 32) :
    (readWord t word).Settles fun _ => True := by
  cases t with
  | slice | string | bytes => cases hone
  | array elem size => exact absurd rfl (harray elem size)
  | bool =>
    unfold readWord readBool
    split_ifs <;> trivial
  | function =>
    unfold readWord readFunctionType
    simp only
    split_ifs <;> trivial
  | fixedBytes size =>
    have hsize : size ≤ 32 := ht.2
    have hslice : Math.slice word 0 size = some ((word.drop 0).take (size - 0)) :=
      if_pos ⟨Nat.zero_le _, by omega⟩
    rw [readWord, readFixedBytes, hslice]
    trivial
  | _ => trivial

/-- What is decoded at a place: its first word and all its words are inside the data. -/
def Inside (data : Bytes) (t : AbiType) (index : Int) : Prop :=
  index + 32 ≤ data.length ∧ index + ((32 * t.words : Nat) : Int) ≤ data.length

/-- Words of one size, read at every place inside the data. -/
theorem toGoType_word_settles (hlen : data.length ≤ maxAlloc) {n : Nat} {t : AbiType} (ht : t.Fits n)
    (hone : t.requiresLengthPrefix = false) (harray : ∀ elem size, t ≠ .array elem size) {index : Int}
    (h0 : 0 ≤ index) (hle : index ≤ data.length) :
    (toGoType t index data).Settles fun _ => Inside data t index := by
  have hwords : t.words = 1 := by
    cases t with
    | array elem size => exact absurd rfl (harray elem size)
    | _ => rfl
  have hrun : toGoType t index data = (do
      wordCheck data index
      let word ← wordAt data index
      wholeWord word
      readWord t word) := by
    cases t with
    | slice | string | bytes => cases hone
    | array elem size => exact absurd rfl (harray elem size)
    | _ => rfl
  rw [hrun]
  refine (wordCheck_settles hlen h0 hle).bind ?_
  intro _ hin
  refine (wordAt_settles hlen h0 hin).bind ?_
  intro word hword
  rw [wholeWord, if_pos hword]
  refine (readWord_settles ht hone harray hword).mono ?_
  intro _ _
  exact ⟨hin, by rw [hwords]; exact hin⟩

/-- A length-prefixed type: the first word and the bytes that it leads to are inside the data. -/
theorem prefixed_settles {β : Type} (hlen : data.length ≤ maxAlloc) {index : Int} (h0 : 0 ≤ index)
    (hle : index ≤ data.length) {f : Int × Int → Result AbiError β} {p : β → Prop}
    (hf : ∀ r : Int × Int, index + 32 ≤ data.length → 0 ≤ r.1 → 0 ≤ r.2 → r.1 + r.2 ≤ data.length →
      (f r).Settles p) :
    (wordCheck data index >>= fun _ => lengthPrefixPointsTo index data >>= f).Settles p := by
  refine (wordCheck_settles hlen h0 hle).bind ?_
  intro _ hin
  refine (lengthPrefixPointsTo_settles hlen h0 hin).bind ?_
  rintro r ⟨hstart, hsize, htotal⟩
  exact hf r hin hstart hsize htotal

theorem toGoType_settles (hlen : data.length ≤ maxAlloc) {t : AbiType} (ht : t.Fits data.length)
    {index : Int} (h0 : 0 ≤ index) (hle : index ≤ data.length) :
    (toGoType t index data).Settles fun _ => Inside data t index := by
  have hmax : maxAlloc = 2 ^ 48 := rfl
  induction t generalizing index with
  | slice elem ih =>
    refine prefixed_settles hlen h0 hle ?_
    intro r hin hstart hsize htotal
    refine (forEachCheck_settles hstart hsize (by omega)).bind ?_
    intro _ _
    have helem : ∀ i : Int, 0 ≤ i → i ≤ data.length →
        (toGoType elem i data).Settles fun _ => i + ((32 : Nat) : Int) ≤ data.length :=
      fun i hi hi' => (ih ht hi hi').mono fun _ h => h.1
    refine (unpackElems_settles hlen helem hstart (by omega)).bind ?_
    intro vs _
    exact ⟨hin, hin⟩
  | array elem size ih =>
    obtain ⟨hcount, helemFits⟩ := ht
    have hspan := elem.span_pos
    have hsize : size ≤ max size 1 * elem.span :=
      (Nat.le_max_left size 1).trans (Nat.le_mul_of_pos_right _ hspan)
    have helemSpan : elem.span ≤ max size 1 * elem.span :=
      Nat.le_mul_of_pos_left _ (by omega)
    refine (wordCheck_settles hlen h0 hle).bind ?_
    intro _ hin
    refine (wordAt_settles hlen h0 hin).bind ?_
    intro _ _
    refine (forEachCheck_settles h0 (Int.natCast_nonneg size) (by omega)).bind ?_
    intro _ _
    refine (timesSizes_settles (s := 32) (by omega)).bind ?_
    intro elemSize helemSize
    subst helemSize
    have helem : ∀ i : Int, 0 ≤ i → i ≤ data.length →
        (toGoType elem i data).Settles fun _ => i + ((32 * elem.words : Nat) : Int) ≤ data.length :=
      fun i hi hi' => (ih helemFits hi hi').mono fun _ h => h.2
    refine (unpackElems_settles hlen helem h0 hle).bind ?_
    intro vs hvs
    refine ⟨hin, ?_⟩
    have hwords : 32 * (AbiType.array elem size).words = size * (32 * elem.words) :=
      Nat.mul_left_comm 32 size elem.words
    rw [hwords, Int.natCast_mul]
    exact hvs
  | string =>
    refine prefixed_settles hlen h0 hle ?_
    intro r hin hstart hsize htotal
    refine goInt_settles (by omega) (by omega) ?_
    refine (sliceInt_settles hstart (by omega) htotal).bind ?_
    intro b _
    exact ⟨hin, hin⟩
  | bytes =>
    refine prefixed_settles hlen h0 hle ?_
    intro r hin hstart hsize htotal
    refine goInt_settles (by omega) (by omega) ?_
    refine (sliceInt_settles hstart (by omega) htotal).bind ?_
    intro b _
    exact ⟨hin, hin⟩
  | int | uint | bool | address | fixedBytes | function =>
    exact toGoType_word_settles hlen ht rfl (fun _ _ => by simp) h0 hle

/-- The virtual arguments grow by the words of an array without its own place. -/
theorem nextVirtualArgs_settles {n : Nat} {t : AbiType} (ht : t.Fits n) {virtualArgs : Int}
    (hlo : -2 ^ 62 ≤ virtualArgs) (hhi : virtualArgs ≤ 2 ^ 62) :
    (nextVirtualArgs t virtualArgs).Settles (· = virtualArgs + t.words - 1) := by
  cases t with
  | array elem size =>
    have hspan : size * elem.span ≤ max size 1 * elem.span :=
      Nat.mul_le_mul_right _ (Nat.le_max_left size 1)
    have hwords : size * elem.words ≤ size * elem.span := Nat.mul_le_mul_left size elem.words_le_span
    have hcount := ht.1
    refine (timesSizes_settles (by omega)).bind ?_
    intro arraySize harray
    refine goInt_settles (by omega) (by omega) ?_
    rw [goInt, if_pos (by omega)]
    show virtualArgs + (arraySize - 1) = virtualArgs + ((size * elem.words : Nat) : Int) - 1
    omega
  | _ =>
    show virtualArgs = virtualArgs + ((1 : Nat) : Int) - 1
    omega

/-- The loop over the arguments: the place of the next one is where the words of the decoded ones
end. -/
theorem unpackLoop_settles (hlen : data.length ≤ maxAlloc) {args : List Argument}
    (hargs : ∀ arg ∈ args, arg.type.Fits data.length) {index virtualArgs : Int} (hindex : 0 ≤ index)
    (hcount : index + args.length ≤ maxAlloc) (hplace : 0 ≤ index + virtualArgs)
    (hinside : (index + virtualArgs) * 32 ≤ data.length) :
    (unpackLoop data args index virtualArgs).Settles fun _ => True := by
  have hmax : maxAlloc = 2 ^ 48 := rfl
  induction args generalizing index virtualArgs with
  | nil => trivial
  | cons arg rest ih =>
    rw [List.length_cons] at hcount
    have hfits := hargs arg (List.mem_cons_self ..)
    refine goInt_settles (by omega) (by omega) ?_
    refine goInt_settles (by omega) (by omega) ?_
    refine (nextVirtualArgs_settles hfits (by omega) (by omega)).bind ?_
    intro virtualArgs' hvirtual
    refine (toGoType_settles hlen hfits (by omega) hinside).bind ?_
    intro v hv
    have hend := hv.2
    refine (ih (fun arg' h => hargs arg' (List.mem_cons_of_mem _ h)) (by omega) (by omega) (by omega)
      (by omega)).bind ?_
    intro _ _
    trivial

theorem unpackValues_settles (hlen : data.length ≤ maxAlloc) {arguments : List Argument}
    (hcount : arguments.length ≤ maxAlloc) (hargs : ∀ arg ∈ arguments, arg.type.Fits data.length) :
    (unpackValues arguments data).Settles fun _ => True := by
  have hfilter := List.length_filter_le (fun arg : Argument => !arg.indexed) arguments
  refine unpackLoop_settles hlen ?_ (by omega) (by omega) (by omega) (by omega)
  intro arg harg
  exact hargs arg (List.mem_of_mem_filter harg)

end Safety

end Checked

/-! ## The decoder on hostile data -/

/-- Whatever the data: where the data and the elements of the arrays fit in an `int` together, no
slice expression of the decoder is out of bounds, no `int` of it overflows, nothing larger than the
data is allocated, and what it returns is what the checked decoder returns. -/
theorem unpackValues_total (arguments : GoSlice Argument) (data : GoBytes)
    (h : ∀ arg ∈ arguments.items, arg.type.Fits data.bytes.length) :
    Checked.unpackValues arguments.items data.bytes ≠ .panic ∧
      unpackValues arguments.items data.bytes = Checked.unpackValues arguments.items data.bytes := by
  have hsafe : Checked.unpackValues arguments.items data.bytes ≠ .panic :=
    (Checked.unpackValues_settles data.length_le arguments.length_le h).ne_panic
  refine ⟨hsafe, ?_⟩
  exact ((Checked.unpackValues_guards _ _).resolve_left hsafe).symm

/-- A slice of pairs and a string: an offset each, then the two lengths with what they count. -/
def nestedArguments : GoSlice Argument where
  items := [⟨.slice (.array (.uint 8) 2), false, "uint8[2][]"⟩, ⟨.string, false, "string"⟩]
  length_le := by decide

def nestedData : GoBytes where
  bytes := [64, 160, 2, 1, 2, 1, 65].flatMap fun b => List.replicate 31 0 ++ [b]
  length_le := by decide +kernel

theorem unpackValues_total_nested :
    (∀ arg ∈ nestedArguments.items, arg.type.Fits nestedData.bytes.length) ∧
      Checked.unpackValues nestedArguments.items nestedData.bytes ≠ .panic ∧
      unpackValues nestedArguments.items nestedData.bytes =
        Checked.unpackValues nestedArguments.items nestedData.bytes := by
  have hfits : ∀ arg ∈ nestedArguments.items, arg.type.Fits nestedData.bytes.length := by
    have hlength : nestedData.bytes.length = 224 := by decide +kernel
    rw [hlength]
    exact List.forall_mem_cons.mpr ⟨⟨by decide, trivial⟩, List.forall_mem_singleton.mpr trivial⟩
  exact ⟨hfits, unpackValues_total nestedArguments nestedData hfits⟩

/-- An array whose elements fit in an `int`, but not behind another argument. -/
def hugeArray : AbiType := .array (.uint 8) (2 ^ 58 - 1)

/-- Where only the elements have to fit: the array starts at 32, `start+32*size` wraps to a negative
number, and the check of the bounds lets the allocation of all elements through. The same happens to
the array in a slice, whose place the data chooses. -/
theorem unpackValues_overflows :
    hugeArray.Fits 0 ∧
      (Checked.unpackValues (ofTypes [.uint 256, hugeArray]) (List.replicate 64 0)).isPanic = true ∧
      int64 (32 + int64 (32 * (2 ^ 58 - 1))) = -2 ^ 63 ∧
      forEachCheck (List.replicate 64 0) 32 (2 ^ 58 - 1) = .ok () ∧
      (Checked.unpackValues (ofTypes [.slice hugeArray])
        ([32, 1, 0].flatMap fun b => List.replicate 31 0 ++ [b])).isPanic = true := by
  refine ⟨⟨by decide, trivial⟩, ?_, ?_, ?_, ?_⟩
  · decide +kernel
  · decide +kernel
  · decide +kernel
  · decide +kernel

end MiniEvm.Abi
