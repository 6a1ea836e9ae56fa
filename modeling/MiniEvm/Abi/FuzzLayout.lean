import MiniEvm.Abi.Fuzz
import MiniEvm.Abi.Arguments

namespace MiniEvm.Abi

open Math Framework

/-! ## The pieces of a fuzzed encoding -/

/-- The fuzzed values, each with the flag whether it goes to the variable input. -/
inductive Fuzzed : List AbiType → List Draw → List (Bool × Bytes) → Prop
  | nil : Fuzzed [] [] []
  | cons {t : AbiType} {d : Draw} {b : Bytes} {ts : List AbiType} {ds : List Draw}
      {ps : List (Bool × Bytes)} (hb : t.fuzz d = .ok b) (rest : Fuzzed ts ds ps) :
      Fuzzed (t :: ts) (d :: ds) ((t.requiresLengthPrefix, b) :: ps)

theorem fuzzLoop_eq (offset : Int) {ts : List AbiType} {ds : List Draw} {ps : List (Bool × Bytes)}
    (h : Fuzzed ts ds ps) (ret variableInput : Bytes) :
    fuzzLoop offset ((ofTypes ts).zip ds) ret variableInput =
      .ok (ret ++ heads offset ps variableInput.length, variableInput ++ tails ps) := by
  induction h generalizing ret variableInput with
  | nil => simp [ofTypes, fuzzLoop, heads, tails]
  | @cons t d b ts ds ps hb _ ih =>
    simp only [ofTypes] at ih
    simp only [ofTypes, List.map_cons, List.zip_cons_cons, fuzzLoop, hb, Result.ok_bind]
    cases t.requiresLengthPrefix with
    | true => simp [ih, heads, tails]
    | false => simp [ih, heads, tails]

theorem fuzzLoop_fuzzed {offset : Int} {ts : List AbiType} {ds : List Draw}
    (hlen : ds.length = ts.length)
    {ret variableInput : Bytes} {r : Bytes × Bytes}
    (h : fuzzLoop offset ((ofTypes ts).zip ds) ret variableInput = .ok r) : ∃ ps, Fuzzed ts ds ps := by
  induction ts generalizing ds ret variableInput with
  | nil =>
    obtain rfl : ds = [] := List.length_eq_zero_iff.mp hlen
    exact ⟨[], .nil⟩
  | cons t ts ih =>
    cases ds with
    | nil => cases hlen
    | cons d ds =>
      simp only [ofTypes, List.map_cons, List.zip_cons_cons, fuzzLoop] at h
      obtain ⟨b, hb, h⟩ := Result.bind_eq_ok.mp h
      have hlen' : ds.length = ts.length := by simpa using hlen
      split_ifs at h
      all_goals
        obtain ⟨ps, hps⟩ := ih hlen' h
        exact ⟨_, .cons hb hps⟩

theorem Fuzzed.length {ts : List AbiType} {ds : List Draw} {ps : List (Bool × Bytes)}
    (h : Fuzzed ts ds ps) : ds.length = ts.length ∧ ps.length = ts.length := by
  induction h with
  | nil => exact ⟨rfl, rfl⟩
  | cons _ _ ih => simp [ih]

theorem fuzzArguments_eq {ts : List AbiType} {ds : List Draw} {ps : List (Bool × Bytes)}
    (h : Fuzzed ts ds ps) : fuzzArguments (ofTypes ts) ds =
      .ok (heads (inputOffset (ofTypes ts)) ps 0 ++ tails ps) := by
  have hlen : ds.length = (ofTypes ts).length := by simp [ofTypes, h.length]
  simp only [fuzzArguments, hlen, ne_eq, not_true_eq_false, if_false, fuzzLoop_eq _ h,
    Result.ok_bind]
  rfl

theorem fuzzArguments_fuzzed {ts : List AbiType} {ds : List Draw} {data : Bytes}
    (h : fuzzArguments (ofTypes ts) ds = .ok data) : ∃ ps, Fuzzed ts ds ps := by
  unfold fuzzArguments at h
  split_ifs at h with hlen
  obtain ⟨r, hr, -⟩ := Result.bind_eq_ok.mp h
  exact fuzzLoop_fuzzed (by simpa [ofTypes] using hlen) hr

theorem Fuzzed.append {ts ts' : List AbiType} {ds ds' : List Draw} {ps ps' : List (Bool × Bytes)}
    (h : Fuzzed ts ds ps) (h' : Fuzzed ts' ds' ps') : Fuzzed (ts ++ ts') (ds ++ ds') (ps ++ ps') := by
  induction h with
  | nil => exact h'
  | cons hb _ ih => exact .cons hb ih

/-- The piece of one argument, with the pieces before and after it. -/
theorem Fuzzed.split {front rest : List AbiType} {t : AbiType} {ds : List Draw}
    {ps : List (Bool × Bytes)} (h : Fuzzed (front ++ t :: rest) ds ps) :
    ∃ psA d b psB, ps = psA ++ (t.requiresLengthPrefix, b) :: psB ∧ psA.length = front.length ∧
      t.fuzz d = .ok b := by
  induction front generalizing ds ps with
  | nil =>
    cases h with
    | cons hb rest => exact ⟨[], _, _, _, rfl, rfl, hb⟩
  | cons u front ih =>
    cases h with
    | cons hb rest =>
      obtain ⟨psA, d, b, psB, rfl, hlen, hfuzz⟩ := ih rest
      exact ⟨_ :: psA, d, b, psB, rfl, by simp [hlen], hfuzz⟩

/-! ## Layouts with one head word for each argument -/

/-- Every piece of the head is a word. -/
def Narrow (ps : List (Bool × Bytes)) : Prop := ∀ p ∈ ps, p.1 = false → p.2.length = 32

theorem Narrow.heads_length {ps : List (Bool × Bytes)} (h : Narrow ps) (offset : Int) (q : Nat) :
    (heads offset ps q).length = 32 * ps.length := by
  induction ps generalizing q with
  | nil => rfl
  | cons p ps ih =>
    have ih := ih fun p hp => h p (List.mem_cons_of_mem _ hp)
    obtain ⟨flag, b⟩ := p
    cases flag with
    | true =>
      rw [heads, List.length_append, packNum_length, ih, List.length_cons]
      ring
    | false =>
      have hb : b.length = 32 := h (false, b) List.mem_cons_self rfl
      rw [heads, List.length_append, hb, ih, List.length_cons]
      ring

section Places

variable {psA psB : List (Bool × Bytes)} {b : Bytes} {offset : Int}

theorem Narrow.at_static (h : Narrow (psA ++ (false, b) :: psB)) :
    At (heads offset (psA ++ (false, b) :: psB) 0 ++ tails (psA ++ (false, b) :: psB))
      (32 * psA.length) b := by
  have hA := Narrow.heads_length (fun p hp => h p (List.mem_append_left _ hp)) offset 0
  refine At.append_right ⟨heads offset psA 0, heads offset psB (0 + (tails psA).length), ?_, hA⟩ _
  rw [heads_append, heads, List.append_assoc]

theorem Narrow.at_offset (h : Narrow (psA ++ (true, b) :: psB)) :
    At (heads offset (psA ++ (true, b) :: psB) 0 ++ tails (psA ++ (true, b) :: psB))
      (32 * psA.length) (packNum (int64 (offset + (tails psA).length))) := by
  have hA := Narrow.heads_length (fun p hp => h p (List.mem_append_left _ hp)) offset 0
  refine At.append_right
    ⟨heads offset psA 0, heads offset psB (0 + (tails psA).length + b.length), ?_, hA⟩ _
  rw [heads_append, heads, Nat.zero_add, List.append_assoc]

theorem Narrow.at_tail (h : Narrow (psA ++ (true, b) :: psB)) :
    At (heads offset (psA ++ (true, b) :: psB) 0 ++ tails (psA ++ (true, b) :: psB))
      (32 * (psA ++ (true, b) :: psB).length + (tails psA).length) b := by
  have hat : At (tails (psA ++ (true, b) :: psB)) (tails psA).length b := by
    rw [tails_append, tails, ← List.append_assoc]
    exact at_append (tails psA) b (tails psB)
  have hplace := hat.append_left (heads offset (psA ++ (true, b) :: psB) 0)
  rw [h.heads_length] at hplace
  exact hplace

end Places

namespace AbiType

/-- The types whose fuzzed head is one word. -/
def isNarrow : AbiType → Bool
  | array _ _ | fixedBytes _ | function => false
  | _ => true

theorem declared_of_isNarrow {t : AbiType} (h : t.isNarrow = true) : t.declared = 1 := by
  cases t with
  | array => cases h
  | _ => rfl

theorem words_of_isNarrow {t : AbiType} (h : t.isNarrow = true) : t.words = 1 := by
  cases t with
  | array => cases h
  | _ => rfl

end AbiType

theorem ofOption_map_eq_ok {ε α β : Type} {o : Option α} {f : α → β} {b : β}
    (h : (Result.ofOption (o.map f) : Result ε β) = .ok b) : ∃ a, o = some a ∧ b = f a := by
  obtain ⟨a, ha, hb⟩ := Option.map_eq_some_iff.mp (Result.ofOption_eq_ok.mp h)
  exact ⟨a, ha, hb.symm⟩

/-- A drawn number is some word. -/
theorem fuzzNum_eq {kind : Kind} {d : Draw} {b : Bytes} (h : fuzzNum kind d = .ok b) :
    ∃ n, b = packNum n := by
  unfold fuzzNum at h
  split at h
  case h_9 =>
    obtain ⟨⟨r, n⟩, -, hb⟩ := ofOption_map_eq_ok h
    exact ⟨genRandomInSpecialDist r n, hb⟩
  case h_10 => cases h
  all_goals
    obtain ⟨x, -, hb⟩ := ofOption_map_eq_ok h
    exact ⟨_, hb⟩

theorem fuzzAddress_eq (a : Address) : (fuzzAddress a).map (leftPad · 32) =
    some (leftPad (Address.bytes a) 32) := by
  have hlen : (leftPad (Address.bytes a) 32).length = 32 :=
    leftPad_length (by simp [Address.bytes])
  have hpadded : leftPad (leftPad (Address.bytes a) 32) 32 = leftPad (Address.bytes a) 32 := by
    generalize leftPad (Address.bytes a) 32 = padded at hlen ⊢
    rw [leftPad, hlen]
    simp
  simp only [fuzzAddress, packElement, Value.bytes_array, Option.map_some, hpadded]

theorem fuzz_narrow_length {t : AbiType} {d : Draw} {b : Bytes} (ht : t.isNarrow = true)
    (hp : t.requiresLengthPrefix = false) (h : t.fuzz d = .ok b) : b.length = 32 := by
  cases t with
  | array | fixedBytes | function => cases ht
  | string | bytes | slice => cases hp
  | int size | uint size =>
    obtain ⟨n, rfl⟩ := fuzzNum_eq h
    exact packNum_length n
  | bool =>
    obtain ⟨x, -, rfl⟩ := ofOption_map_eq_ok h
    rw [packBool_eq]
    simp
  | address =>
    obtain ⟨a, -, ha⟩ := Option.bind_eq_some_iff.mp (Result.ofOption_eq_ok.mp h)
    rw [fuzzAddress_eq] at ha
    rw [← Option.some.inj ha]
    exact leftPad_length (by simp [Address.bytes])

theorem Fuzzed.narrow {ts : List AbiType} {ds : List Draw} {ps : List (Bool × Bytes)}
    (h : Fuzzed ts ds ps) (ht : ∀ t ∈ ts, t.isNarrow = true) : Narrow ps := by
  induction h with
  | nil => exact fun p hp => by cases hp
  | @cons t d b ts ds ps hb _ ih =>
    intro p hp hflag
    rcases List.mem_cons.mp hp with rfl | hp
    · exact fuzz_narrow_length (ht t List.mem_cons_self) hflag hb
    · exact ih (fun u hu => ht u (List.mem_cons_of_mem _ hu)) p hp hflag

theorem inputOffset_narrow {ts : List AbiType} (ht : ∀ t ∈ ts, t.isNarrow = true)
    (h : 32 * ts.length < 2 ^ 63) : inputOffset (ofTypes ts) = (32 * ts.length : Nat) := by
  have hsum : (ts.map AbiType.declared).sum = ts.length := by
    rw [List.map_congr_left fun t h => AbiType.declared_of_isNarrow (ht t h)]
    simp
  rw [inputOffset_eq (by omega), hsum]

theorem words_sum_narrow {ts : List AbiType} (ht : ∀ t ∈ ts, t.isNarrow = true) :
    (ts.map AbiType.words).sum = ts.length := by
  rw [List.map_congr_left fun t h => AbiType.words_of_isNarrow (ht t h)]
  simp

/-- Where the piece of an argument stands. -/
theorem Narrow.places {ts : List AbiType} {psA psB : List (Bool × Bytes)} {flag : Bool} {b data : Bytes}
    (h : Narrow (psA ++ (flag, b) :: psB)) (ht : ∀ t ∈ ts, t.isNarrow = true)
    (hlength : (psA ++ (flag, b) :: psB).length = ts.length)
    (hdata : data = heads (inputOffset (ofTypes ts)) (psA ++ (flag, b) :: psB) 0 ++
      tails (psA ++ (flag, b) :: psB)) (hlim : data.length < 2 ^ 63) :
    (flag = false → At data (32 * psA.length) b) ∧
    (flag = true → ∃ o : Nat, At data (32 * psA.length) (packNum o) ∧ At data o b) := by
  constructor
  · rintro rfl
    rw [hdata]
    exact h.at_static
  · rintro rfl
    have hhead := @Narrow.at_offset psA psB b (inputOffset (ofTypes ts)) h
    have htail := @Narrow.at_tail psA psB b (inputOffset (ofTypes ts)) h
    rw [← hdata] at hhead htail
    rw [hlength] at htail
    have hle := htail.le
    have hfit : int64 (inputOffset (ofTypes ts) + (tails psA).length) =
        ((32 * ts.length + (tails psA).length : Nat) : Int) := by
      rw [inputOffset_narrow ht (by omega), int64_small (by omega) (by omega)]
      rfl
    rw [hfit] at hhead
    exact ⟨_, hhead, htail⟩

/-! ## What is drawn for a type -/

/-- The draws that `fuzzNum` makes. -/
def Kind.Draws : Kind → Draw → Prop
  | .uint8, d | .uint16, d | .uint32, d | .uint64, d => ∃ n, d = .uint64 n
  | .int8, d | .int16, d | .int32, d | .int64, d => ∃ n, d = .int64 n
  | .ptr, d => ∃ chooseRange n, d = .special chooseRange n
  | _, _ => False

/-- The draws that the source makes for a type: fewer than 16 elements for a slice or an array of any
size, and for fixed bytes none that matters. -/
def AbiType.Draws : AbiType → Draw → Prop
  | int size, d => (reflectIntKind false size).Draws d
  | uint size, d => (reflectIntKind true size).Draws d
  | bool, d => ∃ b, d = .bool b
  | address, d => ∃ a, d = .address a
  | string, d | bytes, d => ∃ b, d = .bytes b
  | fixedBytes _, _ | function, _ => True
  | slice elem, d | array elem _, d => ∃ ds, d = .elems ds ∧ ds.length < 16 ∧ ∀ d ∈ ds, Draws elem d

theorem fuzzNum_isOk_iff {kind : Kind} {d : Draw} : (∃ b, fuzzNum kind d = .ok b) ↔ kind.Draws d := by
  cases kind <;> cases d <;>
    simp [fuzzNum, Kind.Draws, Draw.asUint64, Draw.asInt64, Draw.asSpecial, Result.ofOption]

theorem Draw.asElems_eq_some {d : Draw} {ds : List Draw} :
    d.asElems = some ds ↔ d = .elems ds ∧ ds.length < 16 := by
  cases d with
  | elems ds' =>
    simp only [asElems, Option.ite_none_right_eq_some, Option.some.injEq, elems.injEq]
    constructor
    · rintro ⟨hlt, rfl⟩
      exact ⟨rfl, hlt⟩
    · rintro ⟨rfl, hlt⟩
      exact ⟨hlt, rfl⟩
  | _ => simp [asElems]

/-- Elements are drawn and fuzzed one by one, and then put together. -/
theorem fuzzElems_isOk_iff {elem : AbiType} (ih : ∀ d, (∃ b, elem.fuzz d = .ok b) ↔ elem.Draws d)
    (d : Draw) (join : List Bytes → Bytes) :
    (∃ b, (do
      let ds ← (.ofOption d.asElems : Result AbiError (List Draw))
      let fuzzed ← Result.mapAll (fun d => elem.fuzz d) ds
      return join fuzzed) = .ok b) ↔
      ∃ ds, d = .elems ds ∧ ds.length < 16 ∧ ∀ d ∈ ds, elem.Draws d := by
  have hall : ∀ ds, (∃ bs, Result.mapAll (fun d => elem.fuzz d) ds = .ok bs) ↔
      ∀ d ∈ ds, elem.Draws d := by
    intro ds
    simp only [Result.mapAll_eq_ok, ← ih]
    induction ds with
    | nil => simp
    | cons d ds ihs =>
      rw [List.forall_mem_cons, ← ihs]
      constructor
      · rintro ⟨_, _ | ⟨hb, hbs⟩⟩
        exact ⟨⟨_, hb⟩, _, hbs⟩
      · rintro ⟨⟨b, hb⟩, bs, hbs⟩
        exact ⟨b :: bs, .cons hb hbs⟩
  constructor
  · rintro ⟨b, hb⟩
    obtain ⟨ds, hds, hb⟩ := Result.bind_eq_ok.mp hb
    obtain ⟨bs, hbs, -⟩ := Result.bind_eq_ok.mp hb
    obtain ⟨rfl, hlt⟩ := Draw.asElems_eq_some.mp (Result.ofOption_eq_ok.mp hds)
    exact ⟨ds, rfl, hlt, (hall ds).mp ⟨bs, hbs⟩⟩
  · rintro ⟨ds, hd, hlt, hds⟩
    obtain ⟨bs, hbs⟩ := (hall ds).mpr hds
    have helems := Draw.asElems_eq_some.mpr ⟨hd, hlt⟩
    refine ⟨join bs, ?_⟩
    rw [helems, Result.ofOption_some, Result.ok_bind, hbs]
    rfl

/-- A type is fuzzed by its own draws, and by no others. -/
theorem AbiType.fuzz_isOk_iff (t : AbiType) (d : Draw) : (∃ b, t.fuzz d = .ok b) ↔ t.Draws d := by
  induction t generalizing d with
  | int size => exact fuzzNum_isOk_iff
  | uint size => exact fuzzNum_isOk_iff
  | bool => cases d <;> simp [fuzz, fuzzElement, Draws, Draw.asBool, Result.ofOption]
  | address =>
    cases d <;> simp [fuzz, fuzzElement, Draws, Draw.asAddress, Result.ofOption, fuzzAddress_eq]
  | string | bytes => cases d <;> simp [fuzz, fuzzElement, Draws, Draw.asBytes, Result.ofOption]
  | fixedBytes | function => simp [fuzz, fuzzElement, Draws]
  | slice elem ih => exact fuzzElems_isOk_iff ih d fun fuzzed => packFuzzedBytesSlice fuzzed.flatten
  | array elem size ih => exact fuzzElems_isOk_iff ih d List.flatten

theorem exists_fuzzed_iff {ts : List AbiType} {ds : List Draw} :
    (∃ ps, Fuzzed ts ds ps) ↔ List.Forall₂ AbiType.Draws ts ds := by
  constructor
  · rintro ⟨ps, h⟩
    induction h with
    | nil => exact .nil
    | @cons t d b _ _ _ hb _ ih => exact .cons ((t.fuzz_isOk_iff d).mp ⟨b, hb⟩) ih
  · intro h
    induction h with
    | nil => exact ⟨[], .nil⟩
    | @cons t d _ _ hd _ ih =>
      obtain ⟨b, hb⟩ := (t.fuzz_isOk_iff d).mpr hd
      obtain ⟨ps, hps⟩ := ih
      exact ⟨_, .cons hb hps⟩

/-- Calldata is made from the draws for the types, and from no others. -/
theorem fuzzArguments_isOk_iff {ts : List AbiType} {ds : List Draw} :
    (∃ data, fuzzArguments (ofTypes ts) ds = .ok data) ↔ List.Forall₂ AbiType.Draws ts ds := by
  rw [← exists_fuzzed_iff]
  constructor
  · rintro ⟨data, h⟩
    exact fuzzArguments_fuzzed h
  · rintro ⟨ps, h⟩
    exact ⟨_, fuzzArguments_eq h⟩

end MiniEvm.Abi
