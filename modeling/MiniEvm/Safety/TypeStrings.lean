import MiniEvm.Abi.NewType

namespace MiniEvm.Abi

open Framework

/-! ## Numbers -/

/-- The number that decimal digits make. -/
def decimal (digits : List Char) : Nat := Nat.ofDigitChars 10 digits 0

theorem le_ofDigitChars (n : Nat) (cs : List Char) : n ≤ Nat.ofDigitChars 10 cs n := by
  induction cs generalizing n with
  | nil => exact Nat.le_refl n
  | cons c cs ih =>
    rw [Nat.ofDigitChars_cons]
    exact le_trans (by omega) (ih _)

theorem parseUint_eq_ok {num cs : List Char} {n m : Nat} (hn : n < 2^64) :
    parseUint num n cs = .ok m ↔
      (∀ c ∈ cs, c.isDigit = true) ∧ m = Nat.ofDigitChars 10 cs n ∧ m < 2^64 := by
  induction cs generalizing n with
  | nil =>
    rw [parseUint, Except.ok.injEq, Nat.ofDigitChars_nil]
    constructor
    · rintro rfl
      exact ⟨by simp, rfl, hn⟩
    · rintro ⟨-, rfl, -⟩
      rfl
  | cons c cs ih =>
    have hnext : n * 10 + (c.toNat - '0'.toNat) = 10 * n + (c.toNat - '0'.toNat) := by omega
    rw [parseUint, Nat.ofDigitChars_cons, hnext]
    cases hc : c.isDigit with
    | false => simp [hc]
    | true =>
      simp only [Bool.not_true, Bool.false_eq_true, if_false, List.forall_mem_cons, hc, true_and]
      split_ifs with hlt
      · exact ih hlt
      · constructor
        · intro h
          cases h
        · rintro ⟨-, rfl, hm⟩
          exact absurd (lt_of_le_of_lt (le_ofDigitChars _ cs) hm) hlt

theorem atoi_eq_ok {num : List Char} {n : Nat} :
    atoi num = .ok n ↔ num ≠ [] ∧ (∀ c ∈ num, c.isDigit = true) ∧ n = decimal num ∧ n < 2^63 := by
  unfold atoi
  split_ifs with hnil
  · simp [hnil]
  · have hparse : ∀ m, parseUint num 0 num = .ok m ↔
        (∀ c ∈ num, c.isDigit = true) ∧ m = decimal num ∧ m < 2^64 :=
      fun m => parseUint_eq_ok (by decide)
    cases hp : parseUint num 0 num with
    | error e =>
      constructor
      · intro h
        cases h
      · rintro ⟨-, hdigits, rfl, hlt⟩
        have hok := (hparse (decimal num)).mpr ⟨hdigits, rfl, by omega⟩
        rw [hp] at hok
        cases hok
    | ok m =>
      obtain ⟨hdigits, rfl, -⟩ := (hparse m).mp hp
      simp only
      split_ifs with hlt
      · rw [Except.ok.injEq]
        constructor
        · rintro rfl
          exact ⟨hnil, hdigits, rfl, hlt⟩
        · rintro ⟨-, -, rfl, -⟩
          rfl
      · constructor
        · intro h
          cases h
        · rintro ⟨-, -, rfl, hn⟩
          exact absurd hn hlt

/-! ## Types without brackets -/

/-- The first word of a text and the digits right behind it. What stands before the word is skipped,
and so is the rest behind the digits. -/
structure Parts (t word digits rest : List Char) : Prop where
  text : ∃ junk, t = junk ++ (word ++ (digits ++ rest)) ∧ ∀ c ∈ junk, c.isAlpha = false
  word_ne : word ≠ []
  word_alpha : ∀ c ∈ word, c.isAlpha = true
  word_ends : ∀ c ∈ (digits ++ rest).head?, c.isAlpha = false
  digits_digit : ∀ c ∈ digits, c.isDigit = true
  digits_end : ∀ c ∈ rest.head?, c.isDigit = false

theorem typeRegex_eq_none {t : List Char} : typeRegex t = none ↔ ∀ c ∈ t, c.isAlpha = false := by
  have hword : (t.dropWhile fun c => !c.isAlpha).takeWhile Char.isAlpha = [] ↔
      ∀ c ∈ t, c.isAlpha = false := by
    induction t with
    | nil => simp
    | cons c t ih =>
      cases hc : c.isAlpha with
      | true => simp [hc]
      | false => simpa [hc] using ih
  simp only [typeRegex, ite_eq_left_iff, reduceCtorEq, imp_false, Decidable.not_not]
  exact hword

theorem Parts.typeRegex {t word digits rest : List Char} (h : Parts t word digits rest) :
    typeRegex t = some ⟨word, digits, if digits = [] then [] else suffixMatch rest⟩ := by
  obtain ⟨junk, rfl, hjunk⟩ := h.text
  have hskip : (junk ++ (word ++ (digits ++ rest))).dropWhile (fun c => !c.isAlpha) =
      word ++ (digits ++ rest) := by
    refine dropWhile_append_of_stop (fun c hc => by simp [hjunk c hc]) fun c hc => ?_
    rw [List.head?_append_of_ne_nil _ h.word_ne] at hc
    simp [h.word_alpha c (List.mem_of_mem_head? hc)]
  have hword := takeWhile_append_of_stop h.word_alpha h.word_ends
  have hrest := dropWhile_append_of_stop h.word_alpha h.word_ends
  have hdigits := takeWhile_append_of_stop h.digits_digit h.digits_end
  have hend := dropWhile_append_of_stop h.digits_digit h.digits_end
  simp only [Abi.typeRegex, hskip, hword, hrest, hdigits, hend, h.word_ne, if_false]

theorem typeRegex_parts {t : List Char} {m : TypeMatch} (h : typeRegex t = some m) :
    ∃ rest, Parts t m.word m.digits rest ∧
      m.suffix = if m.digits = [] then [] else suffixMatch rest := by
  have hletter : ∃ c ∈ t, c.isAlpha = true := by
    by_contra hnot
    simp only [not_exists, not_and, Bool.not_eq_true] at hnot
    rw [typeRegex_eq_none.mpr hnot] at h
    cases h
  obtain ⟨junk, word, back, rfl, hjunk, hne, hword, hback⟩ := exists_first_run hletter
  have hparts : Parts (junk ++ (word ++ back)) word (back.takeWhile Char.isDigit)
      (back.dropWhile Char.isDigit) := by
    have hspan := List.takeWhile_append_dropWhile (p := Char.isDigit) (l := back)
    refine ⟨⟨junk, by rw [hspan], hjunk⟩, hne, hword, ?_, fun c hc => List.mem_takeWhile_imp hc,
      head?_dropWhile _ back⟩
    rw [hspan]
    exact hback
  rw [hparts.typeRegex] at h
  cases h
  exact ⟨_, hparts, rfl⟩

/-- A text without brackets and the type it stands for: by its first word, and by the digits behind
the word unless an `x` and more digits follow. The other characters are not looked at. -/
inductive Elementary (t : List Char) (type : AbiType) : Prop
  | intro {word digits rest : List Char} (parts : Parts t word digits rest)
    (plain : digits ≠ [] → suffixMatch rest = []) (small : decimal digits < 2^63)
    (sized : digits = [] → ¬(word = "uint".toList ∨ word = "int".toList))
    (keyword : AbiType.ofWord word (decimal digits) = some type)

theorem suffixMatch_cases (cs : List Char) :
    suffixMatch cs = [] ∨ ∃ ds, suffixMatch cs = 'x' :: ds := by
  unfold suffixMatch
  split
  · split_ifs
    · exact .inl rfl
    · exact .inr ⟨_, rfl⟩
  · exact .inl rfl

theorem variableSize_eq_ok {t : List Char} {m : TypeMatch} {n : Nat}
    (hdigits : ∀ c ∈ m.digits, c.isDigit = true)
    (hsuffix : m.suffix = [] ∨ ∃ ds, m.suffix = 'x' :: ds) :
    variableSize t m = .ok n ↔ n = decimal m.digits ∧ n < 2^63 ∧ (m.digits ≠ [] → m.suffix = []) ∧
      (m.digits = [] → ¬(m.word = "uint".toList ∨ m.word = "int".toList)) := by
  unfold variableSize
  by_cases hnil : m.digits = []
  · have hzero : decimal m.digits = 0 := by rw [hnil]; rfl
    rw [if_pos hnil, hzero]
    split_ifs with hword
    · constructor
      · intro h
        cases h
      · rintro ⟨-, -, -, hnot⟩
        exact absurd hword (hnot hnil)
    · simp only [Result.ok.injEq, ne_eq, hnil, not_true_eq_false, false_implies, hword,
        not_false_eq_true, implies_true, and_true]
      omega
  · rw [if_neg hnil]
    have hatoi : ∀ n, atoi (m.digits ++ m.suffix) = .ok n ↔
        n = decimal m.digits ∧ n < 2^63 ∧ m.suffix = [] := by
      intro n
      rw [atoi_eq_ok]
      rcases hsuffix with hs | ⟨ds, hs⟩
      · simp only [hs, List.append_nil, ne_eq, hnil, not_false_eq_true, true_and, and_true]
        exact and_iff_right hdigits
      · have hx : ('x' : Char).isDigit ≠ true := by decide
        have hmem : 'x' ∈ m.digits ++ m.suffix := by simp [hs]
        constructor
        · rintro ⟨-, hall, -⟩
          exact absurd (hall 'x' hmem) hx
        · rintro ⟨-, -, hnone⟩
          rw [hs] at hnone
          cases hnone
    cases ha : atoi (m.digits ++ m.suffix) with
    | ok k =>
      obtain ⟨rfl, hlt, hs⟩ := (hatoi k).mp ha
      simp only [Result.ok.injEq, hs, implies_true, hnil, false_implies, and_true]
      constructor
      · rintro rfl
        exact ⟨rfl, hlt⟩
      · rintro ⟨rfl, -⟩
        rfl
    | error e =>
      constructor
      · intro h
        cases h
      · rintro ⟨rfl, hlt, hs, -⟩
        have hok := (hatoi _).mpr ⟨rfl, hlt, hs hnil⟩
        rw [ha] at hok
        cases hok

theorem elementaryType_eq_ok {t : List Char} {type : AbiType} :
    elementaryType t = .ok type ↔ Elementary t type := by
  unfold elementaryType
  constructor
  · intro h
    obtain ⟨m, hm, h⟩ := Result.bind_eq_ok.mp h
    obtain ⟨n, hn, h⟩ := Result.bind_eq_ok.mp h
    obtain ⟨rest, parts, hsuffix⟩ := typeRegex_parts (Result.ofOption_eq_ok.mp hm)
    have hcases : m.suffix = [] ∨ ∃ ds, m.suffix = 'x' :: ds := by
      rw [hsuffix]
      split_ifs
      · exact .inl rfl
      · exact suffixMatch_cases rest
    obtain ⟨rfl, small, plain, sized⟩ := (variableSize_eq_ok parts.digits_digit hcases).mp hn
    split at h
    · next type' keyword =>
      cases h
      refine ⟨parts, fun hne => ?_, small, sized, keyword⟩
      rw [← plain hne, hsuffix, if_neg hne]
    · cases h
  · rintro ⟨parts, plain, small, sized, keyword⟩
    rename_i word digits rest
    have hsuffix : (if digits = [] then [] else suffixMatch rest) = [] := by
      split_ifs with hnil
      · rfl
      · exact plain hnil
    have hsize : variableSize t ⟨word, digits, []⟩ = .ok (decimal digits) :=
      (variableSize_eq_ok parts.digits_digit (.inl rfl)).mpr ⟨rfl, small, fun _ => rfl, sized⟩
    rw [parts.typeRegex, hsuffix]
    simp only [Result.ofOption_some, Result.ok_bind, hsize, keyword]

theorem elementaryType_eq_panic {t : List Char} :
    elementaryType t = .panic ↔ ∀ c ∈ t, c.isAlpha = false := by
  rw [← typeRegex_eq_none, elementaryType]
  cases typeRegex t with
  | none => simp [Result.ofOption]
  | some m =>
    simp only [Result.ofOption_some, Result.ok_bind, reduceCtorEq, iff_false]
    unfold variableSize
    split_ifs
    · simp
    · simp only [Result.ok_bind]
      split <;> simp
    · cases atoi (m.digits ++ m.suffix) with
      | error e => simp
      | ok n =>
        simp only [Result.ok_bind]
        split <;> simp

/-! ## Brackets -/

/-- What follows the opening bracket of a slice or an array. -/
structure Bracket (seg : List Char) : Prop where
  opened : '[' ∉ seg
  closed : seg.count ']' = 1

/-- The only number in a text. -/
structure Number (seg digits : List Char) : Prop where
  text : ∃ front back, seg = front ++ (digits ++ back) ∧ (∀ c ∈ front, c.isDigit = false) ∧
    ∀ c ∈ back, c.isDigit = false
  digits_ne : digits ≠ []
  digits_digit : ∀ c ∈ digits, c.isDigit = true

theorem number_iff {seg digits : List Char} : runs Char.isDigit seg = [digits] ↔ Number seg digits := by
  rw [runs_eq_singleton]
  constructor
  · rintro ⟨front, back, htext, hfront, hne, hdigits, hback⟩
    exact ⟨⟨front, back, htext, hfront, hback⟩, hne, hdigits⟩
  · rintro ⟨⟨front, back, htext, hfront, hback⟩, hne, hdigits⟩
    exact ⟨front, back, htext, hfront, hne, hdigits, hback⟩

/-- The texts that stand for a type. -/
inductive Denotes : List Char → AbiType → Prop
  | elementary {t : List Char} {type : AbiType} (opened : '[' ∉ t) (closed : ']' ∉ t)
    (text : Elementary t type) : Denotes t type
  | slice {t seg : List Char} {elem : AbiType} (text : Denotes t elem) (bracket : Bracket seg)
    (noNumber : ∀ c ∈ seg, c.isDigit = false) : Denotes (t ++ '[' :: seg) (.slice elem)
  | array {t seg digits : List Char} {elem : AbiType} (text : Denotes t elem) (bracket : Bracket seg)
    (number : Number seg digits) (small : decimal digits < 2^63)
    (fits : elem.goSize * decimal digits < 2^64) :
      Denotes (t ++ '[' :: seg) (.array elem (decimal digits))

/-- The texts that the parser does not survive: without a letter, or of an array that the address
space has no room for. -/
inductive Crashes : List Char → Prop
  | noWord {t : List Char} (opened : '[' ∉ t) (closed : ']' ∉ t)
    (noLetter : ∀ c ∈ t, c.isAlpha = false) :
    Crashes t
  | element {t seg : List Char} (text : Crashes t) (bracket : Bracket seg) : Crashes (t ++ '[' :: seg)
  | tooLarge {t seg digits : List Char} {elem : AbiType} (text : Denotes t elem) (bracket : Bracket seg)
    (number : Number seg digits) (small : decimal digits < 2^63)
    (large : ¬elem.goSize * decimal digits < 2^64) : Crashes (t ++ '[' :: seg)

theorem Bracket.balanced {t seg : List Char} (h : Bracket seg) (ht : t.count '[' = t.count ']') :
    (t ++ '[' :: seg).count '[' = (t ++ '[' :: seg).count ']' := by
  have hopened : seg.count '[' = 0 := List.count_eq_zero.mpr h.opened
  simp [h.closed, hopened, ht]

theorem count_of_notMem {t : List Char} (opened : '[' ∉ t) (closed : ']' ∉ t) :
    t.count '[' = t.count ']' := by
  rw [List.count_eq_zero.mpr opened, List.count_eq_zero.mpr closed]

theorem Denotes.balanced {t : List Char} {type : AbiType} (h : Denotes t type) :
    t.count '[' = t.count ']' := by
  induction h with
  | elementary opened closed => exact count_of_notMem opened closed
  | slice _ bracket _ ih => exact bracket.balanced ih
  | array _ bracket _ _ _ ih => exact bracket.balanced ih

theorem Crashes.balanced {t : List Char} (h : Crashes t) : t.count '[' = t.count ']' := by
  induction h with
  | noWord opened closed => exact count_of_notMem opened closed
  | element _ bracket ih => exact bracket.balanced ih
  | tooLarge text bracket => exact bracket.balanced text.balanced

/-- Between balanced texts there is one closing bracket. -/
theorem Bracket.of_balanced {t seg : List Char} (hopened : '[' ∉ seg) (ht : t.count '[' = t.count ']')
    (h : (t ++ '[' :: seg).count '[' = (t ++ '[' :: seg).count ']') : Bracket seg := by
  have hzero : seg.count '[' = 0 := List.count_eq_zero.mpr hopened
  refine ⟨hopened, ?_⟩
  simp only [List.count_append, List.count_cons, hzero, ht] at h
  simp at h
  omega

theorem newType_elementary {t : List Char} (opened : '[' ∉ t) (closed : ']' ∉ t) :
    newType t = elementaryType t := by
  rw [newType, if_neg (not_not.mpr (count_of_notMem opened closed))]
  split
  · next front back hsplit =>
    rw [splitLast_eq_none.mpr opened] at hsplit
    cases hsplit
  · rfl

theorem newType_unbalanced {t : List Char} (h : t.count '[' ≠ t.count ']') :
    newType t = .error .invalidArgType := by
  rw [newType, if_pos h]

theorem newType_append {t seg : List Char} (hopened : '[' ∉ seg)
    (h : (t ++ '[' :: seg).count '[' = (t ++ '[' :: seg).count ']') :
    newType (t ++ '[' :: seg) = newType t >>= arrayType ('[' :: seg) := by
  rw [newType, if_neg (not_not.mpr h)]
  split
  · next front back hsplit =>
    rw [splitLast_append hopened] at hsplit
    cases hsplit
    rfl
  · next hsplit =>
    rw [splitLast_append hopened] at hsplit
    cases hsplit

theorem runs_bracket (seg : List Char) : runs Char.isDigit ('[' :: seg) = runs Char.isDigit seg :=
  runs_cons_of_neg (by decide) seg

theorem arrayType_slice {seg : List Char} (h : ∀ c ∈ seg, c.isDigit = false) (elem : AbiType) :
    arrayType ('[' :: seg) elem = .ok (.slice elem) := by
  rw [arrayType, runs_bracket, runs_of_neg h]

theorem arrayType_array {seg digits : List Char} (h : Number seg digits) (small : decimal digits < 2^63)
    (elem : AbiType) : arrayType ('[' :: seg) elem = elem.arrayOf (decimal digits) := by
  have hatoi := atoi_eq_ok.mpr ⟨h.digits_ne, h.digits_digit, rfl, small⟩
  rw [arrayType, runs_bracket, number_iff.mpr h]
  simp only [hatoi]

/-- What is made of a type and its brackets. -/
theorem arrayType_cases (seg : List Char) (elem : AbiType) :
    (∃ e, arrayType ('[' :: seg) elem = .error e) ∨ (∀ c ∈ seg, c.isDigit = false) ∨
      ∃ digits, Number seg digits ∧ decimal digits < 2^63 := by
  rw [arrayType, runs_bracket]
  cases hruns : runs Char.isDigit seg with
  | nil => exact .inr (.inl (runs_eq_nil.mp hruns))
  | cons digits more =>
    cases more with
    | cons _ _ => exact .inl ⟨.arrayFormatting, rfl⟩
    | nil =>
      cases hatoi : atoi digits with
      | error e => exact .inl ⟨.variableSize e, by simp only [hatoi]⟩
      | ok n =>
        obtain ⟨-, -, rfl, hlt⟩ := atoi_eq_ok.mp hatoi
        exact .inr (.inr ⟨digits, number_iff.mp hruns, hlt⟩)

/-! ## The parser -/

theorem Denotes.newType {t : List Char} {type : AbiType} (h : Denotes t type) :
    newType t = .ok type := by
  induction h with
  | elementary opened closed text =>
    rw [newType_elementary opened closed]
    exact elementaryType_eq_ok.mpr text
  | slice text bracket noNumber ih =>
    rw [newType_append bracket.opened (bracket.balanced text.balanced), ih]
    exact arrayType_slice noNumber _
  | array text bracket number small fits ih =>
    rw [newType_append bracket.opened (bracket.balanced text.balanced), ih, Result.ok_bind,
      arrayType_array number small, AbiType.arrayOf, if_pos fits]

theorem Crashes.newType {t : List Char} (h : Crashes t) : newType t = .panic := by
  induction h with
  | noWord opened closed noLetter =>
    rw [newType_elementary opened closed]
    exact elementaryType_eq_panic.mpr noLetter
  | element text bracket ih =>
    rw [newType_append bracket.opened (bracket.balanced text.balanced), ih]
    rfl
  | tooLarge text bracket number small large =>
    rw [newType_append bracket.opened (bracket.balanced text.balanced), text.newType, Result.ok_bind,
      arrayType_array number small, AbiType.arrayOf, if_neg large]

/-- A text is refused, stands for a type, or ends the program. -/
theorem newType_cases (t : List Char) :
    (∃ e, newType t = .error e) ∨ (∃ type, Denotes t type) ∨ Crashes t := by
  -- by induction on the length: what stands before the last bracket is shorter
  induction hlen : t.length using Nat.strong_induction_on generalizing t with
  | h n ih =>
    by_cases hbal : t.count '[' = t.count ']'
    swap
    · exact .inl ⟨_, newType_unbalanced hbal⟩
    cases hsplit : splitLast '[' t with
    | none =>
      have opened : '[' ∉ t := splitLast_eq_none.mp hsplit
      have closed : ']' ∉ t := by
        rw [← List.count_eq_zero, ← hbal]
        exact List.count_eq_zero.mpr opened
      cases he : elementaryType t with
      | error e => exact .inl ⟨e, (newType_elementary opened closed).trans he⟩
      | ok type => exact .inr (.inl ⟨type, .elementary opened closed (elementaryType_eq_ok.mp he)⟩)
      | panic => exact .inr (.inr (.noWord opened closed (elementaryType_eq_panic.mp he)))
    | some p =>
      obtain ⟨front, seg⟩ := p
      obtain ⟨rfl, hopened⟩ := splitLast_eq_some.mp hsplit
      have hshort : front.length < n := by
        rw [← hlen, List.length_append, List.length_cons]
        omega
      have hnew := newType_append hopened hbal
      rcases ih _ hshort front rfl with ⟨e, he⟩ | ⟨elem, helem⟩ | hcrash
      · exact .inl ⟨e, by rw [hnew, he]; rfl⟩
      · have hbracket := Bracket.of_balanced hopened helem.balanced hbal
        rcases arrayType_cases seg elem with ⟨e, he⟩ | hnone | ⟨digits, hnumber, hsmall⟩
        · exact .inl ⟨e, by rw [hnew, helem.newType, Result.ok_bind, he]⟩
        · exact .inr (.inl ⟨_, .slice helem hbracket hnone⟩)
        · by_cases hfits : elem.goSize * decimal digits < 2^64
          · exact .inr (.inl ⟨_, .array helem hbracket hnumber hsmall hfits⟩)
          · exact .inr (.inr (.tooLarge helem hbracket hnumber hsmall hfits))
      · exact .inr (.inr (.element hcrash (Bracket.of_balanced hopened hcrash.balanced hbal)))

theorem newType_eq_ok {t : List Char} {type : AbiType} : newType t = .ok type ↔ Denotes t type := by
  refine ⟨fun h => ?_, Denotes.newType⟩
  rcases newType_cases t with ⟨e, he⟩ | ⟨type', htype⟩ | hcrash
  · rw [he] at h
    cases h
  · obtain rfl : type' = type := Result.ok.inj (htype.newType.symm.trans h)
    exact htype
  · rw [hcrash.newType] at h
    cases h

theorem newType_eq_panic {t : List Char} : newType t = .panic ↔ Crashes t := by
  refine ⟨fun h => ?_, Crashes.newType⟩
  rcases newType_cases t with ⟨e, he⟩ | ⟨type, htype⟩ | hcrash
  · rw [he] at h
    cases h
  · rw [htype.newType] at h
    cases h
  · exact hcrash

/-- The parser accepts exactly the texts of the grammar, with the type that they stand for, and
panics exactly on the texts that crash it. -/
theorem newType_exact (t : List Char) :
    (∀ type, newType t = .ok type ↔ Denotes t type) ∧ (newType t = .panic ↔ Crashes t) :=
  ⟨fun _ => newType_eq_ok, newType_eq_panic⟩

/-- Characters that are no part of a type are accepted around it: `-uint256 [x2]y` is `uint256[2]`. -/
example : newType "-uint256 [x2]y".toList = .ok (.array (.uint 256) 2) := by
  decide +kernel

end MiniEvm.Abi
