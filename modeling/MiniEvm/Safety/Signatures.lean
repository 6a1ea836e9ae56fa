import MiniEvm.Abi.Method
import MiniEvm.Safety.RoundTrip
import MiniEvm.Safety.TypeStrings

namespace MiniEvm.Abi

open Math Framework

/-! ## Canonical texts -/

theorem isAlpha_of_isDigit {c : Char} (h : c.isDigit = true) : c.isAlpha = false := by
  simp only [Char.isDigit, Char.isAlpha, Char.isUpper, Char.isLower, Bool.and_eq_true,
    decide_eq_true_eq,
    ge_iff_le, UInt32.le_iff_toNat_le, Bool.or_eq_false_iff, Bool.and_eq_false_iff,
    decide_eq_false_iff_not] at h ⊢
  simp at h ⊢
  omega

theorem isDigit_toDigits (n : Nat) : ∀ c ∈ Nat.toDigits 10 n, c.isDigit = true :=
  fun _ hc => Nat.isDigit_of_mem_toDigits (by decide) (by decide) hc

theorem decimal_toDigits (n : Nat) : decimal (Nat.toDigits 10 n) = n :=
  Nat.ofDigitChars_toDigits (by decide) (by decide)

theorem notMem_toDigits {c : Char} (hc : c.isDigit = false) (n : Nat) : c ∉ Nat.toDigits 10 n := by
  intro hmem
  rw [isDigit_toDigits n c hmem] at hc
  cases hc

namespace AbiType

/-- The sizes are machine integers, and the arrays fit into the address space. -/
def Printable : AbiType → Prop
  | int size | uint size => size < 2^63
  | fixedBytes size => 0 < size ∧ size < 2^63
  | slice elem => elem.Printable
  | array elem size => elem.Printable ∧ size < 2^63 ∧ elem.goSize * size < 2^64
  | bool | string | address | bytes | function => True

end AbiType

/-- A word of letters, with a size or without one. -/
theorem denotes_word {word digits : List Char} {type : AbiType} (hne : word ≠ [])
    (hword : ∀ c ∈ word, c.isAlpha = true) (hdigits : ∀ c ∈ digits, c.isDigit = true)
    (small : decimal digits < 2^63)
    (sized : digits = [] → ¬(word = "uint".toList ∨ word = "int".toList))
    (keyword : AbiType.ofWord word (decimal digits) = some type) : Denotes (word ++ digits) type := by
  have hbracket : ∀ b : Char, b.isAlpha = false → b.isDigit = false → b ∉ word ++ digits := by
    intro b halpha hdigit hmem
    rcases List.mem_append.mp hmem with hmem | hmem
    · rw [hword b hmem] at halpha
      cases halpha
    · rw [hdigits b hmem] at hdigit
      cases hdigit
  have parts : Parts (word ++ digits) word digits [] := by
    refine ⟨⟨[], by simp, by simp⟩, hne, hword, ?_, hdigits, by simp⟩
    intro c hc
    rw [List.append_nil] at hc
    exact isAlpha_of_isDigit (hdigits c (List.mem_of_mem_head? hc))
  exact .elementary (hbracket '[' (by decide) (by decide)) (hbracket ']' (by decide) (by decide))
    ⟨parts, fun _ => rfl, small, sized, keyword⟩

theorem denotes_sized {word : List Char} {size : Nat} {type : AbiType} (hne : word ≠ [])
    (hword : ∀ c ∈ word, c.isAlpha = true) (small : size < 2^63)
    (keyword : AbiType.ofWord word size = some type) : Denotes (word ++ Nat.toDigits 10 size) type := by
  have hdecimal := decimal_toDigits size
  refine denotes_word hne hword (isDigit_toDigits size) ?_ ?_ ?_
  · rw [hdecimal]
    exact small
  · intro hnil
    exact absurd hnil Nat.toDigits_ne_nil
  · rw [hdecimal]
    exact keyword

theorem denotes_keyword {word : List Char} {type : AbiType} (hne : word ≠ [])
    (hword : ∀ c ∈ word, c.isAlpha = true) (sized : ¬(word = "uint".toList ∨ word = "int".toList))
    (keyword : AbiType.ofWord word 0 = some type) : Denotes word type := by
  have h : Denotes (word ++ []) type :=
    denotes_word hne hword (by simp) (by decide) (fun _ => sized) keyword
  rwa [List.append_nil] at h

/-- The canonical text of a type stands for it. -/
theorem AbiType.Printable.denotes {type : AbiType} (h : type.Printable) :
    Denotes type.canonicalText.toList type := by
  induction type with
  | int size | uint size =>
    simp only [canonicalText, String.toList_append, Nat.toString_eq_repr, Nat.toList_repr]
    exact denotes_sized (by simp) (by simp) h rfl
  | fixedBytes size =>
    simp only [canonicalText, String.toList_append, Nat.toString_eq_repr, Nat.toList_repr]
    refine denotes_sized (by simp) (by simp) h.2 ?_
    simp [ofWord, Nat.ne_of_gt h.1]
  | bool | string | address | bytes | function =>
    exact denotes_keyword (by simp [canonicalText]) (by simp [canonicalText])
      (by simp [canonicalText]) rfl
  | slice elem ih =>
    have htext : (slice elem).canonicalText.toList = elem.canonicalText.toList ++ '[' :: [']'] := by
      simp [canonicalText, String.toList_append]
    rw [htext]
    exact .slice (ih h) ⟨by simp, by simp⟩ (by simp)
  | array elem size ih =>
    have htext : (array elem size).canonicalText.toList =
        elem.canonicalText.toList ++ '[' :: (Nat.toDigits 10 size ++ [']']) := by
      simp [canonicalText, String.toList_append]
    have hbracket : Bracket (Nat.toDigits 10 size ++ [']']) := by
      refine ⟨?_, ?_⟩
      · simp [notMem_toDigits (c := '[') (by decide) size]
      · simp [List.count_eq_zero.mpr (notMem_toDigits (c := ']') (by decide) size)]
    have hnumber : Number (Nat.toDigits 10 size ++ [']']) (Nat.toDigits 10 size) :=
      ⟨⟨[], [']'], rfl, by simp, by simp⟩, Nat.toDigits_ne_nil, isDigit_toDigits size⟩
    have hdenotes := Denotes.array (ih h.1) hbracket hnumber (by rw [decimal_toDigits]; exact h.2.1)
      (by rw [decimal_toDigits]; exact h.2.2)
    rw [decimal_toDigits] at hdenotes
    rw [htext]
    exact hdenotes

theorem AbiType.ofWord_printable {word : List Char} {n : Nat} {type : AbiType} (hn : n < 2^63)
    (h : ofWord word n = some type) : type.Printable := by
  unfold ofWord at h
  split_ifs at h with _ _ _ _ _ _ hzero
  all_goals cases h
  all_goals first
    | exact hn
    | trivial
    | exact ⟨Nat.pos_of_ne_zero hzero, hn⟩

theorem Denotes.printable {t : List Char} {type : AbiType} (h : Denotes t type) : type.Printable := by
  induction h with
  | elementary _ _ text =>
    obtain ⟨-, -, small, -, keyword⟩ := text
    exact AbiType.ofWord_printable small keyword
  | slice _ _ _ ih => exact ih
  | array _ _ _ small fits ih => exact ⟨ih, small, fits⟩

theorem printable_of_newType {type : AbiType} (h : ∃ t, newType t = .ok type) : type.Printable := by
  obtain ⟨t, ht⟩ := h
  exact (newType_eq_ok.mp ht).printable

/-- The types that the parser makes are those with machine integers as sizes, and each of them has a
text of its own that the parser reads back. -/
theorem newType_canonical (type : AbiType) :
    ((∃ t, newType t = .ok type) ↔ type.Printable) ∧
      ((∃ t, newType t = .ok type) ↔ newType type.canonicalText.toList = .ok type) := by
  refine ⟨⟨printable_of_newType, fun h => ⟨_, h.denotes.newType⟩⟩, fun h => ?_, fun h => ⟨_, h⟩⟩
  exact (printable_of_newType h).denotes.newType

/-! ## Signatures -/

theorem comma_notMem_canonicalText (type : AbiType) : ',' ∉ type.canonicalText.toList := by
  have hdigits := notMem_toDigits (c := ',') (by decide)
  induction type with
  | slice elem ih => simp [AbiType.canonicalText, String.toList_append, ih]
  | array elem size ih => simp [AbiType.canonicalText, String.toList_append, ih, hdigits]
  | _ => simp [AbiType.canonicalText, String.toList_append, hdigits]

theorem Denotes.ne_nil {t : List Char} {type : AbiType} (h : Denotes t type) : t ≠ [] := by
  cases h with
  | elementary _ _ text =>
    obtain ⟨⟨⟨front, rfl, -⟩, hne, -⟩, -⟩ := text
    simp [hne]
  | slice | array => simp

theorem Argument.unmarshalJSON_eq_ok {text : String} {indexed : Bool} {arg : Argument} :
    unmarshalJSON text indexed = .ok arg ↔
      newType text.toList = .ok arg.type ∧ arg.indexed = indexed ∧ arg.stringKind = text := by
  rw [unmarshalJSON, Result.bind_eq_ok]
  constructor
  · rintro ⟨t, ht, h⟩
    cases h
    exact ⟨ht, rfl, rfl⟩
  · rintro ⟨ht, rfl, rfl⟩
    exact ⟨arg.type, ht, rfl⟩

/-- A list of non-empty texts can be read back from the texts with commas between them. -/
theorem intercalate_inj {as bs : List (List Char)} (ha : ∀ a ∈ as, ',' ∉ a ∧ a ≠ [])
    (hb : ∀ b ∈ bs, ',' ∉ b ∧ b ≠ []) (h : [','].intercalate as = [','].intercalate bs) : as = bs := by
  have hempty : ∀ ls : List (List Char), (∀ l ∈ ls, ',' ∉ l ∧ l ≠ []) → [','].intercalate ls = [] →
      ls = [] := by
    intro ls hls hnil
    by_contra hne
    have hsplit := List.splitOn_intercalate ',' (fun l hl => (hls l hl).1) hne
    rw [hnil] at hsplit
    have hmem : [] ∈ ls := by
      rw [← hsplit]
      simp
    exact (hls [] hmem).2 rfl
  by_cases hnil : as = []
  · rw [hnil] at h ⊢
    exact (hempty bs hb h.symm).symm
  · by_cases hnil' : bs = []
    · rw [hnil'] at h
      exact absurd (hempty as ha h) hnil
    · rw [← List.splitOn_intercalate ',' (fun l hl => (ha l hl).1) hnil, h,
        List.splitOn_intercalate ',' (fun l hl => (hb l hl).1) hnil']

theorem sig_toList (m : Method Argument) : m.sig.toList = m.name.toList ++
    '(' :: ([','].intercalate (m.inputs.map fun arg => arg.stringKind.toList) ++ [')']) := by
  simp [Method.sig, String.toList_append, String.toList_intercalate, Function.comp_def]

/-- A method as a compiler describes it: its name is an identifier, and its inputs, none of which is
indexed, were parsed from texts for one type each. -/
structure Method.Declared (m : Method Argument) : Prop where
  name : '(' ∉ m.name.toList
  parsed : ∀ arg ∈ m.inputs, Argument.unmarshalJSON arg.stringKind false = .ok arg
  single : ∀ arg ∈ m.inputs, ',' ∉ arg.stringKind.toList

namespace Method.Declared

variable {m m' : Method Argument}

theorem texts (h : m.Declared) : ∀ l ∈ m.inputs.map fun arg => arg.stringKind.toList,
    ',' ∉ l ∧ l ≠ [] := by
  intro l hl
  obtain ⟨arg, harg, rfl⟩ := List.mem_map.mp hl
  have hnew := (Argument.unmarshalJSON_eq_ok.mp (h.parsed arg harg)).1
  exact ⟨h.single arg harg, (newType_eq_ok.mp hnew).ne_nil⟩

theorem sig_eq (h : m.Declared) (h' : m'.Declared) (hsig : m.sig = m'.sig) :
    m.name = m'.name ∧ m.inputs.map Argument.stringKind = m'.inputs.map Argument.stringKind := by
  have hlist := congrArg String.toList hsig
  rw [sig_toList, sig_toList] at hlist
  obtain ⟨hname, hback⟩ := append_cons_inj h.name h'.name hlist
  have htexts := intercalate_inj h.texts h'.texts (List.append_cancel_right hback)
  refine ⟨String.toList_inj.mp hname, ?_⟩
  apply List.map_injective_iff.mpr (fun _ _ => String.toList_inj.mp)
  rw [List.map_map, List.map_map]
  exact htexts

/-- The text of an input determines it. -/
theorem inputs_eq (h : m.Declared) (h' : m'.Declared)
    (htexts : m.inputs.map Argument.stringKind = m'.inputs.map Argument.stringKind) :
    m.inputs = m'.inputs := by
  have hread : ∀ {m : Method Argument}, m.Declared →
      m.inputs.map (fun arg => Result.ok (ε := TypeError) arg) =
        (m.inputs.map Argument.stringKind).map fun text => Argument.unmarshalJSON text false := by
    intro m h
    rw [List.map_map]
    exact List.map_congr_left fun arg harg => (h.parsed arg harg).symm
  have hok := hread h
  rw [htexts, ← hread h'] at hok
  exact List.map_injective_iff.mpr (fun _ _ => Result.ok.inj) hok

end Method.Declared

/-- The inputs are written as a compiler writes them. -/
def Method.Canonical (m : Method Argument) : Prop :=
  ∀ arg ∈ m.inputs, arg.stringKind = arg.type.canonicalText

theorem Method.Canonical.texts {m : Method Argument} (h : m.Canonical) :
    m.inputs.map Argument.stringKind = (m.inputs.map Argument.type).map AbiType.canonicalText := by
  rw [List.map_map]
  exact List.map_congr_left h

/-- A signature determines the name of a method and the texts of its inputs, and with them their
types; if the texts are canonical, the types determine it too. -/
theorem sig_eq_iff (m m' : Method Argument) (h : m.Declared) (h' : m'.Declared) :
    (m.sig = m'.sig ↔
      m.name = m'.name ∧ m.inputs.map Argument.stringKind = m'.inputs.map Argument.stringKind) ∧
    (m.sig = m'.sig → m.inputs.map Argument.type = m'.inputs.map Argument.type) ∧
    (m.Canonical → m'.Canonical → (m.sig = m'.sig ↔
      m.name = m'.name ∧ m.inputs.map Argument.type = m'.inputs.map Argument.type)) := by
  have hback : m.name = m'.name ∧
      m.inputs.map Argument.stringKind = m'.inputs.map Argument.stringKind → m.sig = m'.sig := by
    rintro ⟨hname, htexts⟩
    rw [Method.sig, Method.sig, hname, htexts]
  have htypes : m.sig = m'.sig → m.inputs.map Argument.type = m'.inputs.map Argument.type := by
    intro hsig
    rw [h.inputs_eq h' (h.sig_eq h' hsig).2]
  refine ⟨⟨h.sig_eq h', hback⟩, htypes, ?_⟩
  intro hc hc'
  constructor
  · intro hsig
    exact ⟨(h.sig_eq h' hsig).1, htypes hsig⟩
  · rintro ⟨hname, hsame⟩
    refine hback ⟨hname, ?_⟩
    rw [hc.texts, hc'.texts, hsame]

theorem Method.Declared.of_printable {name : String} {const : Bool} {types : List AbiType}
    {outputs : List Argument} (hname : '(' ∉ name.toList) (htypes : ∀ type ∈ types, type.Printable) :
    Method.Declared ⟨name, const, ofTypes types, outputs⟩ := by
  refine ⟨hname, ?_, ?_⟩
  · intro arg harg
    obtain ⟨type, htype, rfl⟩ := List.mem_map.mp harg
    exact Argument.unmarshalJSON_eq_ok.mpr ⟨(htypes type htype).denotes.newType, rfl, rfl⟩
  · intro arg harg
    obtain ⟨type, -, rfl⟩ := List.mem_map.mp harg
    exact comma_notMem_canonicalText type

/-- `burn(uint256)` and its overload `burn(address,uint256)`. -/
def burn : Method Argument := ⟨"burn", false, ofTypes [.uint 256], []⟩

def burnFrom : Method Argument := ⟨"burn", false, ofTypes [.address, .uint 256], []⟩

theorem burn_declared : burn.Declared :=
  .of_printable (by simp) (by simp [AbiType.Printable])

theorem burnFrom_declared : burnFrom.Declared :=
  .of_printable (by simp) (by simp [AbiType.Printable])

theorem sig_eq_iff_overload : burn.sig ≠ burnFrom.sig := by
  intro h
  have hsame := (sig_eq_iff burn burnFrom burn_declared burnFrom_declared).2.1 h
  simp [burn, burnFrom, ofTypes] at hsame

/-- A text with a comma is one `bool` for the parser and two inputs in the signature. -/
example : Argument.unmarshalJSON "bool,uint8" false = .ok ⟨.bool, false, "bool,uint8"⟩ ∧
    Method.sig ⟨"f", false, [⟨.bool, false, "bool,uint8"⟩], []⟩ =
      Method.sig ⟨"f", false, ofTypes [.bool, .uint 8], []⟩ := by
  decide +kernel

/-! ## Calls -/

/-- `ABI.MethodById`, with the methods in the order in which the map happens to be iterated. The
error shows the four bytes. -/
def methodById (crypto : Crypto) (order : List (Method Argument)) (sigdata : Bytes) :
    Result Bytes (Method Argument) :=
  if sigdata.length < 4 then .panic
  else
    match order.find? fun method => method.id crypto = sigdata.take 4 with
    | some method => .ok method
    | none => .error (sigdata.take 4)

/-- The values can be packed for the types and read back. -/
structure Decodable (ts : List AbiType) (vs : List Value) : Prop where
  supported : ∀ t ∈ ts, t.Supported
  placed : WellPlaced ts
  typed : List.Forall₂ AbiType.Typed ts vs
  nonNeg : List.Forall₂ AbiType.NonNeg ts vs
  fits : Fits ts vs

theorem id_length (crypto : Crypto) (m : Method Argument) : (m.id crypto).length = 4 := by
  simp [Method.id, toBytes_length]

theorem packLoop_ofTypes (offset : Int) (arguments : List Argument) (args : List Value)
    (ret variableInput : Bytes) : packLoop offset (arguments.zip args) ret variableInput =
      packLoop offset ((ofTypes (arguments.map Argument.type)).zip args) ret variableInput := by
  induction arguments generalizing args ret variableInput with
  | nil => rfl
  | cons arg arguments ih =>
    cases args with
    | nil => rfl
    | cons v args =>
      simp only [ofTypes, List.map_cons, List.zip_cons_cons, packLoop] at ih ⊢
      simp only [ih]

/-- The texts of the arguments play no role in their encoding. -/
theorem packArguments_ofTypes (arguments : List Argument) (args : List Value) :
    packArguments arguments args = packArguments (ofTypes (arguments.map Argument.type)) args := by
  have hlen : (ofTypes (arguments.map Argument.type)).length = arguments.length := by simp [ofTypes]
  have hoffset : inputOffset (ofTypes (arguments.map Argument.type)) = inputOffset arguments := by
    simp [inputOffset, ofTypes, List.foldl_map]
  rw [packArguments, packArguments, hlen, hoffset, packLoop_ofTypes]

theorem unpackLoop_ofTypes (data : Bytes) (arguments : List Argument) (index virtualArgs : Int) :
    unpackLoop data arguments index virtualArgs =
      unpackLoop data (ofTypes (arguments.map Argument.type)) index virtualArgs := by
  induction arguments generalizing index virtualArgs with
  | nil => rfl
  | cons arg arguments ih =>
    simp only [ofTypes, List.map_cons, unpackLoop] at ih ⊢
    simp only [ih]

theorem Method.Declared.unpackValues_eq {m : Method Argument} (h : m.Declared) (data : Bytes) :
    unpackValues m.inputs data = unpackValues (ofTypes (m.inputs.map Argument.type)) data := by
  have hplain : m.inputs.filter (fun arg => !arg.indexed) = m.inputs := by
    refine List.filter_eq_self.mpr fun arg harg => ?_
    rw [(Argument.unmarshalJSON_eq_ok.mp (h.parsed arg harg)).2.1]
    rfl
  rw [unpackValues_ofTypes, unpackValues, hplain, unpackLoop_ofTypes]

/-- The first method with the four bytes is found. -/
theorem methodById_id (crypto : Crypto) {order : List (Method Argument)} {m : Method Argument}
    (hm : m ∈ order) (rest : Bytes) :
    ∃ m' ∈ order, m'.id crypto = m.id crypto ∧
      methodById crypto order (m.id crypto ++ rest) = .ok m' := by
  have hlen := id_length crypto m
  have htake : (m.id crypto ++ rest).take 4 = m.id crypto := by
    rw [← hlen, List.take_left]
  have hlong : ¬(m.id crypto ++ rest).length < 4 := by
    rw [List.length_append, hlen]
    omega
  rw [methodById, if_neg hlong, htake]
  cases hfind : order.find? fun method => method.id crypto = m.id crypto with
  | none =>
    have hnone := List.find?_eq_none.mp hfind m hm
    simp at hnone
  | some m' =>
    have hid := List.find?_some hfind
    exact ⟨m', List.mem_of_find?_eq_some hfind, of_decide_eq_true hid, rfl⟩

/-- The call data of a method: whatever the order of the map, the method is found by the first four
bytes and the arguments are read back from the rest, if no two signatures share their four bytes. -/
theorem methodById_pack (crypto : Crypto) (abi : ABI Argument) (order : List (Method Argument))
    (horder : order.Perm (abi.methods.entries.map Sigma.snd)) (declared : ∀ m ∈ order, m.Declared)
    (distinct : ∀ m ∈ order, ∀ m' ∈ order, m.id crypto = m'.id crypto → m.sig = m'.sig)
    (name : String) (hname : name ≠ "") (m : Method Argument) (hm : abi.methods.lookup name = some m)
    (args : List Value) (decodable : Decodable (m.inputs.map Argument.type) args) :
    ∃ data m', abi.pack crypto name args = .ok data ∧ methodById crypto order data = .ok m' ∧
      m'.name = m.name ∧ m'.inputs = m.inputs ∧ unpackValues m'.inputs (data.drop 4) = .ok args := by
  have hmem : m ∈ order := by
    rw [horder.mem_iff]
    exact List.mem_map.mpr ⟨⟨name, m⟩, AList.mem_lookup_iff.mp hm, rfl⟩
  obtain ⟨body, hbody, hread⟩ := decodable.placed.roundTrips decodable.supported decodable.typed
    decodable.fits decodable.nonNeg
  rw [← packArguments_ofTypes] at hbody
  rw [← (declared m hmem).unpackValues_eq] at hread
  obtain ⟨m', hm', hid, hfound⟩ := methodById_id crypto hmem body
  obtain ⟨hsame, htexts⟩ := (declared m' hm').sig_eq (declared m hmem) (distinct m' hm' m hmem hid)
  have hinputs : m'.inputs = m.inputs := (declared m' hm').inputs_eq (declared m hmem) htexts
  refine ⟨m.id crypto ++ body, m', ?_, hfound, hsame, hinputs, ?_⟩
  · simp only [ABI.pack, if_neg hname, hm, hbody]
    rfl
  · have hdrop : (m.id crypto ++ body).drop 4 = body := by
      rw [← id_length crypto m, List.drop_left]
    rw [hdrop, hinputs]
    exact hread

/-- Both overloads, under the keys that they get. -/
def burnABI : ABI Argument := ⟨none, (AList.singleton "burn" burn).insert "burn0" burnFrom, ∅⟩

/-- A hash that tells the lengths of texts apart. -/
def lengthCrypto : Crypto :=
  { Crypto.zero with keccak256 := fun b => BitVec.ofNat 256 (b.length * 2^224) }

/-- An address and an amount. -/
def burnArguments : List Value := [.array .uint8 (Value.ofBytes (List.replicate 20 7)), .num .ptr 5]

theorem burnArguments_decodable : Decodable (burnFrom.inputs.map Argument.type) burnArguments := by
  have htypes : burnFrom.inputs.map Argument.type = [.address, .uint 256] := rfl
  rw [htypes]
  refine ⟨?_, ?_, ?_, ?_, ?_⟩
  · simp [AbiType.Supported, AbiType.Static, AbiType.IntSize]
  · constructor <;> simp [AbiType.isSliceOfArrays, AbiType.declared, AbiType.words]
  · exact .cons ⟨_, rfl, rfl⟩ (.cons ⟨5, rfl, by norm_num, by norm_num⟩ .nil)
  · exact .cons trivial (.cons trivial .nil)
  · intro data hdata
    have hsize : ((packArguments (ofTypes [.address, .uint 256]) burnArguments).toOption.all
        fun data => data.length < 2 ^ 63) = true := by
      decide +kernel
    rw [hdata] at hsize
    exact of_decide_eq_true hsize

theorem methodById_pack_overload : ∃ data m',
    burnABI.pack lengthCrypto "burn0" burnArguments = .ok data ∧
    methodById lengthCrypto [burn, burnFrom] data = .ok m' ∧ m'.name = "burn" ∧
    m'.inputs = burnFrom.inputs ∧ unpackValues m'.inputs (data.drop 4) = .ok burnArguments := by
  have horder : [burn, burnFrom].Perm (burnABI.methods.entries.map Sigma.snd) := .swap ..
  have declared : ∀ m ∈ [burn, burnFrom], m.Declared := by
    simp [burn_declared, burnFrom_declared]
  have hids : burn.id lengthCrypto ≠ burnFrom.id lengthCrypto := by decide +kernel
  have distinct : ∀ m ∈ [burn, burnFrom], ∀ m' ∈ [burn, burnFrom],
      m.id lengthCrypto = m'.id lengthCrypto → m.sig = m'.sig := by
    simp [hids, hids.symm]
  exact methodById_pack lengthCrypto burnABI [burn, burnFrom] horder declared distinct "burn0"
    (by decide)
    burnFrom rfl burnArguments burnArguments_decodable

end MiniEvm.Abi
