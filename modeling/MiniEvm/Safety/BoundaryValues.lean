import MiniEvm.Detectors.Inputs

namespace MiniEvm

/-- The big integers that `GenerateIntBySize` has allocated, and the list of references to them that
it returns. A reference is the index of its integer. -/
structure IntRefs where
  heap : List Int
  res : List Nat

namespace IntRefs

/-- What the references stand for. -/
def values (s : IntRefs) : List Int := s.res.map fun r => s.heap.getD r 0

/-- `x.Exp(big.NewInt(2), big.NewInt(i), nil)`: an exponent that is not positive gives 1. -/
def powerOfTwo (i : Int) : Int := if i ≤ 0 then 1 else 2 ^ i.toNat

/-- `res = append(res, value.Exp(…))` writes to `value` and appends the reference to it. -/
def appendPower (value : Nat) (s : IntRefs) (i : Int) : IntRefs :=
  ⟨s.heap.set value (powerOfTwo i), s.res ++ [value]⟩

/-- `res = append(res, x)` for a fresh `x`. -/
def appendNew (s : IntRefs) (x : Int) : IntRefs := ⟨s.heap ++ [x], s.res ++ [s.heap.length]⟩

/-- A fresh integer that is not in the list. -/
def new (s : IntRefs) (x : Int) : Nat × IntRefs := (s.heap.length, ⟨s.heap ++ [x], s.res⟩)

/-- The values of a loop counter from `a`, `n` of them. -/
def counter (a : Int) (n : Nat) : List Int := (List.range n).map fun i => a + i

/-- `GenerateIntBySize` with its references. -/
def generateIntBySize (size : Int) : IntRefs :=
  let (value, s) := new ⟨[], []⟩ 0
  let s := (counter 0 9).foldl (appendPower value) s
  let s := (counter (size - 8) 9).foldl (appendPower value) s
  let (intMax, s) := new s (powerOfTwo size)
  let s := (counter 1 8).foldl appendNew s
  (counter 0 9).foldl (fun s i => s.appendNew (s.heap.getD intMax 0 - i)) s

/-- Every power goes to the same integer, which ends with the last of them. -/
theorem foldl_appendPower (x : Int) (res : List Nat) (is : List Int) (i : Int) :
    (is ++ [i]).foldl (appendPower 0) ⟨[x], res⟩ =
      ⟨[powerOfTwo i], res ++ List.replicate (is.length + 1) 0⟩ := by
  induction is generalizing x res with
  | nil => rfl
  | cons j is ih =>
    have hstep : appendPower 0 ⟨[x], res⟩ j = ⟨[powerOfTwo j], res ++ [0]⟩ := rfl
    rw [List.cons_append, List.foldl_cons, hstep, ih, List.append_assoc, List.length_cons,
      List.replicate_succ]
    rfl

/-- No reference dangles. -/
def Valid (s : IntRefs) : Prop := ∀ r ∈ s.res, r < s.heap.length

/-- A loop that only allocates: the integers so far keep their values, and the list gains `xs`. -/
structure Extends (s s' : IntRefs) (xs : List Int) : Prop where
  valid : s'.Valid
  values : s'.values = s.values ++ xs
  kept : ∀ r < s.heap.length, r < s'.heap.length ∧ s'.heap.getD r 0 = s.heap.getD r 0

theorem Extends.refl {s : IntRefs} (hs : s.Valid) : Extends s s [] :=
  ⟨hs, (List.append_nil _).symm, fun _ hr => ⟨hr, rfl⟩⟩

theorem Extends.trans {s s' s'' : IntRefs} {xs ys : List Int} (h : Extends s s' xs)
    (h' : Extends s' s'' ys) : Extends s s'' (xs ++ ys) := by
  refine ⟨h'.valid, ?_, ?_⟩
  · rw [h'.values, h.values, List.append_assoc]
  · intro r hr
    obtain ⟨hr', hval⟩ := h.kept r hr
    obtain ⟨hr'', hval'⟩ := h'.kept r hr'
    exact ⟨hr'', hval'.trans hval⟩

theorem appendNew_extends {s : IntRefs} (hs : s.Valid) (x : Int) :
    Extends s (s.appendNew x) [x] := by
  refine ⟨?_, ?_, ?_⟩
  · intro r hr
    rw [appendNew, List.length_append]
    obtain hr | hr := List.mem_append.mp hr
    · exact Nat.lt_succ_of_lt (hs r hr)
    · rw [List.mem_singleton.mp hr]
      exact Nat.lt_succ_self _
  · have hold : (s.res.map fun r => (s.heap ++ [x]).getD r 0) = s.values :=
      List.map_congr_left fun r hr => List.getD_append _ _ _ _ (hs r hr)
    have hnew : (s.heap ++ [x]).getD s.heap.length 0 = x := by
      rw [List.getD_append_right _ _ _ _ le_rfl, Nat.sub_self]
      rfl
    unfold values appendNew
    rw [List.map_append, hold, List.map_singleton, hnew]
    rfl
  · intro r hr
    rw [appendNew, List.length_append]
    exact ⟨Nat.lt_succ_of_lt hr, List.getD_append _ _ _ _ hr⟩

/-- Each round computes its integer from one that the loop does not write to. -/
theorem foldl_appendNew_extends (intMax : Nat) (f : Int → Int → Int) (is : List Int) {s : IntRefs}
    (hs : s.Valid) (hmax : intMax < s.heap.length) :
    Extends s (is.foldl (fun s i => s.appendNew (f (s.heap.getD intMax 0) i)) s)
      (is.map (f (s.heap.getD intMax 0))) := by
  induction is generalizing s with
  | nil => exact .refl hs
  | cons i is ih =>
    have hstep := appendNew_extends hs (f (s.heap.getD intMax 0) i)
    obtain ⟨hlen, hkept⟩ := hstep.kept intMax hmax
    have hrest := ih hstep.valid hlen
    rw [hkept] at hrest
    exact hstep.trans hrest

theorem counter_succ (a : Int) (n : Nat) : counter a (n + 1) = counter a n ++ [a + n] := by
  simp [counter, List.range_succ]

/-- After the function has returned, all powers of two are the last one. -/
theorem values_generateIntBySize (size : Nat) :
    (generateIntBySize size).values = MiniEvm.generateIntBySize size := by
  have hpow : powerOfTwo size = 2 ^ size := by
    unfold powerOfTwo
    split_ifs with h
    · have hzero : size = 0 := by omega
      rw [hzero, pow_zero]
    · rw [Int.toNat_natCast]
  have hlow : (counter 0 9).foldl (appendPower 0) ⟨[0], []⟩ = ⟨[powerOfTwo 8], List.replicate 9 0⟩ :=
    foldl_appendPower 0 [] (counter 0 8) 8
  have hhigh : (counter (size - 8) 9).foldl (appendPower 0) ⟨[powerOfTwo 8], List.replicate 9 0⟩ =
      ⟨[2 ^ size], List.replicate 18 0⟩ := by
    have hlast : (size : Int) - 8 + (8 : Nat) = size := by omega
    rw [counter_succ, hlast, foldl_appendPower, hpow]
    rfl
  have hvalid : Valid ⟨[2 ^ size, 2 ^ size], List.replicate 18 0⟩ := by
    intro r hr
    rw [List.eq_of_mem_replicate hr]
    exact Nat.zero_lt_two
  have hsmall := foldl_appendNew_extends 1 (fun _ i => i) (counter 1 8) hvalid Nat.one_lt_two
  obtain ⟨hlen, hmax⟩ := hsmall.kept 1 Nat.one_lt_two
  have hlarge := foldl_appendNew_extends 1 (fun m i => m - i) (counter 0 9) hsmall.valid hlen
  have hall := (hsmall.trans hlarge).values
  rw [hmax] at hall
  simp only [generateIntBySize, new, List.nil_append, List.length_nil, hlow, hhigh, hpow,
    List.length_singleton, List.singleton_append]
  refine hall.trans ?_
  have hones : (List.range 8).map (fun i => (1 + i : Int)) =
      (List.range 8).map fun i => (i + 1 : Int) :=
    List.map_congr_left fun i _ => Int.add_comm _ _
  simp only [MiniEvm.generateIntBySize, values, counter, List.map_map, Function.comp_def, zero_add,
    List.map_id', List.append_assoc, hones]
  rfl

end IntRefs

/-- What the list is meant to hold: the powers of two at both ends of the range, the first values
and the last ones. -/
def boundaryValues (size : Nat) : List Int :=
  (List.range 9).map (fun i => (2 ^ i : Int)) ++
    ((List.range 9).map (fun i => (2 ^ (size - 8 + i) : Int)) ++
      ((List.range 8).map (fun i => (i + 1 : Int)) ++ (List.range 9).map fun i => (2 ^ size - i : Int)))

theorem two_pow_eq_iff (m n : Nat) : (2 ^ m : Int) = 2 ^ n ↔ m = n :=
  (pow_right_injective₀ (by decide : (0 : Int) < 2) (by decide)).eq_iff

theorem length_boundaryValues (size : Nat) : (boundaryValues size).length = 35 := by
  simp [boundaryValues]

/-- The two lists differ in the eighteen powers only. -/
theorem generateIntBySize_eq (size : Nat) :
    generateIntBySize size = List.replicate 18 (2 ^ size) ++ (boundaryValues size).drop 18 := by
  have hpowers : (boundaryValues size).drop 18 =
      (List.range 8).map (fun i => (i + 1 : Int)) ++ (List.range 9).map fun i => (2 ^ size - i : Int) := by
    simp [boundaryValues, List.drop_append]
  rw [hpowers, generateIntBySize, List.append_assoc]

/-- The powers in the order in which they are meant to be. -/
theorem boundaryValues_power {size k : Nat} (hk : k < 18) :
    (boundaryValues size)[k]? = some (2 ^ (if k < 9 then k else size - 8 + (k - 9))) := by
  unfold boundaryValues
  split_ifs with hlow
  · rw [List.getElem?_append_left (by simpa using hlow)]
    simp [hlow]
  · have hge : ((List.range 9).map fun i => (2 ^ i : Int)).length ≤ k := by simpa using hlow
    have hhigh : k - 9 < 9 := by omega
    rw [List.getElem?_append_right hge, List.getElem?_append_left (by simpa using hhigh)]
    simp [hhigh]

/-- Entry `k` holds its own value exactly from the last power of two on; the only earlier one is
2^8 where that is the last power too. -/
theorem generateIntBySize_entry_iff {size : Nat} (hsize : 8 ≤ size) :
    (IntRefs.generateIntBySize size).values.length = (boundaryValues size).length ∧
      ∀ k < (boundaryValues size).length,
        ((IntRefs.generateIntBySize size).values[k]? = (boundaryValues size)[k]? ↔
          17 ≤ k ∨ size = 8 ∧ k = 8) := by
  rw [IntRefs.values_generateIntBySize, generateIntBySize_eq]
  refine ⟨by simp [length_boundaryValues], ?_⟩
  intro k _
  by_cases hk : k < 18
  · rw [List.getElem?_append_left (by simpa using hk), List.getElem?_replicate, if_pos hk,
      boundaryValues_power hk, Option.some_inj, two_pow_eq_iff]
    split_ifs <;> omega
  · have hge : (List.replicate 18 (2 ^ size : Int)).length ≤ k := by simpa using hk
    have hsame : 18 + (k - 18) = k := by omega
    rw [List.getElem?_append_right hge, List.length_replicate, List.getElem?_drop, hsame]
    exact iff_of_true rfl (Or.inl (by omega))

theorem generateIntBySize_entry_iff_uint256 :
    (IntRefs.generateIntBySize 256).values.length = (boundaryValues 256).length ∧
      ∀ k < (boundaryValues 256).length,
        ((IntRefs.generateIntBySize 256).values[k]? = (boundaryValues 256)[k]? ↔
          17 ≤ k ∨ 256 = 8 ∧ k = 8) :=
  generateIntBySize_entry_iff (by decide)

/-- The first entry should be 1 and is 2^256. -/
theorem generateIntBySize_first_lost : (boundaryValues 256)[0]? = some 1 ∧
    (IntRefs.generateIntBySize 256).values[0]? = some (2 ^ 256) ∧
    (1 : Int) ≠ 2 ^ 256 := by decide +kernel

end MiniEvm
