import MiniEvm.Math.Bytes

namespace MiniEvm.Math

/-- An infinite array. -/
abbrev Image (α : Type) := Nat → α

namespace Image

variable {α : Type}

/-- A finite array continued by a default element. -/
def ofList (d : α) (l : List α) : Image α := fun i => l.getD i d

def read (m : Image α) (off len : Nat) : List α := (List.range len).map fun i => m (off + i)

/-- Stores `src` from position `off` on; all other positions are unchanged. -/
def write (m : Image α) (off : Nat) (src : List α) : Image α := fun i =>
  if off ≤ i then (src[i - off]?).getD (m i) else m i

/-- A sequence of writes, the earliest first. -/
def writeAll (m : Image α) (ws : List (Nat × List α)) : Image α :=
  ws.foldl (fun m w => m.write w.1 w.2) m

theorem writeAll_append (m : Image α) (ws vs : List (Nat × List α)) :
    m.writeAll (ws ++ vs) = (m.writeAll ws).writeAll vs := List.foldl_append ..

@[simp] theorem read_length (m : Image α) (off len : Nat) : (m.read off len).length = len := by
  simp [read]

@[simp] theorem write_nil (m : Image α) (off : Nat) : m.write off [] = m := by
  funext i
  simp [write]

theorem read_getElem? (m : Image α) (off len i : Nat) (h : i < len) :
    (m.read off len)[i]? = some (m (off + i)) := by
  simp [read, h]

/-- Growing a finite array by the default element does not change what it stands for. -/
theorem ofList_append_replicate (d : α) (l : List α) (n : Nat) :
    ofList d (l ++ List.replicate n d) = ofList d l := by
  funext i
  simp only [ofList, List.getD_eq_getElem?_getD, List.getElem?_append, List.getElem?_replicate]
  split_ifs with hl hn
  · rfl
  · rw [List.getElem?_eq_none (by omega)]
    rfl
  · rw [List.getElem?_eq_none (by omega)]

/-- A slice within the bounds reads the image. -/
theorem slice_eq_read (d : α) (l : List α) (off len : Nat) (h : off + len ≤ l.length) :
    slice l off (off + len) = some ((ofList d l).read off len) := by
  rw [slice_eq_some]
  refine ⟨Nat.le_add_right .., h, ?_⟩
  apply List.ext_getElem?
  intro i
  by_cases hi : i < len
  · rw [read_getElem? _ _ _ _ hi, Nat.add_sub_cancel_left, List.getElem?_take_of_lt hi,
      List.getElem?_drop, List.getElem?_eq_getElem (by omega)]
    simp [ofList, List.getD_eq_getElem?_getD,
      List.getElem?_eq_getElem (show off + i < l.length by omega)]
  · rw [List.getElem?_eq_none (by simp; omega), List.getElem?_eq_none (by simp; omega)]

/-- Overwriting within the bounds writes the image. -/
theorem ofList_overwrite (d : α) (l : List α) (off : Nat) (src : List α)
    (h : off + src.length ≤ l.length) :
    ofList d (overwrite l off src) = (ofList d l).write off src := by
  funext i
  have htake : src.take (l.length - off) = src := List.take_of_length_le (by omega)
  simp only [ofList, write, overwrite, List.getD_eq_getElem?_getD, htake, List.append_assoc]
  by_cases hlo : off ≤ i
  · rw [if_pos hlo, List.getElem?_append_right (by simp; omega), List.length_take,
      Nat.min_eq_left (by omega)]
    by_cases hhi : i - off < src.length
    · rw [List.getElem?_append_left hhi, List.getElem?_eq_getElem hhi]
      rfl
    · have heq : off + src.length + (i - off - src.length) = i := by omega
      rw [List.getElem?_append_right (by omega), List.getElem?_drop, heq,
        List.getElem?_eq_none (l := src) (by omega)]
      rfl
  · rw [if_neg hlo, List.getElem?_append_left (by simp; omega), List.getElem?_take_of_lt (by omega)]

theorem ofList_set (d : α) (l : List α) (off : Nat) (a : α) (h : off < l.length) :
    ofList d (l.set off a) = (ofList d l).write off [a] := by
  funext i
  simp only [ofList, write, List.getD_eq_getElem?_getD, List.getElem?_set]
  by_cases hi : off = i
  · subst hi
    simp [h]
  · rw [if_neg hi]
    split_ifs with hlo
    · rw [List.getElem?_eq_none (l := [a]) (by simp; omega)]
      rfl
    · rfl

end Image

end MiniEvm.Math
