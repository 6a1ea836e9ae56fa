import MiniEvm.Math.Bytes

namespace MiniEvm.Framework

open Math

variable {α : Type}

/-- `b` stands in `data` from position `pos` on. -/
def At (data : List α) (pos : Nat) (b : List α) : Prop :=
  ∃ front rest, data = front ++ b ++ rest ∧ front.length = pos

namespace At

variable {data b c : List α} {pos : Nat}

theorem le (h : At data pos b) : pos + b.length ≤ data.length := by
  obtain ⟨front, rest, rfl, rfl⟩ := h
  simp only [List.length_append]
  omega

theorem slice (h : At data pos b) : slice data pos (pos + b.length) = some b := by
  have hle := h.le
  obtain ⟨front, rest, rfl, rfl⟩ := h
  refine slice_eq_some.mpr ⟨Nat.le_add_right _ _, hle, ?_⟩
  rw [List.append_assoc, List.drop_left, Nat.add_sub_cancel_left, List.take_left]

theorem left (h : At data pos (b ++ c)) : At data pos b := by
  obtain ⟨front, rest, rfl, rfl⟩ := h
  exact ⟨front, c ++ rest, by simp, rfl⟩

theorem right (h : At data pos (b ++ c)) : At data (pos + b.length) c := by
  obtain ⟨front, rest, rfl, rfl⟩ := h
  exact ⟨front ++ b, rest, by simp, by simp⟩

theorem append_right (h : At data pos b) (more : List α) : At (data ++ more) pos b := by
  obtain ⟨front, rest, rfl, rfl⟩ := h
  exact ⟨front, rest ++ more, by simp, rfl⟩

theorem append_left (h : At data pos b) (more : List α) : At (more ++ data) (more.length + pos) b := by
  obtain ⟨front, rest, rfl, rfl⟩ := h
  exact ⟨more ++ front, rest, by simp, by simp⟩

/-- Any two pieces of one length at one place are the same. -/
theorem unique (h : At data pos b) (h' : At data pos c) (hlen : b.length = c.length) : b = c := by
  have hb := h.slice
  rw [hlen, h'.slice] at hb
  exact (Option.some.inj hb).symm

end At

/-- What lies between two positions stands there. -/
theorem at_of_slice {data b : List α} {lo hi : Nat} (h : slice data lo hi = some b) :
    At data lo b ∧ b.length = hi - lo := by
  obtain ⟨hlo, hhi, rfl⟩ := slice_eq_some.mp h
  refine ⟨⟨data.take lo, data.drop hi, ?_, by simp; omega⟩, by simp; omega⟩
  have hdrop : data.drop hi = (data.drop lo).drop (hi - lo) := by
    rw [List.drop_drop]
    congr 1
    omega
  rw [hdrop, List.append_assoc, List.take_append_drop, List.take_append_drop]

theorem exists_at {data : List α} {pos n : Nat} (h : pos + n ≤ data.length) :
    ∃ b, At data pos b ∧ b.length = n := by
  have hslice : slice data pos (pos + n) = some ((data.drop pos).take (pos + n - pos)) :=
    slice_eq_some.mpr ⟨Nat.le_add_right pos n, h, rfl⟩
  obtain ⟨hat, hlen⟩ := at_of_slice hslice
  exact ⟨_, hat, by omega⟩

theorem at_append (front b rest : List α) : At (front ++ b ++ rest) front.length b :=
  ⟨front, rest, rfl, rfl⟩

end MiniEvm.Framework
