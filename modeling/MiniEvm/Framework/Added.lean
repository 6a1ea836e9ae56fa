import Mathlib

namespace MiniEvm.Framework

variable {α : Type}

/-- What a list that only grows has gained since it was `old`. -/
def added (old new : List α) : List α := new.drop old.length

@[simp] theorem added_self (l : List α) : added l l = [] := by simp [added]

@[simp] theorem added_append (l m : List α) : added l (l ++ m) = m := by simp [added]

/-- Two stretches, one after the other. -/
theorem added_trans {l m n : List α} (hlm : l <+: m) (hmn : m <+: n) :
    added l n = added l m ++ added m n := by
  obtain ⟨x, rfl⟩ := hlm
  obtain ⟨y, rfl⟩ := hmn
  rw [added_append, added_append, List.append_assoc, added_append]

end MiniEvm.Framework
